import MarkupTrace.Proofs.Simulation

/-!
# Elements in two runs

What annotation adds to an element succeeds once it is allowed a depth of two, and then leaves
nothing behind but records and, for a while, one of them on a stack.
-/

namespace MarkupTrace

open Source Annotate Store

namespace Eval

/-- Allowed some depth, the run succeeds; with less it may have been exhausted. -/
inductive Settled {σ ε α : Type} (least depth : Nat) (P : α → σ → Prop) :
    Except (Stop ε) α × σ → Prop
  | ok {a : α} {s : σ} (h : P a s) : Settled least depth P (.ok a, s)
  | exhausted (s : σ) (h : depth < least) : Settled least depth P (.error .exhausted, s)

namespace Settled

variable {σ τ ε α β : Type} {least depth : Nat} {P : α → σ → Prop}

theorem bind {Q : β → σ → Prop} {x : Attempt σ (Stop ε) α} {f : α → Attempt σ (Stop ε) β} {s : σ}
    (h : Settled least depth P (x s)) (hf : ∀ a s', P a s' → Settled least depth Q (f a s')) :
    Settled least depth Q ((x >>= f) s) := by
  rw [Attempt.bind_apply]
  generalize x s = p at h
  cases h with
  | ok h => exact hf _ _ h
  | exhausted s h => exact .exhausted s h

theorem both {Q : β → τ → Prop} {x : Except (Stop ε) α × σ} {y : Except (Stop ε) β × τ} {k : Nat}
    (hx : Settled least depth P x) (hy : Settled least k Q y) (hk : least ≤ k) :
    Matches (fun a b s t => P a s ∧ Q b t) x y := by
  cases hx with
  | exhausted s _ => exact .exhausted s y
  | ok h =>
    cases hy with
    | exhausted s hlt => omega
    | ok h' => exact .ok ⟨h, h'⟩

end Settled

variable {Γ : Typing} {scope : ScopeId} {s t : Store} {o : Origin} {bound : Nat}

/-! ## What annotation adds -/

section

variable {i : Instance} (hs : s.Sound Γ) (hi : s.Home Γ scope.index (.annotated i))
  (ha : 0 < i.tally.annotated)

include hs hi ha

theorem eval_place (n : Nat) (span : Text.Span) :
    eval (n + 1) scope (.location (i.site.location span)) s =
      (.ok (.location ⟨s.records.size, i.place span⟩), (s.newRecord (i.place span)).2) := by
  show Run.record (locationOf (i.site.location span) scope s) s = _
  rw [locationOf_site hs hi ha]
  rfl

theorem settled_place (n : Nat) (span : Text.Span) :
    Settled 2 n (fun v s' => v = .location ⟨s.records.size, i.place span⟩ ∧
      s' = (s.newRecord (i.place span)).2) (eval n scope (.location (i.site.location span)) s) := by
  cases n with
  | zero => exact .exhausted _ (by omega)
  | succ n =>
    rw [eval_place hs hi ha]
    exact .ok ⟨rfl, rfl⟩

variable (hundefined : "undefined" ∉ i.names.toList)
include hundefined

omit ha in
theorem nameValue_recordParent (hw : 0 < i.tally.wrapped) :
    nameValue scope i.names.recordParent s = (.ok (.builtin (.recordParent i.stack)), s) := by
  have hne : i.names.recordParent ≠ "undefined" := by
    intro h
    exact hundefined (h ▸ by simp [Names.toList])
  rw [nameValue, if_neg hne, lookup_apply, Store.lookup, hs.lookup_recordParent hi hw]

omit ha in
theorem nameValue_recordExpression (hw : 0 < i.tally.wrapped) :
    nameValue scope i.names.recordExpression s = (.ok (.builtin (.recordExpression i.stack)), s) := by
  have hne : i.names.recordExpression ≠ "undefined" := by
    intro h
    exact hundefined (h ▸ by simp [Names.toList])
  rw [nameValue, if_neg hne, lookup_apply, Store.lookup, hs.lookup_recordExpression hi hw]

theorem settled_source (n : Nat) (span : Text.Span) {records : Bool}
    (hw : records = true → 0 < i.tally.wrapped) :
    Settled 2 n (fun v s' => v = .location ⟨s.records.size, i.place span⟩ ∧
      s' = attributedStore i span records s) (eval n scope (i.site.source span records) s) := by
  cases records with
  | false => exact settled_place hs hi ha n span
  | true =>
    match n with
    | 0 => exact .exhausted _ (by omega)
    | 1 => exact .exhausted _ (by omega)
    | n + 2 =>
      show Settled _ _ _ ((nameValue scope i.names.recordParent >>= fun f =>
        all (eval (n + 1)) scope [.location (i.site.location span)] >>= fun vs =>
          callWith (eval (n + 1)) f vs) s)
      rw [Attempt.bind_ok (nameValue_recordParent hs hi hundefined (hw rfl))]
      rw [Attempt.bind_ok (show all (eval (n + 1)) scope [.location (i.site.location span)] s =
        (.ok [.location ⟨s.records.size, i.place span⟩], (s.newRecord (i.place span)).2) by
          rw [all, Attempt.bind_ok (eval_place hs hi ha n span)]; rfl)]
      exact .ok ⟨rfl, rfl⟩

/-- A recorded value: it is evaluated one level deeper, after a record was made for its place, and
then recorded. -/
theorem eval_record (hw : 0 < i.tally.wrapped) (n : Nat) (span : Text.Span) (value : Expr)
    (isExpression isLast : Bool) :
    eval (n + 2) scope (i.site.record span value isExpression isLast) s =
      (eval (n + 1) scope value >>= fun v =>
        Attempt.modify (Store.record i.stack ⟨v, i.place span, isExpression⟩ isLast) >>= fun _ =>
          pure v) (s.newRecord (i.place span)).2 := by
  show (nameValue scope i.names.recordExpression >>= fun f =>
    all (eval (n + 1)) scope [.location (i.site.location span), value, .bool isExpression,
      .bool isLast] >>= fun vs => callWith (eval (n + 1)) f vs) s = _
  rw [Attempt.bind_ok (nameValue_recordExpression hs hi hundefined hw), Attempt.bind_apply, all,
    Attempt.bind_ok (eval_place hs hi ha n span), all, Attempt.bind_assoc, Attempt.bind_apply,
    Attempt.bind_apply (eval (n + 1) scope value)]
  rcases eval (n + 1) scope value (s.newRecord (i.place span)).2 with ⟨e | v, s₂⟩ <;> rfl

end

/-- Where children are recorded, the module has declared what that takes, and as long as there are
some left, the stack has a record on top that was made during the comparison. -/
structure Ready (bound : Nat) (o : Origin) (records : Bool) (cs : List Child) (s : Store) :
    Prop where
  counted : ∀ i, o = .annotated i → records = true → 0 < i.tally.annotated ∧ 0 < i.tally.wrapped
  topped : ∀ i, o = .annotated i → records = true → cs.any Child.isWrappable = true →
    ∃ r rest, s.stackEntries[i.stack.index]? = some (r :: rest) ∧ bound ≤ r.index

namespace Ready

variable {records : Bool} {c : Child} {cs : List Child}

theorem tail (h : Ready bound o records (c :: cs) s) : Ready bound o records cs s := by
  refine ⟨h.counted, fun i ho hrecords hany => h.topped i ho hrecords ?_⟩
  rw [List.any_cons, hany, Bool.or_true]

theorem of_stackEntries_eq {s' : Store} (h : Ready bound o records cs s)
    (hs : s'.stackEntries = s.stackEntries) : Ready bound o records cs s' :=
  ⟨h.counted, fun i ho hrecords hany => hs ▸ h.topped i ho hrecords hany⟩

/-- Recording a child pops the record only if no further one is recorded. -/
theorem record {i : Instance} (h : Ready bound (.annotated i) true (c :: cs) s)
    (hc : c.isWrappable = true) (x : Recorded) :
    s.Aside bound (s.record i.stack x (!cs.any Child.isWrappable)) ∧
      Ready bound (.annotated i) true cs (s.record i.stack x (!cs.any Child.isWrappable)) := by
  obtain ⟨r, rest, htop, hr⟩ := h.topped i rfl rfl (by rw [List.any_cons, hc, Bool.true_or])
  refine ⟨.record htop hr x _, h.counted, ?_⟩
  intro j hj _ hany
  cases hj
  refine ⟨r, rest, ?_, hr⟩
  rw [stackEntries_record htop, hany, Bool.not_true, if_neg Bool.false_ne_true, htop]

end Ready

theorem Given.take_self_props (g : Given) (v : Value) :
    (g.take selfAttribute v).props = g.props := by
  rw [Given.take, if_pos rfl]

theorem Given.take_source_props (g : Given) (v : Value) :
    (g.take sourceAttribute v).props = g.props := by
  rw [Given.take, if_neg (by decide), if_pos rfl]

theorem scopes_attributedStore (i : Instance) (span : Text.Span) (records : Bool) (s : Store) :
    (attributedStore i span records s).scopes = s.scopes := by
  cases records <;> rfl

theorem aside_attributedStore (i : Instance) (span : Text.Span) (records : Bool)
    (hbound : bound ≤ s.records.size) : s.Aside bound (attributedStore i span records s) := by
  have hnew := Store.Aside.newRecord hbound (i.place span)
  cases records with
  | false => exact hnew
  | true => exact hnew.trans (.push _ _ _)

/-- The attributes that an element gets in addition are no props. -/
theorem settled_added (hs : s.Sound Γ) (hi : s.Home Γ scope.index o) {e : Element}
    (hsuits : o.Suits e.mentions) {g : Given} (hg : g.Clean (s.Home Γ))
    (hbound : bound ≤ s.records.size) (n : Nat) :
    Settled 2 n (fun g' s' => g'.props = g.props ∧ g'.Clean (s'.Home Γ) ∧ s.Aside bound s' ∧
      Ready bound o (o.records e) e.content.toList s') (attributes (eval n) scope g (o.added e) s) := by
  cases o with
  | plain => exact .ok ⟨rfl, hg, .refl s, nofun, nofun⟩
  | annotated i =>
    rw [Origin.added, addedAttributes, attributes_append]
    have hself : Settled 2 n (fun g₁ s₁ => s₁ = s ∧ g₁.props = g.props ∧ g₁.Clean (s.Home Γ))
        (attributes (eval n) scope g
          (if e.hasAttribute selfAttribute then [] else [.value selfAttribute .this]) s) := by
      split_ifs
      · exact .ok ⟨rfl, rfl, hg⟩
      · cases n with
        | zero => exact .exhausted _ (by omega)
        | succ n => exact .ok ⟨rfl, g.take_self_props _, hg.take .undefined _⟩
    refine hself.bind ?_
    rintro g₁ s₁ ⟨rfl, hprops, hg₁⟩
    split_ifs with huser
    · have hrecords : recordsChildren e = false := by simp [recordsChildren, huser]
      refine .ok ⟨hprops, hg₁, .refl s₁, ?_, ?_⟩
      · intro j _ h
        rw [Origin.records, hrecords] at h
        cases h
      · intro j _ h
        rw [Origin.records, hrecords] at h
        cases h
    · have hfits := hsuits.fits
      rw [Element.mentions_eq, if_neg huser] at hfits
      have hcount := hfits.counts (recordsChildren e) (by simp)
      have hsource := settled_source hs hi hcount.1 hsuits.undefined n e.span hcount.2
      refine hsource.bind ?_
      rintro v s₂ ⟨rfl, rfl⟩
      refine .ok ⟨(g₁.take_source_props _).trans hprops, ?_, ?_, ?_⟩
      · refine (hg₁.take (.location _) _).mono fun k o hk => ?_
        exact hk.of_scopes_eq (scopes_attributedStore i e.span _ s₁)
      · exact aside_attributedStore i e.span (recordsChildren e) hbound
      · refine ⟨?_, ?_⟩
        · intro j hj hrecords
          cases hj
          exact ⟨hcount.1, hcount.2 hrecords⟩
        · intro j hj hrecords _
          cases hj
          rw [Origin.records] at hrecords
          have hlt := hs.stack_lt hi
          refine ⟨⟨s₁.records.size, i.place e.span⟩, s₁.entries i.stack, ?_, hbound⟩
          rw [hrecords]
          simp [attributedStore, push, newRecord, entries, hlt]

/-! ## Children one by one -/

/-- The value of one child, if it has one. -/
def childValue (ev : Evaluator) (scope : ScopeId) : Child → Run (Option Value)
  | .text t => return if t.cooked = "" then none else some (.text t.cooked)
  | .emptyContainer _ => return none
  | .container value _ => do return some (← ev scope value)
  | .element e => do return some (← ev scope (.markup e))

theorem childValues_cons (ev : Evaluator) (scope : ScopeId) (c : Child) (cs : List Child) :
    childValues ev scope (c :: cs) = childValue ev scope c >>= fun v =>
      childValues ev scope cs >>= fun vs => pure (v.toList ++ vs) := by
  funext s
  cases c with
  | text t =>
    show (childValues ev scope cs >>= fun values =>
      pure (if t.cooked = "" then values else .text t.cooked :: values)) s = _
    rw [Attempt.bind_ok (show childValue ev scope (.text t) s = (.ok _, s) from rfl)]
    split_ifs <;> rfl
  | emptyContainer span =>
    show childValues ev scope cs s = (childValues ev scope cs >>= fun vs => pure vs) s
    rw [Attempt.bind_apply]
    rcases childValues ev scope cs s with ⟨e | vs, s'⟩ <;> rfl
  | container value span =>
    show (ev scope value >>= fun v => childValues ev scope cs >>= fun vs => pure (v :: vs)) s =
      ((ev scope value >>= fun v => pure (some v)) >>= _) s
    rw [Attempt.bind_assoc]
    rfl
  | element e =>
    show (ev scope (.markup e) >>= fun v => childValues ev scope cs >>= fun vs =>
      pure (v :: vs)) s = ((ev scope (.markup e) >>= fun v => pure (some v)) >>= _) s
    rw [Attempt.bind_assoc]
    rfl

/-- A text is worth what it is shown as, recorded or not. -/
theorem settled_text (hs : s.Sound Γ) (hi : s.Home Γ scope.index o)
    (hundefined : "undefined" ∉ o.hidden) (hbound : bound ≤ s.records.size) {records : Bool}
    {t : MarkupText} {cs : List Child} (h : Ready bound o records (.text t :: cs) s) (n : Nat) :
    Settled 2 n (fun v s' => v = (if t.cooked = "" then none else some (.text t.cooked)) ∧
      s.Aside bound s' ∧ Ready bound o records cs s')
      (childValue (eval n) scope (o.child records (!cs.any Child.isWrappable) (.text t)) s) := by
  cases o with
  | plain => exact .ok ⟨rfl, .refl s, h.tail⟩
  | annotated i =>
    cases hrecorded : records && t.isSignificant with
    | false =>
      simp only [Origin.child, Annotate.child, hrecorded, Bool.false_eq_true, if_false]
      exact .ok ⟨rfl, .refl s, h.tail⟩
    | true =>
      simp only [Origin.child, Annotate.child, hrecorded, if_true]
      rw [Bool.and_eq_true] at hrecorded
      obtain ⟨rfl, hsignificant⟩ := hrecorded
      obtain ⟨ha, hw⟩ := h.counted i rfl rfl
      rcases n with _ | _ | n
      · exact .exhausted _ (by omega)
      · exact .exhausted _ (by omega)
      · have hnew := Store.Aside.newRecord hbound (i.place t.trimmedSpan)
        have hready : Ready bound (.annotated i) true (.text t :: cs)
            (s.newRecord (i.place t.trimmedSpan)).2 := h.of_stackEntries_eq rfl
        obtain ⟨haside, hready⟩ :=
          hready.record hsignificant ⟨.text t.cooked, i.place t.trimmedSpan, false⟩
        rw [childValue, Attempt.bind_apply, eval_record hs hi ha hundefined hw]
        rw [if_neg (MarkupText.cooked_ne_empty hsignificant)]
        exact .ok ⟨rfl, hnew.trans haside, hready⟩

/-- How the value of a container comes about: perhaps one level deeper, after a record was made, and
then perhaps recorded. -/
structure Contained (bound n : Nat) (o : Origin) (records : Bool) (cs : List Child)
    (scope : ScopeId) (e : Expr) (s : Store) (r : Except (Stop EvalError) (Option Value) × Store)
    (m : Nat) (s₁ : Store) (after : Value → Store → Store) : Prop where
  le : m ≤ n
  ge : n ≤ m + 1
  aside : s.Aside bound s₁
  stackEntries : s₁.stackEntries = s.stackEntries
  eq : r = (eval m scope (o.expr e) >>= fun v =>
    Attempt.modify (after v) >>= fun _ => pure (some v)) s₁
  ready : ∀ v s₂, s₂.stackEntries = s₁.stackEntries →
    s₂.Aside bound (after v s₂) ∧ Ready bound o records cs (after v s₂)

theorem exists_contained (hs : s.Sound Γ) (hi : s.Home Γ scope.index o)
    (hundefined : "undefined" ∉ o.hidden) (hbound : bound ≤ s.records.size) {records : Bool}
    {e : Expr} {span : Text.Span} {cs : List Child}
    (h : Ready bound o records (.container e span :: cs) s) (n : Nat) :
    (n < 2 ∧ ∃ s', childValue (eval n) scope
      (o.child records (!cs.any Child.isWrappable) (.container e span)) s =
        (.error .exhausted, s')) ∨
      ∃ m s₁ after, Contained bound n o records cs scope e s (childValue (eval n) scope
        (o.child records (!cs.any Child.isWrappable) (.container e span)) s) m s₁ after := by
  have hunrecorded : Contained bound n o records cs scope e s
      (childValue (eval n) scope (.container (o.expr e) span) s) n s fun _ => id := by
    refine ⟨le_rfl, Nat.le_succ n, .refl s, rfl, rfl, ?_⟩
    intro v s₂ hs₂
    exact ⟨.refl s₂, (h.of_stackEntries_eq hs₂).tail⟩
  cases o with
  | plain => exact .inr ⟨_, _, _, hunrecorded⟩
  | annotated i =>
    cases records with
    | false => exact .inr ⟨_, _, _, hunrecorded⟩
    | true =>
      obtain ⟨ha, hw⟩ := h.counted i rfl rfl
      match n with
      | 0 => exact .inl ⟨by omega, _, rfl⟩
      | 1 => exact .inl ⟨by omega, _, rfl⟩
      | n + 2 =>
        refine .inr ⟨n + 1, (s.newRecord (i.place span)).2, fun v s₂ => s₂.record i.stack
          ⟨v, i.place span, true⟩ (!cs.any Child.isWrappable), by omega, le_rfl,
          .newRecord hbound _, rfl, ?_, ?_⟩
        · show (eval (n + 2) scope (i.site.record span (Annotate.expr i.site e) true _) >>= fun v =>
            pure (some v)) s = _
          rw [Attempt.bind_apply, eval_record hs hi ha hundefined hw, Attempt.bind_apply,
            Attempt.bind_apply, Origin.expr]
          rcases eval (n + 1) scope (Annotate.expr i.site e) (s.newRecord (i.place span)).2 with
            ⟨x | v, s₂⟩ <;> rfl
        · intro v s₂ hs₂
          exact (h.of_stackEntries_eq hs₂).record rfl _

/-- An evaluation that succeeds leaves the stacks as they were. -/
theorem stackEntries_of_eval (hs : s.Sound Γ) (hi : s.Home Γ scope.index o) {e : Expr}
    (hfits : o.Fits e.mentions) {n : Nat} {v : Value} {s' : Store}
    (h : eval n scope (o.expr e) s = (.ok v, s')) : s'.stackEntries = s.stackEntries := by
  obtain ⟨log, hlog⟩ := covers_eval n _ _ _ _ _ h
  exact ((derives_keeps Γ n).1 _ _ _ _ _ _ _ hs hi hfits hlog).1.stackEntries

/-! ## Both sides -/

/-- Evaluation to this depth is followed by evaluation to any depth more than twice as large. -/
def FollowsTo (C : Comparison) (n : Nat) : Prop :=
  ∀ m ≤ n, ∀ k, 2 * m < k → Follows C (eval m) (eval k)

def SimilarChild (C : Comparison) (s t : Store) : Option Value → Option Value → Prop :=
  Option.Rel (C.Similar s t)

namespace FollowsTo

variable {C : Comparison} {o₁ o₂ : Origin} {n k : Nat} (hev : FollowsTo C n)
  (hk : 2 * n + 1 < k) {records₁ records₂ : Bool}
include hev hk

theorem container {e : Expr} {span : Text.Span} {cs : List Child} (h : Placed C o₁ o₂ scope s t)
    (he : Shared o₁ o₂ e.mentions)
    (hl : Ready C.records.size o₁ records₁ (.container e span :: cs) s)
    (hr : Ready C.records.size o₂ records₂ (.container e span :: cs) t) :
    Matches (fun v w s' t' => Ends C (SimilarChild C) s t v w s' t' ∧
      Ready C.records.size o₁ records₁ cs s' ∧ Ready C.records.size o₂ records₂ cs t')
      (childValue (eval n) scope
        (o₁.child records₁ (!cs.any Child.isWrappable) (.container e span)) s)
      (childValue (eval k) scope
        (o₂.child records₂ (!cs.any Child.isWrappable) (.container e span)) t) := by
  rcases exists_contained h.alike.left h.left he.left.undefined h.alike.holds₁.size hl n with
    ⟨-, s', hx⟩ | ⟨m₁, s₁, after₁, hc₁⟩
  · rw [hx]
    exact .exhausted _ _
  rcases exists_contained h.alike.right h.right he.right.undefined h.alike.holds₂.size hr k with
    ⟨hlt, -⟩ | ⟨m₂, t₁, after₂, hc₂⟩
  · omega
  rw [hc₁.eq, hc₂.eq]
  have hge := hc₂.ge
  have hle := hc₁.le
  have ho₁ := h.alike.aside hc₁.aside hc₂.aside
  have hp := h.onward ho₁
  refine (hev m₁ hle m₂ (by omega) _ _ _ _ _ _ hp he).bind ?_
  rintro v w s₂ t₂ ⟨ho₂, hv⟩ hx hy
  obtain ⟨ha₁, hready₁⟩ := hc₁.ready v s₂
    (stackEntries_of_eval hp.alike.left hp.left he.left.fits hx)
  obtain ⟨ha₂, hready₂⟩ := hc₂.ready w t₂
    (stackEntries_of_eval hp.alike.right hp.right he.right.fits hy)
  have ho₃ := ho₂.alike.aside ha₁ ha₂
  exact .ok ⟨⟨(ho₁.trans ho₂).trans ho₃, .some (hv.onward ho₃)⟩, hready₁, hready₂⟩

theorem child {c : Child} {cs : List Child} (h : Placed C o₁ o₂ scope s t)
    (hc : Shared o₁ o₂ c.mentions) (hl : Ready C.records.size o₁ records₁ (c :: cs) s)
    (hr : Ready C.records.size o₂ records₂ (c :: cs) t) :
    Matches (fun v w s' t' => Ends C (SimilarChild C) s t v w s' t' ∧
      Ready C.records.size o₁ records₁ cs s' ∧ Ready C.records.size o₂ records₂ cs t')
      (childValue (eval n) scope (o₁.child records₁ (!cs.any Child.isWrappable) c) s)
      (childValue (eval k) scope (o₂.child records₂ (!cs.any Child.isWrappable) c) t) := by
  cases c with
  | text txt =>
    have hleft := settled_text h.alike.left h.left hc.left.undefined h.alike.holds₁.size hl n
    have hright := settled_text h.alike.right h.right hc.right.undefined h.alike.holds₂.size hr k
    refine (hleft.both hright (by omega)).imp ?_
    rintro v w s' t' ⟨⟨rfl, ha₁, hready₁⟩, rfl, ha₂, hready₂⟩
    refine ⟨⟨h.alike.aside ha₁ ha₂, ?_⟩, hready₁, hready₂⟩
    split_ifs
    · exact .none
    · exact .some (.text _)
  | emptyContainer span =>
    rw [Origin.child_emptyContainer, Origin.child_emptyContainer]
    exact .ok ⟨⟨h.alike.refl, .none⟩, hl.tail, hr.tail⟩
  | container e span =>
    rw [Child.mentions] at hc
    exact hev.container hk h hc hl hr
  | element e =>
    have he : Shared o₁ o₂ (Expr.markup e).mentions := by
      rw [Child.mentions] at hc
      rwa [Expr.mentions]
    rw [Origin.child_element, Origin.child_element, childValue, childValue]
    rw [← Origin.expr_markup, ← Origin.expr_markup]
    refine (hev n le_rfl k (by omega) _ _ _ _ _ _ h he).bind ?_
    rintro v w s' t' ⟨ho, hv⟩ hx hy
    refine .ok ⟨⟨ho, .some hv⟩, ?_, ?_⟩
    · exact hl.tail.of_stackEntries_eq
        (stackEntries_of_eval h.alike.left h.left he.left.fits hx)
    · exact hr.tail.of_stackEntries_eq
        (stackEntries_of_eval h.alike.right h.right he.right.fits hy)

theorem children {cs : List Child} (h : Placed C o₁ o₂ scope s t)
    (hcs : Shared o₁ o₂ (mentionsOfChildren cs)) (hl : Ready C.records.size o₁ records₁ cs s)
    (hr : Ready C.records.size o₂ records₂ cs t) : Matches (Ends C C.SimilarItems s t)
      (childValues (eval n) scope (o₁.children records₁ cs) s)
      (childValues (eval k) scope (o₂.children records₂ cs) t) := by
  induction cs generalizing s t with
  | nil =>
    rw [Origin.children_nil, Origin.children_nil]
    exact .ok ⟨h.alike.refl, .nil⟩
  | cons c cs ih =>
    rw [mentionsOfChildren] at hcs
    rw [Origin.children_cons, Origin.children_cons, childValues_cons, childValues_cons]
    refine (hev.child hk h hcs.front hl hr).bind ?_
    rintro v w s₁ t₁ ⟨⟨ho₁, hv⟩, hl₁, hr₁⟩ - -
    refine (ih (h.onward ho₁) hcs.back hl₁ hr₁).bind ?_
    rintro vs ws s₂ t₂ ⟨ho₂, hvs⟩ - -
    refine .ok ⟨ho₁.trans ho₂, ?_⟩
    cases hv with
    | none => exact hvs
    | some hv => exact .cons (hv.onward ho₂) hvs

/-- All attributes of an element: its own and those it gets in addition. -/
theorem allAttributes {e : Element} (h : Placed C o₁ o₂ scope s t) (he : Shared o₁ o₂ e.mentions) :
    Matches (fun g g' s' t' => Ends C (Given.Similar C) s t g g' s' t' ∧
        Ready C.records.size o₁ (o₁.records e) e.content.toList s' ∧
        Ready C.records.size o₂ (o₂.records e) e.content.toList t')
      (attributes (eval n) scope ⟨[], none, none⟩ (o₁.element e).attributes s)
      (attributes (eval k) scope ⟨[], none, none⟩ (o₂.element e).attributes t) := by
  have hparts := he
  rw [Element.mentions_eq] at hparts
  rw [Origin.element_attributes, Origin.element_attributes, attributes_append, attributes_append]
  have hempty : Given.Similar C s t ⟨[], none, none⟩ ⟨[], none, none⟩ :=
    ⟨.nil, ⟨by simp, nofun, nofun⟩, by simp, nofun, nofun⟩
  refine ((hev n le_rfl k (by omega)).attributes h hparts.back.back.front hempty).bind ?_
  rintro g g' s₁ t₁ ⟨ho₁, hg⟩ - -
  have hp := h.onward ho₁
  have hleft := settled_added hp.alike.left hp.left he.left hg.left hp.alike.holds₁.size n
  have hright := settled_added hp.alike.right hp.right he.right hg.right hp.alike.holds₂.size k
  refine (hleft.both hright (by omega)).imp ?_
  rintro g₁ g₁' s₂ t₂ ⟨⟨hprops, hclean, ha₁, hready₁⟩, hprops', hclean', ha₂, hready₂⟩
  have ho₂ := hp.alike.aside ha₁ ha₂
  refine ⟨⟨ho₁.trans ho₂, ⟨?_, hclean, hclean'⟩⟩, hready₁, hready₂⟩
  rw [hprops, hprops']
  exact ho₂.fields hg.props

end FollowsTo

theorem withChildren_matches {C : Comparison} {fs gs : Fields} {vs ws : List Value}
    (h : Alike C s t) (hfs : C.SimilarFields s t fs gs) (hvs : C.SimilarItems s t vs ws) :
    Matches (Ends C C.SimilarFields s t) (withChildren fs vs s) (withChildren gs ws t) := by
  cases hvs with
  | nil => exact .ok ⟨h.refl, hfs⟩
  | cons hv hvs =>
    cases hvs with
    | nil => exact .ok ⟨h.refl, hfs.insert "children" hv⟩
    | cons hv' hvs =>
      refine (array_matches h (.cons hv (.cons hv' hvs))).bind ?_
      rintro a b s₁ t₁ ⟨ho, hab⟩ - -
      exact .ok ⟨ho, (ho.fields hfs).insert "children" hab⟩

/-- Elements of similar types with similar props; where they come from does not matter. -/
theorem element_matches {C : Comparison} {a b : ElementType} {fs gs : Fields} {g g' : Given}
    (h : Alike C s t) (htype : SimilarType C s t a b) (hfs : C.SimilarFields s t fs gs)
    (hg : g.Clean (s.Home C.left)) (hg' : g'.Clean (t.Home C.right)) :
    Matches (Ends C C.Similar s t) (Run.element a fs g.owner g.source s)
      (Run.element b gs g'.owner g'.source t) := by
  have ho := h.identity.trans h.identity.alike.identity
  obtain ⟨hlength, hkeys, hvalues⟩ := Keyed.related_iff_zip.mp (ho.fields hfs)
  have hl := hg.mono ho.left
  have hr := hg'.mono ho.right
  refine .ok ⟨ho, .element (congrArg (· + 1) h.next) (htype.mono ho.left ho.right) h.next hlength
    hkeys hvalues hl.owner hl.source hr.owner hr.source⟩

theorem FollowsTo.createElement {C : Comparison} {o₁ o₂ : Origin} {n k : Nat}
    (hev : FollowsTo C n) (hk : 2 * n + 1 < k) {e : Element} (h : Placed C o₁ o₂ scope s t)
    (he : Shared o₁ o₂ e.mentions) : Matches (Ends C C.Similar s t)
      (createElement (eval n) scope (o₁.element e) s)
      (createElement (eval k) scope (o₂.element e) t) := by
  have hparts := he
  rw [Element.mentions_eq] at hparts
  unfold Eval.createElement
  rw [Origin.element_name, Origin.element_name, Origin.element_content, Origin.element_content]
  refine (elementType_matches h hparts.front).bind ?_
  rintro a b s₁ t₁ ⟨ho₁, htype⟩ - -
  refine (hev.allAttributes hk (h.onward ho₁) he).bind ?_
  rintro g g' s₂ t₂ ⟨⟨ho₂, hg⟩, hl, hr⟩ - -
  have ho₁₂ := ho₁.trans ho₂
  refine (hev.children hk (h.onward ho₁₂) hparts.back.back.back hl hr).bind ?_
  rintro vs ws s₃ t₃ ⟨ho₃, hvs⟩ - -
  have hg₃ := hg.onward ho₃
  refine (withChildren_matches ho₃.alike hg₃.props hvs).bind ?_
  rintro fs gs s₄ t₄ ⟨ho₄, hfs⟩ - -
  have hg₄ := hg₃.onward ho₄
  have ho := (ho₂.trans ho₃).trans ho₄
  exact (element_matches ho₄.alike (htype.mono ho.left ho.right) hfs hg₄.left hg₄.right).after
    (ho₁.trans ho)

/-! ## All expressions -/

theorem FollowsTo.step {C : Comparison} {n k : Nat} (hev : FollowsTo C n)
    (hk : 2 * n + 1 < k) : Follows C (step (eval n)) (step (eval k)) := by
  have hstep : Follows C (eval n) (eval k) := hev n le_rfl k (by omega)
  intro o₁ o₂ scope e s t h he
  cases e with
  | text v =>
    rw [Origin.expr_text, Origin.expr_text]
    exact .ok ⟨h.alike.refl, .text v⟩
  | number x =>
    rw [Origin.expr_number, Origin.expr_number]
    exact .ok ⟨h.alike.refl, .number x⟩
  | bool b =>
    rw [Origin.expr_bool, Origin.expr_bool]
    exact .ok ⟨h.alike.refl, .bool b⟩
  | null =>
    rw [Origin.expr_null, Origin.expr_null]
    exact .ok ⟨h.alike.refl, .null⟩
  | this =>
    rw [Origin.expr_this, Origin.expr_this]
    exact .ok ⟨h.alike.refl, .undefined⟩
  | name x =>
    rw [Expr.mentions] at he
    rw [Origin.expr_name, Origin.expr_name]
    exact nameValue_matches h (he.identifier List.mem_cons_self)
  | member e p =>
    rw [Expr.mentions] at he
    rw [Origin.expr_member, Origin.expr_member]
    refine (hstep _ _ _ _ _ _ h he.tail).bind ?_
    rintro v w s₁ t₁ ⟨ho, hv⟩ - -
    exact (property_matches ho.alike hv (he.discreet p List.mem_cons_self)).after ho
  | call callee arguments =>
    rw [Expr.mentions] at he
    rw [Origin.expr_call, Origin.expr_call]
    refine (hstep _ _ _ _ _ _ h he.front).bind ?_
    rintro f g s₁ t₁ ⟨ho₁, hf⟩ - -
    refine (hstep.all (h.onward ho₁) he.back).bind ?_
    rintro vs ws s₂ t₂ ⟨ho₂, hvs⟩ - -
    exact (hstep.callWith ho₂.alike (hf.onward ho₂) hvs).after (ho₁.trans ho₂)
  | arrow params b =>
    rw [Expr.mentions] at he
    rw [Origin.expr_arrow, Origin.expr_arrow]
    exact closure_matches h he
  | object ps =>
    rw [Expr.mentions] at he
    rw [Origin.expr_object, Origin.expr_object]
    refine (hstep.objectFields h he .nil).bind ?_
    rintro fs gs s₁ t₁ ⟨ho, hfs⟩ - -
    exact (object_matches ho.alike hfs).after ho
  | array items =>
    rw [Expr.mentions] at he
    rw [Origin.expr_array, Origin.expr_array]
    refine (hstep.all h he).bind ?_
    rintro vs ws s₁ t₁ ⟨ho, hvs⟩ - -
    exact (array_matches ho.alike hvs).after ho
  | paren e =>
    rw [Expr.mentions] at he
    rw [Origin.expr_paren, Origin.expr_paren]
    exact hstep _ _ _ _ _ _ h he
  | markup e =>
    rw [Expr.mentions] at he
    rw [Origin.expr_markup, Origin.expr_markup]
    exact hev.createElement hk h he
  | location literal =>
    rw [Expr.mentions] at he
    exact absurd List.mem_cons_self he.left.fits.written
  | helper x =>
    rw [Expr.mentions] at he
    exact absurd List.mem_cons_self he.left.fits.written

/-- By induction on the depth of the first run. -/
theorem followsTo (C : Comparison) (n : Nat) : FollowsTo C n := by
  induction n with
  | zero =>
    intro m hm k hk o₁ o₂ scope e s t h he
    obtain rfl : m = 0 := by omega
    exact .exhausted _ _
  | succ n ih =>
    intro m hm k hk
    rcases Nat.lt_or_ge m (n + 1) with hlt | hge
    · exact ih m (by omega) k hk
    · obtain rfl : m = n + 1 := by omega
      obtain ⟨k, rfl⟩ : ∃ j, k = j + 1 := ⟨k - 1, by omega⟩
      exact ih.step (by omega)

end Eval

end MarkupTrace
