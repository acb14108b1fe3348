import MarkupTrace.Proofs.AbandonedRecords

/-!
# Evaluations that fail

An evaluation that fails may leave records on a stack, those of the elements it was inside of, and
nothing else. It stays away from all records that were there before, and the store stays sound. What
was evaluated up to the failure succeeded, and so kept the books; it is the rest that is looked at
here. An element whose children failed changed its own record at most, and that was new.
-/

namespace MarkupTrace

open Source Annotate Eval Store

namespace Eval

/-! ## Runs that leave all stacks alone -/

def Unstacked {α : Type} (x : Run α) : Prop := ∀ s, (x s).2.stackEntries = s.stackEntries

namespace Unstacked

variable {α β : Type} {x : Run α}

theorem pure (a : α) : Unstacked (Pure.pure a : Run α) := fun _ => rfl

theorem bind {f : α → Run β} (hx : Unstacked x) (hf : ∀ a, Unstacked (f a)) :
    Unstacked (x >>= f) := by
  intro s
  have hfirst := hx s
  rw [Attempt.bind_apply]
  revert hfirst
  rcases x s with ⟨e | a, s₁⟩
  · exact id
  · exact (hf a s₁).trans

theorem declare (scope : ScopeId) (n : String) (v : Value) : Unstacked (Run.declare scope n v) :=
  fun _ => rfl

theorem property (p : String) (v : Value) : Unstacked (Run.property p v) := by
  intro s
  unfold Run.property
  cases v.get? p <;> rfl

theorem bindProperties (scope : ScopeId) (argument : Value) (names : List String) :
    Unstacked (bindProperties scope argument names) := by
  induction names with
  | nil => exact .pure ()
  | cons n names ih =>
    exact (property n argument).bind fun v => (declare scope n v).bind fun _ => ih

theorem bindParams (scope : ScopeId) (params : List Param) (arguments : List Value) :
    Unstacked (bindParams scope params arguments) := by
  induction params generalizing arguments with
  | nil => exact .pure ()
  | cons p params ih =>
    cases p with
    | name n => exact (declare scope n _).bind fun _ => ih _
    | properties names => exact (bindProperties scope _ names).bind fun _ => ih _

end Unstacked

/-! ## Evaluation -/

variable {Γ : Typing} {s s' : Store} {scope : ScopeId} {o : Origin}

/-- If the run fails, it leaves these elements unfinished, and their records where they lie. -/
def Stops (Γ : Typing) {α : Type} (x : Run α) (us : Store → List Unfinished) (s : Store) : Prop :=
  x.Leaves (Abandons Γ s (us s)) s

theorem leaves_behind {α β : Type} {P : List Unfinished → Store → Prop} {x : Run α}
    {f : α → Run β} {us : Store → List Unfinished} {next : α → Store → List Unfinished}
    (hx : x.Leaves (P (us s)) s)
    (hf : ∀ a s₁, x s = (.ok a, s₁) → (f a).Leaves (P (next a s₁)) s₁) :
    (x >>= f).Leaves (P (behind x us next s)) s := by
  intro e s' he
  unfold behind
  rw [Attempt.bind_apply] at he
  cases hfirst : x s with
  | mk result s₁ =>
    rw [hfirst] at he
    cases result with
    | error e' =>
      cases he
      exact hx _ _ hfirst
    | ok a => exact hf a s₁ hfirst e s' he

namespace Stops

variable {α β : Type} {x : Run α} {us : Store → List Unfinished}

theorem of_unstacked (h : Unstacked x) (hremains : x.Leaves (Remains Γ none s) s) :
    Stops Γ x (fun _ => []) s := by
  intro e s' he
  have hstacks := h s
  rw [he] at hstacks
  exact .still (hremains e s' he) hstacks

theorem of_still (h : x.FailsStill) (hs : s.Sound Γ) (hus : us s = []) : Stops Γ x us s :=
  h.leaves (hus ▸ .refl hs)

theorem of_ok {a : α} (h : x s = (.ok a, s')) : Stops Γ x us s := Attempt.Leaves.of_ok h

theorem after {s₁ : Store} {l : List Creation} (h : Stops Γ x us s₁) (k : Keeps Γ s s₁ l) :
    x.Leaves (Abandons Γ s (us s₁)) s₁ := h.imp fun _ hs' => hs'.after k.grows k.stackEntries

theorem behind {f : α → Run β} {next : α → Store → List Unfinished} (hx : Stops Γ x us s)
    (hf : ∀ a s₁, x s = (.ok a, s₁) → ∃ l, Keeps Γ s s₁ l ∧ Stops Γ (f a) (next a) s₁) :
    Stops Γ (x >>= f) (behind x us next) s := by
  refine leaves_behind hx fun a s₁ ha => ?_
  obtain ⟨l, k, hstops⟩ := hf a s₁ ha
  exact hstops.after k

end Stops

/-- An evaluator whose successes keep the books and whose failures leave what was there, and beside
that no more than what its trace tells. -/
structure Traced (Γ : Typing) (ev : Evaluator) (up : Trace) (J : Judgement) : Prop where
  covers : Covers ev J
  keeps : Preserves Γ J
  stops : ∀ {o : Origin} {scope : ScopeId} {e : Expr} {s : Store}, s.Sound Γ →
    s.Home Γ scope.index o → o.Fits e.mentions →
      Stops Γ (ev scope (o.expr e)) (up scope (o.expr e)) s

section

variable {ev : Evaluator} {up : Trace} {J : Judgement} (hev : Traced Γ ev up J)
include hev

theorem Traced.behind {β : Type} {e : Expr} {f : Value → Run β}
    {next : Value → Store → List Unfinished} (hs : s.Sound Γ) (hi : s.Home Γ scope.index o)
    (hfits : o.Fits e.mentions)
    (hf : ∀ v s₁ l, Keeps Γ s s₁ l → v.Clean (s₁.Home Γ) → Stops Γ (f v) (next v) s₁) :
    Stops Γ (ev scope (o.expr e) >>= f)
      (behind (ev scope (o.expr e)) (up scope (o.expr e)) next) s := by
  refine (hev.stops hs hi hfits).behind fun v s₁ hv => ?_
  obtain ⟨l, hl⟩ := hev.covers _ _ _ _ _ hv
  obtain ⟨k, hclean⟩ := hev.keeps _ _ _ _ _ _ _ hs hi hfits hl
  exact ⟨l, k, hf v s₁ l k hclean⟩

theorem Traced.all {es : List Expr} (hs : s.Sound Γ) (hi : s.Home Γ scope.index o)
    (hfits : o.Fits (mentionsOfItems es)) :
    Stops Γ (all ev scope (o.exprs es)) (Unfinished.all ev up scope (o.exprs es)) s := by
  induction es generalizing s with
  | nil =>
    rw [Origin.exprs_nil]
    exact .of_ok rfl
  | cons e es ih =>
    rw [Origin.exprs_cons]
    rw [mentionsOfItems] at hfits
    exact hev.behind hs hi hfits.left fun v s₁ l k _ => (ih k.sound (k.home hi) hfits.right).map _

theorem Traced.named {name : String} {e : Expr} (hs : s.Sound Γ) (hi : s.Home Γ scope.index o)
    (hfits : o.Fits e.mentions) : Stops Γ (named ev name scope (o.expr e))
      (Unfinished.named up scope (o.expr e)) s := by
  have hstops := hev.stops hs hi hfits
  generalize o.expr e = x at hstops ⊢
  cases x with
  | arrow params b => exact .of_ok rfl
  | _ => exact hstops

theorem Traced.bindNamed {β : Type} {name : String} {e : Expr} {f : Value → Run β}
    {next : Value → Store → List Unfinished} (hs : s.Sound Γ) (hi : s.Home Γ scope.index o)
    (hfits : o.Fits e.mentions)
    (hf : ∀ v s₁ l, Keeps Γ s s₁ l → v.Clean (s₁.Home Γ) → Stops Γ (f v) (next v) s₁) :
    Stops Γ (Eval.named ev name scope (o.expr e) >>= f) (Eval.behind
      (Eval.named ev name scope (o.expr e)) (Unfinished.named up scope (o.expr e)) next) s := by
  refine (hev.named hs hi hfits).behind fun v s₁ hv => ?_
  obtain ⟨l, hl⟩ := hev.covers.named hv
  obtain ⟨k, hclean⟩ := Named.keeps hev.keeps hs hi hfits hl
  exact ⟨l, k, hf v s₁ l k hclean⟩

theorem Traced.block {ss : List Statement} (hs : s.Sound Γ) (hi : s.Home Γ scope.index o)
    (hfits : o.Fits (mentionsOfStatements ss)) :
    Stops Γ (block ev scope (o.statements ss)) (Unfinished.block ev up scope (o.statements ss))
      s := by
  induction ss generalizing s with
  | nil =>
    rw [Origin.statements_nil]
    exact .of_ok rfl
  | cons st ss ih =>
    rw [Origin.statements_cons]
    rw [mentionsOfStatements] at hfits
    cases st with
    | imports decl =>
      rw [Origin.statement_imports]
      exact .of_still (.fail _) hs rfl
    | const exported name e =>
      rw [Origin.statement_const]
      rw [Statement.mentions] at hfits
      refine hev.bindNamed hs hi hfits.left.tail fun v s₁ l k hv => ?_
      have k' := declare_keeps k.sound (k.home hi) (hfits.left.binder List.mem_cons_self) hv
      exact (ih k'.sound (k'.home (k.home hi)) hfits.right).after k'
    | returns e =>
      rw [Origin.statement_returns]
      rw [Statement.mentions] at hfits
      exact hev.stops hs hi hfits.left
    | returnsNothing =>
      rw [Origin.statement_returnsNothing]
      exact .of_ok rfl
    | expr e =>
      rw [Origin.statement_expr]
      rw [Statement.mentions] at hfits
      exact hev.behind hs hi hfits.left fun v s₁ l k _ => ih k.sound (k.home hi) hfits.right

theorem Traced.bodyOf {b : Body} (hs : s.Sound Γ) (hi : s.Home Γ scope.index o)
    (hfits : o.Fits b.mentions) :
    Stops Γ (bodyOf ev scope (o.body b)) (Unfinished.bodyOf ev up scope (o.body b)) s := by
  cases b with
  | result e =>
    rw [Origin.body_result]
    rw [Body.mentions] at hfits
    exact hev.stops hs hi hfits
  | block ss =>
    rw [Origin.body_block]
    rw [Body.mentions] at hfits
    exact hev.block hs hi hfits

theorem Traced.callFunction {f : Function} {arguments : List Value} (hs : s.Sound Γ)
    (hf : f.Clean (s.Home Γ)) (harguments : ∀ v ∈ arguments, v.Clean (s.Home Γ)) :
    Stops Γ (callFunction ev f arguments) (Unfinished.callFunction ev up f arguments) s := by
  obtain ⟨o, b, hi, hbody, hfits⟩ := hf
  obtain ⟨hsound, hnew⟩ := hs.newScope hi (s.stackOf f.scope)
  have hscope : Keeps Γ s (s.newScope (some f.scope) (s.stackOf f.scope)).2 [] :=
    ⟨hsound, grows_newScope _ _ s, rfl, .nil⟩
  have hclean := fun v hv => hscope.clean (harguments v hv)
  refine Stops.after (x := bindParams ⟨s.scopes.size⟩ f.params arguments >>= fun _ =>
    Eval.bodyOf ev ⟨s.scopes.size⟩ f.body) ?_ hscope
  refine (Stops.of_unstacked (.bindParams _ _ _)
    (bindParams_leaves hsound hnew hclean hfits.left)).behind fun u s₁ hu => ?_
  have hbound := bindParams_keeps hsound hnew hclean hfits.left hu
  rw [hbody]
  exact ⟨[], hbound, hev.bodyOf hbound.sound (hbound.home hnew) hfits.right⟩

theorem Traced.callWith {callee : Value} {arguments : List Value} (hs : s.Sound Γ)
    (hcallee : callee.Clean (s.Home Γ)) (harguments : ∀ v ∈ arguments, v.Clean (s.Home Γ)) :
    Stops Γ (callWith ev callee arguments) (Unfinished.callWith ev up callee arguments) s := by
  cases hcallee with
  | function hf => exact hev.callFunction hs hf harguments
  | _ => exact .of_still (gets_bind_failsStill fun _ => .fail _) hs rfl

theorem Traced.objectFields {fields : Fields} {ps : List Property} (hs : s.Sound Γ)
    (hi : s.Home Γ scope.index o) (hfits : o.Fits (mentionsOfProperties ps)) :
    Stops Γ (objectFields ev scope fields (o.properties ps))
      (Unfinished.objectFields ev up scope fields (o.properties ps)) s := by
  induction ps generalizing s fields with
  | nil =>
    rw [Origin.properties_nil]
    exact .of_ok rfl
  | cons p ps ih =>
    rw [Origin.properties_cons]
    rw [mentionsOfProperties] at hfits
    cases p with
    | entry key e =>
      rw [Origin.property_entry]
      rw [Property.mentions] at hfits
      exact hev.behind hs hi hfits.left fun v s₁ l k _ => ih k.sound (k.home hi) hfits.right
    | shorthand n =>
      rw [Origin.property_shorthand]
      refine (Stops.of_still (nameValue_failsStill scope n) hs rfl).behind fun v s₁ hv => ?_
      cases nameValue_store hv
      exact ⟨[], .refl hs, ih hs hi hfits.right⟩
    | spread e =>
      rw [Origin.property_spread]
      rw [Property.mentions] at hfits
      refine hev.behind hs hi hfits.left fun v s₁ l k _ => ?_
      refine (Stops.of_still (spread_failsStill fields v) k.sound rfl).behind
        fun added s₂ hadded => ?_
      cases spread_store hadded
      exact ⟨[], .refl k.sound, ih k.sound (k.home hi) hfits.right⟩

theorem Traced.attributes {g : Given} {as : List Attribute} (hs : s.Sound Γ)
    (hi : s.Home Γ scope.index o) (hfits : o.Fits (mentionsOfAttributes as)) :
    Stops Γ (attributes ev scope g (o.attrs as))
      (Unfinished.attributes ev up scope g (o.attrs as)) s := by
  induction as generalizing s g with
  | nil =>
    rw [Origin.attrs_nil]
    exact .of_ok rfl
  | cons a as ih =>
    rw [Origin.attrs_cons]
    rw [mentionsOfAttributes] at hfits
    cases a with
    | bare name =>
      rw [Origin.attr_bare]
      exact ih hs hi hfits.right
    | text name raw =>
      rw [Origin.attr_text]
      exact ih hs hi hfits.right
    | value name e =>
      rw [Origin.attr_value]
      rw [Attribute.mentions] at hfits
      exact hev.behind hs hi hfits.left fun v s₁ l k _ => ih k.sound (k.home hi) hfits.right
    | spread e =>
      rw [Origin.attr_spread]
      rw [Attribute.mentions] at hfits
      refine hev.behind hs hi hfits.left fun v s₁ l k _ => ?_
      refine (Stops.of_still (spread_failsStill g.props v) k.sound rfl).behind
        fun props s₂ hprops => ?_
      cases spread_store hprops
      exact ⟨[], .refl k.sound, ih k.sound (k.home hi) hfits.right⟩

end

/-! ## Children -/

/-- If the expression fails, it has changed nothing, and nothing is left unfinished. -/
structure FailsQuietly (ev : Evaluator) (up : Trace) (scope : ScopeId) (e : Expr) : Prop where
  still : (ev scope e).FailsStill
  quiet : ∀ s, up scope e s = []

theorem FailsQuietly.stops {ev : Evaluator} {up : Trace} {e : Expr}
    (h : FailsQuietly ev up scope e) (hs : s.Sound Γ) : Stops Γ (ev scope e) (up scope e) s :=
  .of_still h.still hs (h.quiet s)

/-- Expressions without parts fail quietly. -/
structure Still (ev : Evaluator) (up : Trace) : Prop where
  name : ∀ scope n, FailsQuietly ev up scope (.name n)
  bool : ∀ scope b, FailsQuietly ev up scope (.bool b)
  text : ∀ scope t, FailsQuietly ev up scope (.text t)
  location : ∀ scope p, FailsQuietly ev up scope (.location p)
  helper : ∀ scope x, FailsQuietly ev up scope (.helper x)

/-- What failures of the calls leave that annotation puts in. -/
structure TracedCalls (Γ : Typing) (ev : Evaluator) (up : Trace) : Prop where
  source : ∀ {i : Instance} {span scope s}, s.Sound Γ → s.Home Γ scope.index (.annotated i) →
    0 < i.tally.annotated → 0 < i.tally.wrapped →
      Stops Γ (ev scope (i.site.source span true)) (up scope (i.site.source span true)) s
  child : ∀ {i : Instance} {e span isExpression isLast scope s}, s.Sound Γ →
    s.Home Γ scope.index (.annotated i) → 0 < i.tally.annotated → 0 < i.tally.wrapped →
    (Origin.annotated i).Fits e.mentions →
      Stops Γ (ev scope (i.site.record span (Annotate.expr i.site e) isExpression isLast))
        (up scope (i.site.record span (Annotate.expr i.site e) isExpression isLast)) s

theorem childValues_of_evaluated (ev : Evaluator) {c : Child} {x : Expr}
    (h : c.evaluated? = some x) (cs : List Child) : childValues ev scope (c :: cs) = (do
      let v ← ev scope x
      return v :: (← childValues ev scope cs)) := by
  cases c <;> cases h <;> rfl

theorem leaves_of_not_evaluated {ev : Evaluator} {c : Child} {cs : List Child} {P : Store → Prop}
    (hc : c.evaluated? = none) (h : (childValues ev scope cs).Leaves P s) :
    (childValues ev scope (c :: cs)).Leaves P s := by
  cases c with
  | text t => exact h.map _
  | emptyContainer span => exact h
  | _ => cases hc

theorem contributed_of_evaluated {J : Judgement} {c : Child} {x : Expr} {v : Value}
    {l : List Creation} (h : c.evaluated? = some x) (hx : J scope x s v s' l) :
    Contributed J scope c s (some v) s' l := by
  cases c with
  | container e span =>
    cases h
    exact .container hx
  | element e =>
    cases h
    exact .element hx
  | _ => cases h

theorem exists_contributed (J : Judgement) (scope : ScopeId) {c : Child}
    (h : c.evaluated? = none) (s : Store) : ∃ w, Contributed J scope c s w s [] := by
  cases c with
  | text t =>
    by_cases hempty : t.cooked = ""
    · exact ⟨_, .hidden hempty⟩
    · exact ⟨_, .text hempty⟩
  | emptyContainer span => exact ⟨_, .emptyContainer⟩
  | _ => cases h

section

variable {ev : Evaluator} {up : Trace} {J : Judgement} (hev : Traced Γ ev up J)
  (hcalls : TracedCalls Γ ev up)
include hev hcalls

/-- What is evaluated for a child, recorded or not. -/
theorem Traced.child {c : Child} {records isLast : Bool} {x : Expr} (hs : s.Sound Γ)
    (hi : s.Home Γ scope.index o) (hfits : o.Fits c.mentions)
    (hcount : ∀ i, o = .annotated i → records = true →
      0 < i.tally.annotated ∧ 0 < i.tally.wrapped)
    (hx : (o.child records isLast c).evaluated? = some x) :
    Stops Γ (ev scope x) (up scope x) s := by
  have hdirect : ∀ e : Expr, o.Fits e.mentions → x = o.expr e →
      Stops Γ (ev scope x) (up scope x) s := by
    rintro e he rfl
    exact hev.stops hs hi he
  have hrecorded : ∀ (i : Instance) (e : Expr) (span : Text.Span) (isExpression : Bool),
      o = .annotated i → records = true → o.Fits e.mentions →
      x = i.site.record span (Annotate.expr i.site e) isExpression isLast →
      Stops Γ (ev scope x) (up scope x) s := by
    rintro i e span isExpression rfl hrecords he rfl
    obtain ⟨ha, hw⟩ := hcount i rfl hrecords
    exact hcalls.child hs hi ha hw he
  cases c with
  | emptyContainer span =>
    rw [Origin.child_emptyContainer] at hx
    cases hx
  | element e =>
    rw [Origin.child_element] at hx
    cases hx
    rw [Child.mentions] at hfits
    refine hdirect (.markup e) ?_ (Origin.expr_markup o e).symm
    rw [Expr.mentions]
    exact hfits
  | container e span =>
    rw [Child.mentions] at hfits
    cases records with
    | false =>
      rw [Origin.child_container_unrecorded] at hx
      cases hx
      exact hdirect e hfits rfl
    | true =>
      cases o with
      | plain => exact hdirect e hfits (Option.some.inj hx).symm
      | annotated i =>
        cases hx
        exact hrecorded i e span true rfl rfl hfits rfl
  | text t =>
    cases records with
    | false =>
      rw [Origin.child_text_unrecorded] at hx
      cases hx
    | true =>
      cases o with
      | plain => cases hx
      | annotated i =>
        rw [Origin.child, Annotate.child] at hx
        split_ifs at hx
        · cases hx
          refine hrecorded i (.text t.cooked) t.trimmedSpan false rfl rfl ?_ rfl
          rw [Expr.mentions]
          exact hfits.mono (List.nil_subset _)
        · cases hx

/-- The children of an element that are left. The one that fails leaves the element unfinished. -/
theorem Traced.childValues (hreg : Regular J) (hrec : Records Γ J) {e : Element}
    {source : Option Value} {b : Store} {done left : List Child}
    (h : Underway Γ scope o e source b left s) (he : o.Fits e.mentions)
    (hleft : o.Fits (mentionsOfChildren left)) (hcontent : e.content.toList = done ++ left) :
    (childValues ev scope (o.children (o.records e) left)).Leaves
      (Abandons Γ b (Unfinished.childValues ev up scope (o.element e) source
        (o.children (o.records e) left) s)) s := by
  induction left generalizing s done with
  | nil =>
    rw [Origin.children_nil]
    exact .pure _ _
  | cons c cs ih =>
    have hcode := Origin.children_cons o (o.records e) c cs
    rw [hcode]
    rw [mentionsOfChildren] at hleft
    have hcontent' : e.content.toList = (done ++ [c]) ++ cs := by
      rw [hcontent, List.append_assoc, List.singleton_append]
    have hrest : ∀ {s₁ w l}, Contributed J scope
        (o.child (o.records e) (!cs.any Child.isWrappable) c) s w s₁ l →
        (Eval.childValues ev scope (o.children (o.records e) cs)).Leaves
          (Abandons Γ b (Unfinished.childValues ev up scope (o.element e) source
            (o.children (o.records e) cs) s₁)) s₁ := fun hw =>
      ih (h.next hev.keeps hreg hrec he hleft.left hw) hleft.right hcontent'
    generalize hc : o.child (o.records e) (!cs.any Child.isWrappable) c = code at hcode hrest ⊢
    rw [Unfinished.childValues]
    cases hx : code.evaluated? with
    | none =>
      obtain ⟨w, hw⟩ := exists_contributed J scope hx s
      exact leaves_of_not_evaluated hx (hrest hw)
    | some x =>
      have hstops := hev.child hcalls h.sound h.home hleft.left
        (fun i ho hrecords => by subst ho; exact he.counts_of_records hrecords) (hc ▸ hx)
      rw [childValues_of_evaluated ev hx]
      refine leaves_behind (hstops.imp fun s' hs' => ?_) fun v s₁ hv => ?_
      · rw [← hcode]
        exact h.abandons he hcontent hs'
      · obtain ⟨l, hl⟩ := hev.covers _ _ _ _ _ hv
        exact (hrest (contributed_of_evaluated hx hl)).map _

/-! ## Elements -/

variable (hstill : Still ev up)
include hstill

/-- The attributes that annotation adds. -/
theorem Traced.added {g : Given} {e : Element} (hs : s.Sound Γ) (hi : s.Home Γ scope.index o)
    (hfits : o.Fits e.mentions) : Stops Γ (Eval.attributes ev scope g (o.added e))
      (Unfinished.attributes ev up scope g (o.added e)) s := by
  cases o with
  | plain => exact .of_ok rfl
  | annotated i =>
    have hsource : ∀ {g : Given} {s : Store}, s.Sound Γ → s.Home Γ scope.index (.annotated i) →
        ∀ as, as = (if e.hasAttribute sourceAttribute then []
          else [.value sourceAttribute (i.site.source e.span (recordsChildren e))]) →
        Stops Γ (Eval.attributes ev scope g as) (Unfinished.attributes ev up scope g as) s := by
      rintro g s hs hi as rfl
      split_ifs with huser
      · exact .of_ok rfl
      · have hcount : 0 < i.tally.annotated ∧ (recordsChildren e = true → 0 < i.tally.wrapped) := by
          refine hfits.counts (recordsChildren e) ?_
          rw [Element.mentions_eq, if_neg huser]
          simp
        refine leaves_behind ?_ fun v s₁ _ => .pure _ _
        cases hrecords : recordsChildren e with
        | true => exact hcalls.source hs hi hcount.1 (hcount.2 hrecords)
        | false =>
          rw [Site.source, if_neg Bool.false_ne_true]
          exact (hstill.location scope _).stops hs
    rw [Origin.added, addedAttributes]
    by_cases hself : e.hasAttribute selfAttribute = true
    · rw [if_pos hself]
      exact hsource hs hi _ (List.nil_append _)
    · rw [if_neg hself]
      have hthis : (Origin.annotated i).Fits Expr.this.mentions := by
        rw [Expr.mentions]
        exact hfits.mono (List.nil_subset _)
      rw [List.singleton_append, Eval.attributes, Unfinished.attributes,
        ← Origin.expr_this (.annotated i)]
      exact hev.behind hs hi hthis fun v s₁ l k _ => hsource k.sound (k.home hi) _ rfl

theorem Traced.createElement (hreg : Regular J) (hrec : Records Γ J) {e : Element}
    (hs : s.Sound Γ) (hi : s.Home Γ scope.index o) (hfits : o.Fits e.mentions) :
    Stops Γ (createElement ev scope (o.element e))
      (Unfinished.createElement ev up scope (o.element e)) s := by
  have hparts := hfits
  rw [Element.mentions_eq] at hparts
  have hempty : Given.Clean (s.Home Γ) ⟨[], none, none⟩ := ⟨by simp, nofun, nofun⟩
  unfold Eval.createElement Unfinished.createElement
  rw [Origin.element_name, Origin.element_attributes, Origin.element_content,
    Eval.attributes_append, Unfinished.attributes_append]
  refine (Stops.of_still (elementType_failsStill scope e.name) hs rfl).behind
    fun type s₁ htype => ?_
  cases elementType_store htype
  refine ⟨[], .refl hs, ?_⟩
  rw [Attempt.bind_assoc, behind_bind]
  refine (hev.attributes hs hi hparts.right.right.left).behind fun g sa hg => ?_
  obtain ⟨la, hla⟩ := hev.covers.attributes hg
  obtain ⟨ka, -⟩ := Attributes.keeps hev.keeps hs hi hparts.right.right.left hempty hla
  refine ⟨la, ka, leaves_behind (hev.added hcalls hstill ka.sound (ka.home hi) hfits)
    fun g' s₁ hg' => ?_⟩
  obtain ⟨lb, hlb⟩ := hev.covers.attributes hg'
  obtain ⟨-, -, -, hcase⟩ := Attributes.added hreg hrec ka.sound (ka.home hi) hfits hlb
  have hunderway : Underway Γ scope o e g'.source sa e.content.toList s₁ := by
    rcases hcase with ⟨-, rfl, hrecords, -⟩ | ⟨i, rfl, huser, hsource, rfl⟩
    · exact .of_not_records ka.sound (ka.home hi) hrecords
    · exact .of_attributed ka.sound (ka.home hi) huser hsource
  refine (hev.childValues hcalls hreg hrec hunderway hfits hparts.right.right.right
    (List.nil_append _).symm).bind fun vs s₂ _ => ?_
  -- Nothing can fail behind the children.
  obtain ⟨props, s₃, hprops⟩ : ∃ props s₃, withChildren g'.props vs s₂ = (.ok props, s₃) := by
    match vs with
    | [] => exact ⟨_, _, rfl⟩
    | [_] => exact ⟨_, _, rfl⟩
    | _ :: _ :: _ => exact ⟨_, _, rfl⟩
  exact (Attempt.Leaves.of_ok hprops).bind fun _ _ _ => .of_ok rfl

/-! ## Evaluation to a depth -/

theorem Traced.step (hreg : Regular J) (hrec : Records Γ J) :
    Traced Γ (step ev) (Unfinished.step ev up) (Steps J) where
  covers := hev.covers.steps
  keeps := Steps.keeps hev.keeps hreg hrec
  stops := by
    intro o scope e s hs hi hfits
    cases e with
    | text t =>
      rw [Origin.expr_text]
      exact .of_ok rfl
    | number n =>
      rw [Origin.expr_number]
      exact .of_ok rfl
    | bool b =>
      rw [Origin.expr_bool]
      exact .of_ok rfl
    | null =>
      rw [Origin.expr_null]
      exact .of_ok rfl
    | this =>
      rw [Origin.expr_this]
      exact .of_ok rfl
    | name n =>
      rw [Origin.expr_name]
      exact .of_still (nameValue_failsStill scope n) hs rfl
    | member e p =>
      rw [Origin.expr_member]
      rw [Expr.mentions] at hfits
      exact hev.behind hs hi hfits.tail fun v s₁ l k _ =>
        .of_still (property_failsStill p v) k.sound rfl
    | call callee arguments =>
      rw [Origin.expr_call]
      rw [Expr.mentions] at hfits
      refine hev.behind hs hi hfits.left fun f s₁ l k hf => ?_
      refine (hev.all k.sound (k.home hi) hfits.right).behind fun vs s₂ hvs => ?_
      obtain ⟨l', hl'⟩ := hev.covers.items hvs
      obtain ⟨k', hvs⟩ := Items.keeps hev.keeps k.sound (k.home hi) hfits.right hl'
      exact ⟨l', k', hev.callWith k'.sound (k'.clean hf) hvs⟩
    | arrow params b =>
      rw [Origin.expr_arrow]
      exact .of_ok rfl
    | object ps =>
      rw [Origin.expr_object]
      rw [Expr.mentions] at hfits
      exact (hev.objectFields hs hi hfits).bind fun fields s₁ _ => .of_ok rfl
    | array items =>
      rw [Origin.expr_array]
      rw [Expr.mentions] at hfits
      exact (hev.all hs hi hfits).bind fun vs s₁ _ => .of_ok rfl
    | paren e =>
      rw [Origin.expr_paren]
      rw [Expr.mentions] at hfits
      exact hev.stops hs hi hfits
    | markup e =>
      rw [Origin.expr_markup]
      rw [Expr.mentions] at hfits
      exact hev.createElement hcalls hstill hreg hrec hs hi hfits
    | location literal =>
      rw [Expr.mentions] at hfits
      exact absurd List.mem_cons_self hfits.written
    | helper x =>
      rw [Expr.mentions] at hfits
      exact absurd List.mem_cons_self hfits.written

omit hcalls

/-- A call of a name that an annotated module declares as a builtin, which only fails if one of its
arguments does, or if the name is that of the undefined value. -/
theorem Traced.callDeclared {n : String} {b : Builtin} {arguments : List Expr} (hreg : Regular J)
    (hlookup : s.lookup n scope = some (.builtin b))
    (harguments : Stops Γ (Eval.all ev scope arguments) (Unfinished.all ev up scope arguments) s)
    (hkeeps : ∀ vs s₁ l, Items J scope arguments s vs s₁ l → ∃ l, Keeps Γ s s₁ l) (hs : s.Sound Γ) :
    Stops Γ (Eval.step ev scope (.call (.name n) arguments))
      (Unfinished.step ev up scope (.call (.name n) arguments)) s := by
  refine ((hstill.name scope n).stops hs).behind fun f s₁ hf => ?_
  obtain ⟨l, hl⟩ := hev.covers _ _ _ _ _ hf
  obtain ⟨hname, rfl, -⟩ := hreg.name hl
  refine ⟨[], .refl hs, harguments.behind fun vs s₂ hvs => ?_⟩
  obtain ⟨l', hl'⟩ := hev.covers.items hvs
  obtain ⟨l'', k⟩ := hkeeps vs s₂ l' hl'
  refine ⟨l'', k, ?_⟩
  rcases builtin_of_nameValue hlookup hname with rfl | rfl
  · obtain ⟨v, s₃, hv⟩ := exists_callBuiltin b vs s₂
    exact .of_ok hv
  · exact .of_still (gets_bind_failsStill fun _ => .fail _) k.sound rfl

theorem Traced.calls (hreg : Regular J) :
    TracedCalls Γ (Eval.step ev) (Unfinished.step ev up) where
  source := by
    intro i span scope s hs hi ha hw
    refine hev.callDeclared hstill hreg (hs.lookup_recordParent hi hw) ?_ ?_ hs
    · refine leaves_behind ?_ fun v s₁ _ => .pure _ _
      exact (hstill.location scope _).stops hs
    · intro vs s₁ l h
      cases h with
      | cons head tail =>
        obtain ⟨rfl, rfl, rfl⟩ := hreg.location head
        cases tail
        rw [locationOf_site hs hi ha]
        exact ⟨[], newRecord_keeps hs (i.place span)⟩
  child := by
    intro i e span isExpression isLast scope s hs hi ha hw hfits
    have hrecord := newRecord_keeps hs (i.place span)
    refine hev.callDeclared hstill hreg (hs.lookup_recordExpression hi hw) ?_ ?_ hs
    · rw [Eval.all, Unfinished.all]
      refine ((hstill.location scope _).stops hs).behind
        fun v s₁ hv => ?_
      obtain ⟨l, hl⟩ := hev.covers _ _ _ _ _ hv
      obtain ⟨rfl, rfl, rfl⟩ := hreg.location hl
      rw [locationOf_site hs hi ha]
      refine ⟨[], hrecord, Attempt.Leaves.map ?_ _⟩
      rw [Eval.all, Unfinished.all]
      refine hev.behind (o := .annotated i) hrecord.sound (hrecord.home hi) hfits
        fun v s₁ l k _ => Attempt.Leaves.map ?_ _
      -- What is left are the two flags.
      rw [Eval.all, Unfinished.all]
      refine ((hstill.bool scope _).stops k.sound).behind
        fun v s₂ hv => ?_
      obtain ⟨l', hl'⟩ := hev.covers _ _ _ _ _ hv
      obtain ⟨-, rfl, -⟩ := hreg.bool hl'
      refine ⟨[], .refl k.sound, Attempt.Leaves.map ?_ _⟩
      refine leaves_behind ?_ fun v s₃ _ => .pure _ _
      exact (hstill.bool scope _).stops k.sound
    · intro vs s₁ l h
      cases h with
      | cons head tail =>
        obtain ⟨rfl, rfl, rfl⟩ := hreg.location head
        rw [locationOf_site hs hi ha] at tail
        cases tail with
        | cons value flags =>
          obtain ⟨k, -⟩ := hev.keeps (.annotated i) _ _ _ _ _ _ hrecord.sound
            (hrecord.home hi) hfits value
          cases flags with
          | cons kind last =>
            obtain ⟨-, rfl, -⟩ := hreg.bool kind
            cases last with
            | cons last none =>
              obtain ⟨-, rfl, -⟩ := hreg.bool last
              cases none
              exact ⟨_, hrecord.trans k⟩

end

theorem still_eval (n : Nat) : Still (eval n) (Unfinished.eval n) := by
  cases n with
  | zero => constructor <;> exact fun _ _ => ⟨.fail _, fun _ => rfl⟩
  | succ n =>
    constructor
    · exact fun scope n => ⟨nameValue_failsStill scope n, fun _ => rfl⟩
    · exact fun _ b => ⟨.pure _, fun _ => rfl⟩
    · exact fun _ t => ⟨.pure _, fun _ => rfl⟩
    · exact fun _ p => ⟨fun s => .of_ok rfl, fun _ => rfl⟩
    · exact fun scope x => ⟨helper_failsStill scope x, fun _ => rfl⟩

/-- By induction on the depth, along with what successes do. -/
theorem traced_eval (Γ : Typing) (n : Nat) :
    Traced Γ (eval n) (Unfinished.eval n) (Derives n) ∧
      TracedCalls Γ (eval n) (Unfinished.eval n) := by
  induction n with
  | zero =>
    have hstops : ∀ scope e s, s.Sound Γ → Stops Γ (eval 0 scope e) (Unfinished.eval 0 scope e) s :=
      fun scope e s hs => .of_still (.fail _) hs rfl
    exact ⟨⟨covers_eval 0, (derives_keeps Γ 0).1, fun hs _ _ => hstops _ _ _ hs⟩,
      ⟨fun hs _ _ _ => hstops _ _ _ hs, fun hs _ _ _ _ => hstops _ _ _ hs⟩⟩
  | succ n ih =>
    obtain ⟨hev, hcalls⟩ := ih
    have hreg := regular_derives n
    exact ⟨hev.step hcalls (still_eval n) hreg (derives_keeps Γ n).2, hev.calls (still_eval n) hreg⟩

end Eval

end MarkupTrace
