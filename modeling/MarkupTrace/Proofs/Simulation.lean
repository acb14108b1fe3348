import MarkupTrace.Proofs.AlikeStores
import MarkupTrace.Proofs.AttributedElements

/-!
# Two runs of the same code

Code is evaluated twice, in alike stores: as it comes from one origin and as it comes from another.
If the first evaluation ends and the second is allowed a bit more than twice the depth, then both
end alike. The calls that annotation puts around children are one level deep, so that a level on one
side takes at most two on the other.
-/

namespace MarkupTrace

open Source Annotate Store

/-- How the result of one run is matched by that of another: unless the first was exhausted, they
fail with the same error or they succeed with results and states in a relation. -/
inductive Matches {σ τ ε α β : Type} (P : α → β → σ → τ → Prop) :
    Except (Stop ε) α × σ → Except (Stop ε) β × τ → Prop
  | exhausted (s : σ) (y : Except (Stop ε) β × τ) : Matches P (.error .exhausted, s) y
  | error (e : ε) (s : σ) (t : τ) : Matches P (.error (.error e), s) (.error (.error e), t)
  | ok {a : α} {b : β} {s : σ} {t : τ} (h : P a b s t) : Matches P (.ok a, s) (.ok b, t)

namespace Matches

variable {σ τ ε α β γ δ : Type} {P : α → β → σ → τ → Prop} {Q : γ → δ → σ → τ → Prop}

theorem imp {P' : α → β → σ → τ → Prop} {x : Except (Stop ε) α × σ} {y : Except (Stop ε) β × τ}
    (h : Matches P x y) (hP : ∀ a b s t, P a b s t → P' a b s t) : Matches P' x y := by
  cases h with
  | exhausted s y => exact .exhausted s y
  | error e s t => exact .error e s t
  | ok h => exact .ok (hP _ _ _ _ h)

/-- Sequences match if their parts do; of the first parts it may be used how they ended. -/
theorem bind {x : Attempt σ (Stop ε) α} {y : Attempt τ (Stop ε) β} {f : α → Attempt σ (Stop ε) γ}
    {g : β → Attempt τ (Stop ε) δ} {s : σ} {t : τ} (h : Matches P (x s) (y t))
    (hfg : ∀ a b s' t', P a b s' t' → x s = (.ok a, s') → y t = (.ok b, t') →
      Matches Q (f a s') (g b t')) : Matches Q ((x >>= f) s) ((y >>= g) t) := by
  rw [Attempt.bind_apply, Attempt.bind_apply]
  generalize hx : x s = p at h
  generalize hy : y t = q at h
  cases h with
  | exhausted s q => exact .exhausted s _
  | error e s t => exact .error e s t
  | ok h => exact hfg _ _ _ _ h hx hy

end Matches

namespace Comparison

def SimilarItems (C : Comparison) (s t : Store) : List Value → List Value → Prop :=
  List.Forall₂ (C.Similar s t)

def SimilarFields (C : Comparison) (s t : Store) : Fields → Fields → Prop :=
  Keyed.Related (C.Similar s t)

/-- Of runs that give nothing. -/
def Nothing (_ : Comparison) (_ _ : Store) (_ _ : Unit) : Prop := True

end Comparison

/-- Both runs went on from `s` and `t` and have related results. -/
def Ends {α β : Type} (C : Comparison) (R : Store → Store → α → β → Prop) (s t : Store) (a : α)
    (b : β) (s' t' : Store) : Prop :=
  Onward C s t s' t' ∧ R s' t' a b

theorem Matches.after {α β : Type} {C : Comparison} {R : Store → Store → α → β → Prop}
    {s t s' t' : Store} {x : Except (Stop EvalError) α × Store}
    {y : Except (Stop EvalError) β × Store} (h : Matches (Ends C R s' t') x y)
    (ho : Onward C s t s' t') : Matches (Ends C R s t) x y :=
  h.imp fun _ _ _ _ hend => ⟨ho.trans hend.1, hend.2⟩

namespace Annotate.Shared

variable {o₁ o₂ : Origin} {xs : List Mention} {n : String}

theorem identifier (h : Shared o₁ o₂ xs) (hn : .identifier n ∈ xs) :
    n ∉ o₁.hidden ∧ n ∉ o₂.hidden := ⟨h.left.fits.identifier hn, h.right.fits.identifier hn⟩

theorem binder (h : Shared o₁ o₂ xs) (hn : .binder n ∈ xs) : n ∉ o₁.hidden ∧ n ∉ o₂.hidden :=
  ⟨h.left.fits.binder hn, h.right.fits.binder hn⟩

theorem shorthand (h : Shared o₁ o₂ xs) (hn : .shorthand n ∈ xs) :
    n ∉ o₁.hidden ∧ n ∉ o₂.hidden := ⟨h.left.fits.shorthand hn, h.right.fits.shorthand hn⟩

theorem tag (h : Shared o₁ o₂ xs) (hn : .tag n ∈ xs) : n ∉ o₁.hidden ∧ n ∉ o₂.hidden :=
  ⟨h.left.tags n hn, h.right.tags n hn⟩

end Annotate.Shared

namespace Eval

variable {C : Comparison} {o₁ o₂ : Origin} {scope : ScopeId} {s t : Store} {v w : Value}

/-! ## Steps without evaluation -/

theorem property_matches (h : Alike C s t) (hv : C.Similar s t v w) {p : String}
    (hp : p ≠ "_self" ∧ p ≠ "_source") :
    Matches (Ends C C.Similar s t) (Run.property p v s) (Run.property p w t) := by
  have hrel := Value.Similar.get? hv hp.1 hp.2
  unfold Run.property
  rw [Value.Similar.typeName_eq hv]
  generalize v.get? p = a at hrel
  generalize w.get? p = b at hrel
  cases hrel with
  | none => exact .error _ s t
  | some hab => exact .ok ⟨h.refl, hab⟩

theorem lookup_apply (n : String) (scope : ScopeId) (s : Store) :
    Run.lookup n scope s = match s.lookup n scope with
      | some v => (.ok v, s)
      | none => (.error (.error (.undefinedVariable n)), s) := by
  unfold Run.lookup
  rw [Attempt.bind_ok (show Attempt.gets _ s = (.ok (s.lookup n scope), s) from rfl)]
  cases s.lookup n scope <;> rfl

theorem lookup_matches (h : Placed C o₁ o₂ scope s t) {n : String}
    (hn : n ∉ o₁.hidden ∧ n ∉ o₂.hidden) :
    Matches (Ends C C.Similar s t) (Run.lookup n scope s) (Run.lookup n scope t) := by
  have hrel := h.alike.lookup h.left h.right hn.1 hn.2
  rw [lookup_apply, lookup_apply, Store.lookup, Store.lookup]
  generalize s.lookupFrom n scope.index = a at hrel
  generalize t.lookupFrom n scope.index = b at hrel
  cases hrel with
  | none => exact .error _ s t
  | some hab => exact .ok ⟨h.alike.refl, hab⟩

theorem nameValue_matches (h : Placed C o₁ o₂ scope s t) {n : String}
    (hn : n ∉ o₁.hidden ∧ n ∉ o₂.hidden) :
    Matches (Ends C C.Similar s t) (nameValue scope n s) (nameValue scope n t) := by
  unfold nameValue
  split_ifs
  · exact .ok ⟨h.alike.refl, .undefined⟩
  · exact lookup_matches h hn

theorem spread_matches (h : Alike C s t) {fs gs : Fields} (hfs : C.SimilarFields s t fs gs)
    (hv : C.Similar s t v w) :
    Matches (Ends C C.SimilarFields s t) (Run.spread fs v s) (Run.spread gs w t) := by
  cases hv with
  | undefined => exact .ok ⟨h.refl, hfs⟩
  | null => exact .ok ⟨h.refl, hfs⟩
  | object identity length keys values =>
    exact .ok ⟨h.refl, hfs.extend (Keyed.related_iff_zip.mpr ⟨length, keys, values⟩)⟩
  | _ => exact .error _ s t

theorem array_matches (h : Alike C s t) {vs ws : List Value} (hvs : C.SimilarItems s t vs ws) :
    Matches (Ends C C.Similar s t) (Run.array vs s) (Run.array ws t) := by
  have ho := h.identity
  have hv := Value.Similar.ofItems s.next (ho.items hvs)
  have hsame : Value.array s.next ws = .array t.next ws := by rw [h.next]
  exact .ok ⟨ho, hsame ▸ hv⟩

theorem object_matches (h : Alike C s t) {fs gs : Fields} (hfs : C.SimilarFields s t fs gs) :
    Matches (Ends C C.Similar s t) (Run.object fs s) (Run.object gs t) := by
  have ho := h.identity
  have hv := Value.Similar.ofFields s.next (ho.fields hfs)
  have hsame : Value.object s.next gs = .object t.next gs := by rw [h.next]
  exact .ok ⟨ho, hsame ▸ hv⟩

theorem declare_matches (h : Placed C o₁ o₂ scope s t) {n : String}
    (hn : n ∉ o₁.hidden ∧ n ∉ o₂.hidden) (hv : C.Similar s t v w) :
    Matches (Ends C C.Nothing s t) (Run.declare scope n v s)
      (Run.declare scope n w t) :=
  .ok ⟨Alike.declare h hn.1 hn.2 hv, trivial⟩

theorem bindProperties_matches (h : Placed C o₁ o₂ scope s t) {names : List String}
    (hnames : Shared o₁ o₂ (names.flatMap fun n => [.binder n, .property n]))
    (hv : C.Similar s t v w) :
    Matches (Ends C C.Nothing s t) (bindProperties scope v names s)
      (bindProperties scope w names t) := by
  induction names generalizing s t with
  | nil => exact .ok ⟨h.alike.refl, trivial⟩
  | cons n names ih =>
    rw [List.flatMap_cons] at hnames
    have hbinder := hnames.front.binder (n := n) (by simp)
    have hdiscreet := hnames.front.discreet n (by simp)
    refine (property_matches h.alike hv hdiscreet).bind ?_
    rintro a b s₁ t₁ ⟨ho₁, hab⟩ - -
    refine (declare_matches (h.onward ho₁) hbinder hab).bind ?_
    rintro - - s₂ t₂ ⟨ho₂, -⟩ - -
    have ho := ho₁.trans ho₂
    exact (ih (h.onward ho) hnames.back (hv.onward ho)).after ho

theorem bindParams_matches (h : Placed C o₁ o₂ scope s t) {params : List Param}
    (hparams : Shared o₁ o₂ (params.flatMap Param.mentions)) {vs ws : List Value}
    (hvs : C.SimilarItems s t vs ws) :
    Matches (Ends C C.Nothing s t) (bindParams scope params vs s)
      (bindParams scope params ws t) := by
  induction params generalizing s t vs ws with
  | nil => exact .ok ⟨h.alike.refl, trivial⟩
  | cons p params ih =>
    rw [List.flatMap_cons] at hparams
    have hfirst : C.Similar s t (vs.headD .undefined) (ws.headD .undefined) := by
      cases hvs with
      | nil => exact .undefined
      | cons hv _ => exact hv
    have htail : C.SimilarItems s t vs.tail ws.tail := by
      cases hvs with
      | nil => exact .nil
      | cons _ hvs => exact hvs
    have hrest : ∀ s' t', Onward C s t s' t' → Matches (Ends C C.Nothing s t)
        (bindParams scope params vs.tail s') (bindParams scope params ws.tail t') := fun s' t' ho =>
      (ih (h.onward ho) hparams.back (ho.items htail)).after ho
    cases p with
    | name n =>
      refine (declare_matches h (hparams.front.binder List.mem_cons_self) hfirst).bind ?_
      exact fun _ _ s' t' hend _ _ => hrest s' t' hend.1
    | properties names =>
      refine (bindProperties_matches h hparams.front hfirst).bind ?_
      exact fun _ _ s' t' hend _ _ => hrest s' t' hend.1

theorem follow_matches (h : Alike C s t) (hv : C.Similar s t v w) {names : List String}
    (hnames : ∀ n ∈ names, n ≠ "_self" ∧ n ≠ "_source") :
    Matches (Ends C C.Similar s t) (follow v names s) (follow w names t) := by
  induction names generalizing s t v w with
  | nil => exact .ok ⟨h.refl, hv⟩
  | cons n names ih =>
    rw [List.forall_mem_cons] at hnames
    refine (property_matches h hv hnames.1).bind ?_
    rintro a b s' t' ⟨ho, hab⟩ - -
    exact (ih ho.alike hab hnames.2).after ho

/-- Types of elements. -/
def SimilarType (C : Comparison) (s t : Store) : ElementType → ElementType → Prop :=
  ElementType.Similar (s.Home C.left) (t.Home C.right)

theorem elementType_matches (h : Placed C o₁ o₂ scope s t) {name : String}
    (hname : Shared o₁ o₂ (mentionsOfTag name)) :
    Matches (Ends C (SimilarType C) s t) (elementType scope name s) (elementType scope name t) := by
  unfold mentionsOfTag at hname
  unfold elementType
  split_ifs with hhost
  · exact .ok ⟨h.alike.refl, .host name⟩
  · rw [if_neg hhost] at hname
    cases hsegments : segments name with
    | nil => exact .error _ s t
    | cons first rest =>
      rw [hsegments] at hname
      have hrest : ∀ n ∈ rest, n ≠ "_self" ∧ n ≠ "_source" := fun n hn =>
        hname.discreet n (List.mem_cons_of_mem _ (List.mem_map_of_mem hn))
      refine (lookup_matches h (hname.tag List.mem_cons_self)).bind ?_
      rintro a b s₁ t₁ ⟨ho₁, hab⟩ - -
      refine (follow_matches ho₁.alike hab hrest).bind ?_
      rintro c d s₂ t₂ ⟨ho₂, hcd⟩ - -
      have htype := Value.Similar.typeName_eq hcd
      cases hcd with
      | function hf => exact .ok ⟨ho₁.trans ho₂, .component hf⟩
      | _ => exact .error _ _ _

theorem closure_matches (h : Placed C o₁ o₂ scope s t) {name : Option String} {params : List Param}
    {b : Body} (hb : Shared o₁ o₂ (params.flatMap Param.mentions ++ b.mentions)) :
    Matches (Ends C C.Similar s t) (Run.closure name params (o₁.body b) scope s)
      (Run.closure name params (o₂.body b) scope t) := by
  have ho := h.alike.identity
  refine .ok ⟨ho, .function ⟨h.alike.next, rfl, rfl, rfl, o₁, o₂, b, ?_, ?_, rfl, rfl, hb⟩⟩
  · exact ho.left _ _ h.left
  · exact ho.right _ _ h.right

/-! ## Steps that evaluate -/

/-- Values that cannot be called are shown in the error. -/
theorem callWith_eq_notCallable (ev : Evaluator) {v : Value} (hf : ∀ f, v ≠ .function f)
    (hb : ∀ b, v ≠ .builtin b) (vs : List Value) (s : Store) :
    callWith ev v vs s = (.error (.error (.notCallable (v.inspect s))), s) := by
  cases v with
  | function f => exact absurd rfl (hf f)
  | builtin b => exact absurd rfl (hb b)
  | _ => rfl

/-- What is known of the attributes of an element on both sides. -/
structure Given.Similar (C : Comparison) (s t : Store) (g g' : Given) : Prop where
  props : C.SimilarFields s t g.props g'.props
  left : g.Clean (s.Home C.left)
  right : g'.Clean (t.Home C.right)

theorem Given.Similar.onward {g g' : Given} {s' t' : Store} (h : Given.Similar C s t g g')
    (ho : Onward C s t s' t') : Given.Similar C s' t' g g' :=
  ⟨ho.fields h.props, h.left.mono ho.left, h.right.mono ho.right⟩

theorem Given.Similar.take {g g' : Given} (h : Given.Similar C s t g g') (hv : C.Similar s t v w)
    (name : String) : Given.Similar C s t (g.take name v) (g'.take name w) := by
  refine ⟨?_, h.left.take (Value.Similar.clean hv) name,
    h.right.take (Value.Similar.clean (Value.Similar.symm hv)) name⟩
  unfold Given.take
  split_ifs
  · exact h.props
  · exact h.props
  · exact h.props.insert name hv

/-- Evaluation of shared code in places of its origins. -/
def Follows (C : Comparison) (ev₁ ev₂ : Evaluator) : Prop :=
  ∀ (o₁ o₂ : Origin) (scope : ScopeId) (e : Expr) (s t : Store), Placed C o₁ o₂ scope s t →
    Shared o₁ o₂ e.mentions →
      Matches (Ends C C.Similar s t) (ev₁ scope (o₁.expr e) s) (ev₂ scope (o₂.expr e) t)

namespace Follows

variable {ev₁ ev₂ : Evaluator} (hev : Follows C ev₁ ev₂)
include hev

theorem all {es : List Expr} (h : Placed C o₁ o₂ scope s t)
    (hes : Shared o₁ o₂ (mentionsOfItems es)) : Matches (Ends C C.SimilarItems s t)
      (all ev₁ scope (o₁.exprs es) s) (all ev₂ scope (o₂.exprs es) t) := by
  induction es generalizing s t with
  | nil =>
    rw [Origin.exprs_nil, Origin.exprs_nil]
    exact .ok ⟨h.alike.refl, .nil⟩
  | cons e es ih =>
    rw [mentionsOfItems] at hes
    rw [Origin.exprs_cons, Origin.exprs_cons]
    refine (hev _ _ _ _ _ _ h hes.front).bind ?_
    rintro v w s₁ t₁ ⟨ho₁, hv⟩ - -
    refine (ih (h.onward ho₁) hes.back).bind ?_
    rintro vs ws s₂ t₂ ⟨ho₂, hvs⟩ - -
    exact .ok ⟨ho₁.trans ho₂, .cons (hv.onward ho₂) hvs⟩

theorem named {name : String} {e : Expr} (h : Placed C o₁ o₂ scope s t)
    (he : Shared o₁ o₂ e.mentions) : Matches (Ends C C.Similar s t)
      (named ev₁ name scope (o₁.expr e) s) (named ev₂ name scope (o₂.expr e) t) := by
  have hsame : (∀ params b, e ≠ .arrow params b) → ∀ (o : Origin) (ev : Evaluator),
      Eval.named ev name scope (o.expr e) = ev scope (o.expr e) := by
    intro hne o ev
    cases e <;> simp [Eval.named] at hne ⊢
  cases e with
  | arrow params b =>
    rw [Expr.mentions] at he
    rw [Origin.expr_arrow, Origin.expr_arrow]
    exact closure_matches h he
  | _ =>
    rw [hsame (by simp), hsame (by simp)]
    exact hev _ _ _ _ _ _ h he

theorem block {ss : List Statement} (h : Placed C o₁ o₂ scope s t)
    (hss : Shared o₁ o₂ (mentionsOfStatements ss)) : Matches (Ends C C.Similar s t)
      (block ev₁ scope (o₁.statements ss) s) (block ev₂ scope (o₂.statements ss) t) := by
  induction ss generalizing s t with
  | nil =>
    rw [Origin.statements_nil, Origin.statements_nil]
    exact .ok ⟨h.alike.refl, .undefined⟩
  | cons st ss ih =>
    rw [mentionsOfStatements] at hss
    rw [Origin.statements_cons, Origin.statements_cons]
    cases st with
    | imports decl =>
      rw [Origin.statement_imports, Origin.statement_imports]
      exact .error _ s t
    | const exported name e =>
      rw [Origin.statement_const, Origin.statement_const]
      have hst := hss.front
      rw [Statement.mentions] at hst
      refine (hev.named h hst.tail).bind ?_
      rintro v w s₁ t₁ ⟨ho₁, hv⟩ - -
      refine (declare_matches (h.onward ho₁) (hst.binder List.mem_cons_self) hv).bind ?_
      rintro - - s₂ t₂ ⟨ho₂, -⟩ - -
      have ho := ho₁.trans ho₂
      exact (ih (h.onward ho) hss.back).after ho
    | returns e =>
      rw [Origin.statement_returns, Origin.statement_returns]
      have hst := hss.front
      rw [Statement.mentions] at hst
      exact hev _ _ _ _ _ _ h hst
    | returnsNothing =>
      rw [Origin.statement_returnsNothing, Origin.statement_returnsNothing]
      exact .ok ⟨h.alike.refl, .undefined⟩
    | expr e =>
      rw [Origin.statement_expr, Origin.statement_expr]
      have hst := hss.front
      rw [Statement.mentions] at hst
      refine (hev _ _ _ _ _ _ h hst).bind ?_
      rintro v w s₁ t₁ ⟨ho, -⟩ - -
      exact (ih (h.onward ho) hss.back).after ho

theorem bodyOf {b : Body} (h : Placed C o₁ o₂ scope s t) (hb : Shared o₁ o₂ b.mentions) :
    Matches (Ends C C.Similar s t) (bodyOf ev₁ scope (o₁.body b) s)
      (bodyOf ev₂ scope (o₂.body b) t) := by
  cases b with
  | result e =>
    rw [Body.mentions] at hb
    rw [Origin.body_result, Origin.body_result]
    exact hev _ _ _ _ _ _ h hb
  | block ss =>
    rw [Body.mentions] at hb
    rw [Origin.body_block, Origin.body_block]
    exact hev.block h hb

theorem callFunction {f g : Function} {vs ws : List Value} (h : Alike C s t)
    (hf : f.Similar (s.Home C.left) (t.Home C.right) g) (hvs : C.SimilarItems s t vs ws) :
    Matches (Ends C C.Similar s t) (callFunction ev₁ f vs s) (callFunction ev₂ g ws t) := by
  obtain ⟨o₁, o₂, b, h₁, h₂, hbody₁, hbody₂, hshared⟩ := hf.body
  have hplace : Placed C o₁ o₂ f.scope s t := ⟨h, h₁, hf.scope ▸ h₂⟩
  obtain ⟨ho, hplaced⟩ := Alike.newScope hplace (s.stackOf f.scope) (t.stackOf f.scope)
  have hparams := bindParams_matches hplaced hshared.front (ho.items hvs)
  show Matches _ ((bindParams ⟨s.scopes.size⟩ f.params vs >>= fun _ =>
      Eval.bodyOf ev₁ ⟨s.scopes.size⟩ f.body) (s.newScope (some f.scope) (s.stackOf f.scope)).2)
    ((bindParams ⟨t.scopes.size⟩ g.params ws >>= fun _ =>
      Eval.bodyOf ev₂ ⟨t.scopes.size⟩ g.body) (t.newScope (some g.scope) (t.stackOf g.scope)).2)
  rw [← hf.scope, ← hf.params, ← h.size_eq, hbody₁, hbody₂]
  refine hparams.bind ?_
  rintro - - s₁ t₁ ⟨ho₁, -⟩ - -
  exact (hev.bodyOf (hplaced.onward ho₁) hshared.back).after (ho.trans ho₁)

theorem callWith {vs ws : List Value} (h : Alike C s t) (hv : C.Similar s t v w)
    (hvs : C.SimilarItems s t vs ws) :
    Matches (Ends C C.Similar s t) (callWith ev₁ v vs s) (callWith ev₂ w ws t) := by
  have hshown : v.inspect s = w.inspect t :=
    Value.Similar.inspect_eq hv C.legible h.holds₁ h.holds₂
  have hfails : (∀ f, v ≠ .function f) → (∀ f, w ≠ .function f) → (∀ b, v ≠ .builtin b) →
      (∀ b, w ≠ .builtin b) → Matches (Ends C C.Similar s t) (Eval.callWith ev₁ v vs s)
        (Eval.callWith ev₂ w ws t) := by
    intro hf hf' hb hb'
    rw [callWith_eq_notCallable ev₁ hf hb, callWith_eq_notCallable ev₂ hf' hb', hshown]
    exact .error _ s t
  cases hv with
  | function hf => exact hev.callFunction h hf hvs
  | _ => exact hfails nofun nofun nofun nofun

theorem objectFields {fs gs : Fields} {ps : List Property} (h : Placed C o₁ o₂ scope s t)
    (hps : Shared o₁ o₂ (mentionsOfProperties ps)) (hfs : C.SimilarFields s t fs gs) :
    Matches (Ends C C.SimilarFields s t) (objectFields ev₁ scope fs (o₁.properties ps) s)
      (objectFields ev₂ scope gs (o₂.properties ps) t) := by
  induction ps generalizing s t fs gs with
  | nil =>
    rw [Origin.properties_nil, Origin.properties_nil]
    exact .ok ⟨h.alike.refl, hfs⟩
  | cons p ps ih =>
    rw [mentionsOfProperties] at hps
    rw [Origin.properties_cons, Origin.properties_cons]
    have hp := hps.front
    cases p with
    | entry key e =>
      rw [Property.mentions] at hp
      rw [Origin.property_entry, Origin.property_entry]
      refine (hev _ _ _ _ _ _ h hp).bind ?_
      rintro v w s₁ t₁ ⟨ho, hv⟩ - -
      exact (ih (h.onward ho) hps.back ((ho.fields hfs).insert key hv)).after ho
    | shorthand name =>
      rw [Property.mentions] at hp
      rw [Origin.property_shorthand, Origin.property_shorthand]
      refine (nameValue_matches h (hp.shorthand List.mem_cons_self)).bind ?_
      rintro v w s₁ t₁ ⟨ho, hv⟩ - -
      exact (ih (h.onward ho) hps.back ((ho.fields hfs).insert name hv)).after ho
    | spread e =>
      rw [Property.mentions] at hp
      rw [Origin.property_spread, Origin.property_spread]
      refine (hev _ _ _ _ _ _ h hp).bind ?_
      rintro v w s₁ t₁ ⟨ho₁, hv⟩ - -
      refine (spread_matches ho₁.alike (ho₁.fields hfs) hv).bind ?_
      rintro as bs s₂ t₂ ⟨ho₂, has⟩ - -
      have ho := ho₁.trans ho₂
      exact (ih (h.onward ho) hps.back has).after ho

theorem attributes {g g' : Given} {as : List Attribute} (h : Placed C o₁ o₂ scope s t)
    (has : Shared o₁ o₂ (mentionsOfAttributes as)) (hg : Given.Similar C s t g g') :
    Matches (Ends C (Given.Similar C) s t) (attributes ev₁ scope g (o₁.attrs as) s)
      (attributes ev₂ scope g' (o₂.attrs as) t) := by
  induction as generalizing s t g g' with
  | nil =>
    rw [Origin.attrs_nil, Origin.attrs_nil]
    exact .ok ⟨h.alike.refl, hg⟩
  | cons a as ih =>
    rw [mentionsOfAttributes] at has
    rw [Origin.attrs_cons, Origin.attrs_cons]
    have ha := has.front
    cases a with
    | bare name =>
      rw [Origin.attr_bare, Origin.attr_bare]
      exact ih h has.back (hg.take (.bool true) name)
    | text name raw =>
      rw [Origin.attr_text, Origin.attr_text]
      exact ih h has.back (hg.take (.text raw) name)
    | value name e =>
      rw [Attribute.mentions] at ha
      rw [Origin.attr_value, Origin.attr_value]
      refine (hev _ _ _ _ _ _ h ha).bind ?_
      rintro v w s₁ t₁ ⟨ho, hv⟩ - -
      exact (ih (h.onward ho) has.back ((hg.onward ho).take hv name)).after ho
    | spread e =>
      rw [Attribute.mentions] at ha
      rw [Origin.attr_spread, Origin.attr_spread]
      refine (hev _ _ _ _ _ _ h ha).bind ?_
      rintro v w s₁ t₁ ⟨ho₁, hv⟩ - -
      have hg₁ := hg.onward ho₁
      refine (spread_matches ho₁.alike hg₁.props hv).bind ?_
      rintro fs gs s₂ t₂ ⟨ho₂, hfs⟩ hleft hright
      have hg₂ := hg₁.onward ho₂
      have hleft' := (Value.Similar.clean hv).spread hg₁.left.props hleft
      have hright' := (Value.Similar.clean (Value.Similar.symm hv)).spread hg₁.right.props hright
      have hg₃ : Given.Similar C s₂ t₂ { g with props := fs } { g' with props := gs } :=
        ⟨hfs, ⟨fun x hx => (hleft' x hx).mono ho₂.left, hg₂.left.owner, hg₂.left.source⟩,
          fun x hx => (hright' x hx).mono ho₂.right, hg₂.right.owner, hg₂.right.source⟩
      have ho := ho₁.trans ho₂
      exact (ih (h.onward ho) has.back hg₃).after ho

end Follows

end Eval

end MarkupTrace
