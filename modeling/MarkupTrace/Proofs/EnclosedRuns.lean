import MarkupTrace.Proofs.Enclosures

/-!
# Runs inside and outside of an enclosure

Whatever code runs, and however it ends, enclosed names stay enclosed: code inside the enclosure may
not bind them, and code outside of it cannot. At every expression that is visited on the way this is
so already, and inside the enclosure the expression uses names only as it is allowed to.
-/

namespace MarkupTrace

open Source Annotate Eval

/-- The names are still enclosed where the expression is evaluated, which may run there. -/
structure Enclosure.Oversees (E : Enclosure) (v : Visit) : Prop where
  kept : E.Kept v.store
  licensed : E.Licenses v.store v.scope v.code.uses

/-- What can be said of a run from a store: how it ended, and what it visited. -/
structure Run.Ended {α : Type} (E : Enclosure) (P : Store → α → Prop) (s : Store)
    (result : Except (Stop EvalError) α × Store) (visits : List Visit) : Prop where
  grows : s.Extends result.2
  kept : E.Kept result.2
  given : ∀ a, result.1 = .ok a → P result.2 a
  visits : ∀ v ∈ visits, E.Oversees v

/-- From any store that extends `s₀` and has the names enclosed, a run goes on to such a store. What
it gives fulfils `P`. -/
def Run.Minds {α : Type} (E : Enclosure) (s₀ : Store) (P : Store → α → Prop) (x : Run α)
    (visits : Visits) : Prop :=
  ∀ s : Store, s₀.Extends s → E.Kept s → Run.Ended E P s (x s) (visits s)

/-- The value holds only functions that may be called. -/
abbrev Enclosure.Takes (E : Enclosure) (s : Store) (v : Value) : Prop := v.Every (E.Admits s)

def Enclosure.TakesItems (E : Enclosure) (s : Store) (vs : List Value) : Prop := ∀ v ∈ vs, E.Takes s v

def Enclosure.TakesFields (E : Enclosure) (s : Store) (fields : Fields) : Prop :=
  ∀ e ∈ fields, E.Takes s e.2

section

variable {E : Enclosure} {s s' : Store}

theorem Enclosure.TakesItems.grow {vs : List Value} (h : E.TakesItems s vs) (hs : s.Extends s') :
    E.TakesItems s' vs := fun v hv => grow_every (h v hv) hs

theorem Enclosure.TakesItems.cons {v : Value} {vs : List Value} (hv : E.Takes s v)
    (hvs : E.TakesItems s vs) : E.TakesItems s (v :: vs) := List.forall_mem_cons.mpr ⟨hv, hvs⟩

theorem Enclosure.TakesFields.nil (E : Enclosure) (s : Store) : E.TakesFields s [] := by
  intro e he
  cases he

theorem Enclosure.TakesFields.grow {fields : Fields} (h : E.TakesFields s fields)
    (hs : s.Extends s') : E.TakesFields s' fields := fun e he => grow_every (h e he) hs

theorem Enclosure.TakesFields.insert {fields : Fields} (h : E.TakesFields s fields) {v : Value}
    (hv : E.Takes s v) (key : String) : E.TakesFields s (fields.insert key v) :=
  Keyed.forall_mem_insert h hv key

/-- What attributes gave holds only functions that may be called. -/
structure Eval.Given.Taken (E : Enclosure) (s : Store) (g : Given) : Prop where
  props : E.TakesFields s g.props
  owner : ∀ v, g.owner = some v → E.Takes s v
  source : ∀ v, g.source = some v → E.Takes s v

theorem Eval.Given.Taken.grow {g : Given} (h : g.Taken E s) (hs : s.Extends s') : g.Taken E s' :=
  ⟨h.props.grow hs, fun v hv => Enclosure.grow_every (h.owner v hv) hs,
    fun v hv => Enclosure.grow_every (h.source v hv) hs⟩

theorem Eval.Given.Taken.take {g : Given} {v : Value} (h : g.Taken E s) (hv : E.Takes s v)
    (name : String) : (g.take name v).Taken E s := by
  unfold Given.take
  split_ifs
  · exact ⟨h.props, fun w hw => by cases hw; exact hv, h.source⟩
  · exact ⟨h.props, h.owner, fun w hw => by cases hw; exact hv⟩
  · exact ⟨h.props.insert hv name, h.owner, h.source⟩

end

theorem Eval.along_silent {α : Type} (x : Run α) (first : Visits) :
    along x first (fun _ => silent) = first := by
  funext s
  unfold along
  rcases x s with ⟨e | a, s₁⟩ <;> exact List.append_nil _

namespace Run.Minds

variable {α β : Type} {E : Enclosure} {s₀ : Store} {P : Store → α → Prop} {Q : Store → β → Prop}

theorem pure {a : α} (h : ∀ s, s₀.Extends s → P s a) : Minds E s₀ P (Pure.pure a) silent := by
  intro s hs hkept
  refine ⟨.refl s, hkept, ?_, nofun⟩
  intro b hb
  cases hb
  exact h s hs

theorem fail (e : Stop EvalError) : Minds E s₀ P (Attempt.fail e) silent :=
  fun s _ hkept => ⟨.refl s, hkept, nofun, nofun⟩

theorem bind {x : Run α} {f : α → Run β} {first : Visits} {next : α → Visits}
    (hx : Minds E s₀ P x first)
    (hf : ∀ s a, s₀.Extends s → P s a → Minds E s Q (f a) (next a)) :
    Minds E s₀ Q (x >>= f) (along x first next) := by
  intro s hs hkept
  obtain ⟨hgrows, hkept', hgiven, hvisits⟩ := hx s hs hkept
  unfold along
  rw [Attempt.bind_apply]
  generalize x s = result at hgrows hkept' hgiven ⊢
  rcases result with ⟨e | a, s₁⟩
  · refine ⟨hgrows, hkept', nofun, ?_⟩
    rw [List.append_nil]
    exact hvisits
  · obtain ⟨hgrows', hkept'', hgiven', hvisits'⟩ :=
      hf s₁ a (hs.trans hgrows) (hgiven a rfl) s₁ (.refl s₁) hkept'
    refine ⟨hgrows.trans hgrows', hkept'', hgiven', ?_⟩
    intro v hv
    exact (List.mem_append.mp hv).elim (hvisits v) (hvisits' v)

/-- What comes behind a run may be nothing to tell. -/
theorem bind_silent {x : Run α} {f : α → Run β} {first : Visits} (hx : Minds E s₀ P x first)
    (hf : ∀ s a, s₀.Extends s → P s a → Minds E s Q (f a) silent) :
    Minds E s₀ Q (x >>= f) first := by
  have h : Minds E s₀ Q (x >>= f) (along x first fun _ => silent) := hx.bind hf
  rwa [along_silent] at h

theorem imp {x : Run α} {visits : Visits} {P' : Store → α → Prop} (h : Minds E s₀ P x visits)
    (hP : ∀ s a, P s a → P' s a) : Minds E s₀ P' x visits := by
  intro s hs hkept
  obtain ⟨hgrows, hkept', hgiven, hvisits⟩ := h s hs hkept
  exact ⟨hgrows, hkept', fun a ha => hP _ a (hgiven a ha), hvisits⟩

/-- One more visit, at the beginning of a run. -/
theorem visiting {x : Run α} {visits : Visits} {scope : ScopeId} {e : Expr}
    (h : Minds E s₀ P x visits) (he : E.Licenses s₀ scope e.uses) :
    Minds E s₀ P x fun s => ⟨scope, e, s⟩ :: visits s := by
  intro s hs hkept
  obtain ⟨hgrows, hkept', hgiven, hvisits⟩ := h s hs hkept
  exact ⟨hgrows, hkept', hgiven, List.forall_mem_cons.mpr ⟨⟨hkept, he.grow hs⟩, hvisits⟩⟩

theorem gets {f : Store → α} (h : ∀ s : Store, s₀.Extends s → E.Kept s → P s (f s)) :
    Minds E s₀ P (Attempt.gets f) silent := by
  intro s hs hkept
  refine ⟨.refl s, hkept, ?_, nofun⟩
  intro a ha
  cases ha
  exact h s hs hkept

/-- A change of anything but the scopes. -/
theorem modify {f : Store → Store} (h : ∀ s : Store, (f s).scopes = s.scopes) :
    Minds E s₀ (fun _ _ => True) (Attempt.modify f) silent :=
  fun s _ hkept => ⟨.of_scopes_eq (h s), hkept.of_scopes_eq (h s), fun _ _ => trivial, nofun⟩

/-- A change of anything but the scopes that gives a value. -/
theorem update {f : Store → α × Store} (h : ∀ s : Store, (f s).2.scopes = s.scopes) :
    Minds E s₀ (fun _ _ => True) (Attempt.update f) silent :=
  fun s _ hkept => ⟨.of_scopes_eq (h s), hkept.of_scopes_eq (h s), fun _ _ => trivial, nofun⟩

theorem push (id : StackId) (r : RecordRef) :
    Minds E s₀ (fun _ _ => True) (Attempt.modify (Store.push id r)) silent := modify fun _ => rfl

theorem newRecord (place : Location) :
    Minds E s₀ (fun _ _ => True) (Attempt.update (Store.newRecord place)) silent :=
  update fun _ => rfl

theorem identity : Minds E s₀ (fun _ _ => True) (Attempt.update Store.identity) silent :=
  update fun _ => rfl

/-- Code that may run in a scope may run in a new one inside of it. -/
theorem newScope {p : ScopeId} {us : List Use} (hp : E.Licenses s₀ p us) (stack : StackId) :
    Minds E s₀ (fun s scope => E.Licenses s scope us)
      (Attempt.update (Store.newScope (some p) stack)) silent := by
  intro s hs hkept
  refine ⟨.newScope (some p) stack s, hkept.newScope (some p) stack, ?_, nofun⟩
  intro scope hscope
  cases hscope
  have hp' := hp.grow hs
  refine ⟨?_, fun hi => hp'.2 (hi.of_newScope hkept.root_lt hp'.1)⟩
  simp [Attempt.update, Store.newScope]

/-- A further root scope is outside, so any code may run there. -/
theorem newRoot (stack : StackId) (us : List Use) :
    Minds E s₀ (fun s scope => E.Licenses s scope us)
      (Attempt.update (Store.newScope none stack)) silent := by
  intro s _ hkept
  refine ⟨.newScope none stack s, hkept.newScope none stack, ?_, nofun⟩
  intro scope hscope
  cases hscope
  have hlast : (s.newScope none stack).2.scopes[s.scopes.size]? = some ⟨[], none, stack⟩ := by
    rw [Store.getElem?_newScope, if_pos rfl]
  refine ⟨by simp [Attempt.update, Store.newScope], fun hi => ?_⟩
  exact absurd rfl (hi.parent_ne_none hkept.root_lt.ne' hlast)

/-! ### Steps without evaluation -/

theorem array {items : List Value} (h : E.TakesItems s₀ items) :
    Minds E s₀ E.Takes (Run.array items) silent :=
  identity.bind_silent fun _ _ hs _ => pure fun _ hs' => .array _ (h.grow (hs.trans hs'))

theorem object {fields : Fields} (h : E.TakesFields s₀ fields) :
    Minds E s₀ E.Takes (Run.object fields) silent :=
  identity.bind_silent fun _ _ hs _ => pure fun _ hs' => .object _ (h.grow (hs.trans hs'))

theorem closure (name : Option String) {params : List Param} {b : Body} {scope : ScopeId}
    (h : E.Licenses s₀ scope (params.flatMap Param.uses ++ b.uses)) :
    Minds E s₀ E.Takes (Run.closure name params b scope) silent :=
  identity.bind_silent fun _ _ hs _ => pure fun _ hs' => .function (h.grow (hs.trans hs'))

theorem record (place : Location) : Minds E s₀ E.Takes (Run.record place) silent :=
  (newRecord place).bind_silent fun _ _ _ _ => pure fun _ _ => .location _

theorem lookup (name : String) (scope : ScopeId) :
    Minds E s₀ E.Takes (Run.lookup name scope) silent := by
  have hfound : Minds E s₀ (fun s o => ∀ v, o = some v → E.Takes s v)
      (Attempt.gets (Store.lookup name scope)) silent :=
    gets fun s _ hkept v hv => hkept.lookup_every hv
  refine hfound.bind_silent fun s o _ ho => ?_
  cases o with
  | none => exact fail _
  | some v => exact pure fun _ hs => Enclosure.grow_every (ho v rfl) hs

theorem property (name : String) {target : Value} (h : E.Takes s₀ target) :
    Minds E s₀ E.Takes (Run.property name target) silent := by
  unfold Run.property
  split
  · rename_i v hv
    exact pure fun _ hs => Enclosure.grow_every (h.get? hv) hs
  · exact fail _

theorem declare {scope : ScopeId} {name : String} {v : Value}
    (hscope : E.Licenses s₀ scope [.binds name]) (hv : E.Takes s₀ v) :
    Minds E s₀ (fun _ _ => True) (Run.declare scope name v) silent :=
  fun s hs hkept => ⟨.declare scope name v s,
    hkept.declare (hscope.grow hs) (Enclosure.grow_every hv hs), fun _ _ => trivial, nofun⟩

theorem spread {fields : Fields} {v : Value} (hfields : E.TakesFields s₀ fields)
    (hv : E.Takes s₀ v) : Minds E s₀ E.TakesFields (Run.spread fields v) silent := by
  cases hv with
  | undefined => exact pure fun _ hs => hfields.grow hs
  | null => exact pure fun _ hs => hfields.grow hs
  | object identity hadded =>
    exact pure fun _ hs => Enclosure.TakesFields.grow (Keyed.forall_mem_extend hfields hadded) hs
  | _ => exact fail _

theorem boundStack (name : String) (scope : ScopeId) :
    Minds E s₀ (fun _ _ => True) (Eval.boundStack name scope) silent := by
  refine (gets fun _ _ _ => trivial : Minds E s₀ (fun _ _ => True) _ _).bind_silent
    fun _ o _ _ => ?_
  split
  · exact pure fun _ _ => trivial
  · exact fail _
  · exact fail _

theorem helper (scope : ScopeId) (x : Helper) :
    Minds E s₀ E.Takes (Eval.helper scope x) silent := by
  cases x with
  | newStack =>
    exact (gets fun _ _ _ => trivial : Minds E s₀ (fun _ _ => True) _ _).bind_silent
      fun _ _ _ _ => pure fun _ _ => .stack _
  | recordParent name =>
    exact (boundStack name scope).bind_silent fun _ _ _ _ => pure fun _ _ => .builtin _
  | recordExpression name =>
    exact (boundStack name scope).bind_silent fun _ _ _ _ => pure fun _ _ => .builtin _

theorem callBuiltin (b : Builtin) {arguments : List Value} (h : E.TakesItems s₀ arguments) :
    Minds E s₀ E.Takes (Eval.callBuiltin b arguments) silent := by
  cases b with
  | recordParent id =>
    have hfirst := Value.Every.headD h
    rw [Eval.callBuiltin]
    generalize arguments.headD .undefined = v at hfirst ⊢
    split
    · rename_i r
      exact (push id r).bind_silent fun _ _ _ _ => pure fun _ _ => .location _
    · split
      · rename_i place _
        refine (newRecord place).bind_silent fun _ r _ _ => (push id r).bind_silent fun _ _ _ _ => ?_
        exact pure fun _ _ => .location _
      · exact pure fun _ hs => Enclosure.grow_every hfirst hs
  | recordExpression id =>
    have hvalue : E.Takes s₀ (arguments[1]?.getD Value.undefined) :=
      .getD fun v hv => h v (List.mem_of_getElem? hv)
    refine (modify fun s => ?_).bind_silent fun _ _ hs _ => pure fun _ hs' =>
      Enclosure.grow_every hvalue (hs.trans hs')
    unfold Store.record
    split
    · rfl
    · split <;> rfl

theorem bindProperties {scope : ScopeId} {argument : Value} (h : E.Takes s₀ argument)
    {names : List String} (hscope : E.Licenses s₀ scope (names.map .binds)) :
    Minds E s₀ (fun _ _ => True) (Eval.bindProperties scope argument names) silent := by
  induction names generalizing s₀ with
  | nil => exact pure fun _ _ => trivial
  | cons name names ih =>
    rw [List.map_cons, ← List.singleton_append] at hscope
    refine (property name h).bind_silent fun _ v hs hv => ?_
    refine (declare (hscope.left.grow hs) hv).bind_silent fun _ _ hs' _ => ?_
    exact ih (Enclosure.grow_every h (hs.trans hs')) (hscope.right.grow (hs.trans hs'))

theorem bindParams {scope : ScopeId} {params : List Param}
    (hscope : E.Licenses s₀ scope (params.flatMap Param.uses)) {arguments : List Value}
    (h : E.TakesItems s₀ arguments) :
    Minds E s₀ (fun _ _ => True) (Eval.bindParams scope params arguments) silent := by
  induction params generalizing s₀ arguments with
  | nil => exact pure fun _ _ => trivial
  | cons p params ih =>
    rw [List.flatMap_cons] at hscope
    have hfirst : E.Takes s₀ (arguments.headD .undefined) := Value.Every.headD h
    have hrest : ∀ s, s₀.Extends s →
        Minds E s (fun _ _ => True) (Eval.bindParams scope params arguments.tail) silent :=
      fun s hs => ih (hscope.right.grow hs) fun v hv =>
        Enclosure.grow_every (h v (List.mem_of_mem_tail hv)) hs
    cases p with
    | name name => exact (declare hscope.left hfirst).bind_silent fun s _ hs _ => hrest s hs
    | properties names =>
      exact (bindProperties hfirst hscope.left).bind_silent fun s _ hs _ => hrest s hs

theorem nameValue (scope : ScopeId) (name : String) :
    Minds E s₀ E.Takes (Eval.nameValue scope name) silent := by
  unfold Eval.nameValue
  split_ifs
  · exact pure fun _ _ => .undefined
  · exact lookup name scope

theorem follow {target : Value} (h : E.Takes s₀ target) (names : List String) :
    Minds E s₀ E.Takes (Eval.follow target names) silent := by
  induction names generalizing s₀ target with
  | nil => exact pure fun _ hs => Enclosure.grow_every h hs
  | cons name names ih => exact (property name h).bind_silent fun _ _ _ hv => ih hv

theorem elementType {scope : ScopeId} {name : String}
    (hscope : E.Licenses s₀ scope (usesOfTag name)) :
    Minds E s₀ (fun s type => ∀ f, type = .component f → E.Admits s f)
      (Eval.elementType scope name) (Visit.tag scope name) := by
  unfold Eval.elementType Visit.tag
  unfold usesOfTag at hscope
  split_ifs with hhost
  · exact pure fun _ _ => nofun
  · rw [if_neg hhost] at hscope
    cases hsegments : segments name with
    | nil => exact fail _
    | cons first rest =>
      rw [hsegments] at hscope
      have hlookup : Minds E s₀ E.Takes (Run.lookup first scope)
          fun s => [⟨scope, .name first, s⟩] := by
        refine (lookup first scope).visiting (hscope.mono ?_)
        rw [Expr.uses]
        exact List.Subset.refl _
      refine hlookup.bind_silent fun _ _ _ hv => (follow hv rest).bind_silent fun _ w _ hw => ?_
      split
      · refine pure fun _ hs f hf => ?_
        cases hf
        cases hw with
        | function hadmits => exact Enclosure.Licenses.grow hadmits hs
      · exact fail _

theorem withChildren {props : Fields} {vs : List Value} (hprops : E.TakesFields s₀ props)
    (hvs : E.TakesItems s₀ vs) :
    Minds E s₀ E.TakesFields (Eval.withChildren props vs) silent := by
  match vs, hvs with
  | [], _ => exact pure fun _ hs => hprops.grow hs
  | [v], hvs =>
    have hv := hvs v List.mem_cons_self
    exact pure fun _ hs => Enclosure.TakesFields.grow (hprops.insert hv _) hs
  | _ :: _ :: _, hvs =>
    exact (array hvs).bind_silent fun _ _ hs ha => pure fun _ hs' =>
      Enclosure.TakesFields.grow ((hprops.grow hs).insert ha _) hs'

/-! ### Evaluation -/

section

variable {ev : Evaluator} {up : ScopeId → Expr → Visits}
  (hev : ∀ s₀ scope e, E.Licenses s₀ scope e.uses → Minds E s₀ E.Takes (ev scope e) (up scope e))

section

include hev

theorem named (name : String) {scope : ScopeId} {e : Expr} (hscope : E.Licenses s₀ scope e.uses) :
    Minds E s₀ E.Takes (Eval.named ev name scope e) (Visit.named up scope e) := by
  cases e with
  | arrow params b =>
    rw [Expr.uses] at hscope
    exact closure (some name) hscope
  | _ => exact hev s₀ scope _ hscope

theorem block {scope : ScopeId} {ss : List Statement}
    (hscope : E.Licenses s₀ scope (usesOfStatements ss)) :
    Minds E s₀ E.Takes (Eval.block ev scope ss) (Visit.block ev up scope ss) := by
  induction ss generalizing s₀ with
  | nil => exact pure fun _ _ => .undefined
  | cons st ss ih =>
    rw [usesOfStatements] at hscope
    have hst := hscope.left
    cases st with
    | imports decl => exact fail _
    | const exported name e =>
      rw [Statement.uses, ← List.singleton_append] at hst
      refine (named hev name hst.right).bind fun _ _ hs hv => ?_
      refine (declare (hst.left.grow hs) hv).bind fun _ _ hs' _ => ?_
      exact ih (hscope.right.grow (hs.trans hs'))
    | expr e =>
      rw [Statement.uses] at hst
      exact (hev s₀ scope e hst).bind fun _ _ hs _ => ih (hscope.right.grow hs)
    | returns e =>
      rw [Statement.uses] at hst
      exact hev s₀ scope e hst
    | returnsNothing => exact pure fun _ _ => .undefined

theorem bodyOf {scope : ScopeId} {b : Body} (hscope : E.Licenses s₀ scope b.uses) :
    Minds E s₀ E.Takes (Eval.bodyOf ev scope b) (Visit.bodyOf ev up scope b) := by
  cases b with
  | result e =>
    rw [Body.uses] at hscope
    exact hev s₀ scope e hscope
  | block ss =>
    rw [Body.uses] at hscope
    exact block hev hscope

theorem callWith {callee : Value} {arguments : List Value} (hcallee : E.Takes s₀ callee)
    (h : E.TakesItems s₀ arguments) :
    Minds E s₀ E.Takes (Eval.callWith ev callee arguments)
      (Visit.callWith ev up callee arguments) := by
  have hgets : ∀ {β : Type} (f : Store → β), Minds E s₀ (fun _ _ => True) (Attempt.gets f) silent :=
    fun f => gets fun _ _ _ => trivial
  cases hcallee with
  | @function f hadmits =>
    show Minds E s₀ E.Takes (Eval.callFunction ev f arguments)
      (Visit.callFunction ev up f arguments)
    unfold Eval.callFunction Visit.callFunction
    refine (hgets _).bind fun _ stack hs _ => ?_
    refine (newScope (Enclosure.Licenses.grow hadmits hs) stack).bind fun _ scope hs' hscope => ?_
    refine (bindParams hscope.left (h.grow (hs.trans hs'))).bind fun _ _ hs₁ _ => ?_
    exact bodyOf hev (hscope.right.grow hs₁)
  | builtin b => exact callBuiltin b h
  | _ => exact (hgets _).bind_silent fun _ _ _ _ => fail _

theorem all {scope : ScopeId} {es : List Expr} (hscope : E.Licenses s₀ scope (usesOfItems es)) :
    Minds E s₀ E.TakesItems (Eval.all ev scope es) (Visit.all ev up scope es) := by
  induction es generalizing s₀ with
  | nil => exact pure fun _ _ => nofun
  | cons e es ih =>
    rw [usesOfItems] at hscope
    refine (hev s₀ scope e hscope.left).bind fun _ _ hs hv => ?_
    refine (ih (hscope.right.grow hs)).bind_silent fun _ _ hs' hvs => pure fun _ hs₁ => ?_
    exact .cons (Enclosure.grow_every hv (hs'.trans hs₁)) (hvs.grow hs₁)

theorem objectFields {scope : ScopeId} {fields : Fields} (h : E.TakesFields s₀ fields)
    {ps : List Property} (hscope : E.Licenses s₀ scope (usesOfProperties ps)) :
    Minds E s₀ E.TakesFields (Eval.objectFields ev scope fields ps)
      (Visit.objectFields ev up scope fields ps) := by
  induction ps generalizing s₀ fields with
  | nil => exact pure fun _ hs => h.grow hs
  | cons p ps ih =>
    rw [usesOfProperties] at hscope
    have hp := hscope.left
    cases p with
    | entry key e =>
      rw [Property.uses] at hp
      exact (hev s₀ scope e hp).bind fun _ _ hs hv =>
        ih ((h.grow hs).insert hv key) (hscope.right.grow hs)
    | shorthand name =>
      have hname : Minds E s₀ E.Takes (Eval.nameValue scope name) (Visit.name scope name) := by
        rw [Property.uses] at hp
        refine (nameValue scope name).visiting ?_
        rwa [Expr.uses]
      exact hname.bind fun _ _ hs hv => ih ((h.grow hs).insert hv name) (hscope.right.grow hs)
    | spread e =>
      rw [Property.uses] at hp
      refine (hev s₀ scope e hp).bind fun _ _ hs hv => ?_
      exact (spread (h.grow hs) hv).bind fun _ _ hs' hadded =>
        ih hadded (hscope.right.grow (hs.trans hs'))

theorem attributes {scope : ScopeId} {g : Given} (h : g.Taken E s₀) {as : List Attribute}
    (hscope : E.Licenses s₀ scope (usesOfAttributes as)) :
    Minds E s₀ (fun s g => g.Taken E s) (Eval.attributes ev scope g as)
      (Visit.attributes ev up scope g as) := by
  induction as generalizing s₀ g with
  | nil => exact pure fun _ hs => h.grow hs
  | cons a as ih =>
    rw [usesOfAttributes] at hscope
    have ha := hscope.left
    cases a with
    | bare name => exact ih (h.take (.bool true) name) hscope.right
    | text name raw => exact ih (h.take (.text raw) name) hscope.right
    | value name e =>
      rw [Attribute.uses] at ha
      exact (hev s₀ scope e ha).bind fun _ _ hs hv =>
        ih ((h.grow hs).take hv name) (hscope.right.grow hs)
    | spread e =>
      rw [Attribute.uses] at ha
      refine (hev s₀ scope e ha).bind fun _ _ hs hv => ?_
      refine (spread (h.grow hs).props hv).bind fun _ _ hs' hprops => ?_
      have hrest := h.grow (hs.trans hs')
      exact ih ⟨hprops, hrest.owner, hrest.source⟩ (hscope.right.grow (hs.trans hs'))

theorem childValues {scope : ScopeId} {cs : List Child}
    (hscope : E.Licenses s₀ scope (usesOfChildren cs)) :
    Minds E s₀ E.TakesItems (Eval.childValues ev scope cs)
      (Visit.childValues ev up scope cs) := by
  induction cs generalizing s₀ with
  | nil => exact pure fun _ _ => nofun
  | cons c cs ih =>
    rw [usesOfChildren] at hscope
    have hrest := ih hscope.right
    have hcons : ∀ e : Expr, E.Licenses s₀ scope e.uses → Minds E s₀ E.TakesItems
        (do let v ← ev scope e; return v :: (← Eval.childValues ev scope cs))
        (along (ev scope e) (up scope e) fun _ => Visit.childValues ev up scope cs) := by
      intro e he
      refine (hev s₀ scope e he).bind fun _ _ hs hv => ?_
      refine (ih (hscope.right.grow hs)).bind_silent fun _ _ hs' hvs => pure fun _ hs₁ => ?_
      exact .cons (Enclosure.grow_every hv (hs'.trans hs₁)) (hvs.grow hs₁)
    have hc := hscope.left
    cases c with
    | text t =>
      refine hrest.bind_silent fun _ vs _ hvs => pure fun _ hs => ?_
      split_ifs
      · exact hvs.grow hs
      · exact .cons (.text _) (hvs.grow hs)
    | emptyContainer span => exact hrest
    | container e span =>
      rw [Child.uses] at hc
      exact hcons e hc
    | element e =>
      rw [Child.uses] at hc
      exact hcons (.markup e) (by rwa [Expr.uses])

theorem createElement {scope : ScopeId} {e : Element} (hscope : E.Licenses s₀ scope e.uses) :
    Minds E s₀ E.Takes (Eval.createElement ev scope e) (Visit.createElement ev up scope e) := by
  have hnone : ∀ s, Given.Taken E s ⟨[], none, none⟩ :=
    fun s => ⟨.nil E s, nofun, nofun⟩
  rw [Element.uses_eq] at hscope
  refine (elementType hscope.left).bind fun s₁ type hs₁ htype => ?_
  refine (attributes hev (hnone s₁) (hscope.right.left.grow hs₁)).bind fun s₂ g hs₂ hg => ?_
  have hchildren := childValues hev (hscope.right.right.grow (hs₁.trans hs₂))
  refine hchildren.bind_silent fun s₃ vs hs₃ hvs => ?_
  refine (withChildren (hg.grow hs₃).props hvs).bind_silent fun s₄ props hs₄ hprops => ?_
  refine identity.bind_silent fun _ _ hs₅ _ => identity.bind_silent fun _ _ hs₆ _ => ?_
  refine pure fun _ hs₇ => ?_
  have hend := hs₅.trans (hs₆.trans hs₇)
  have hlater := hs₄.trans hend
  have hg := hg.grow (hs₃.trans hlater)
  exact .element (fun f hf => Enclosure.Licenses.grow (htype f hf) (hs₂.trans (hs₃.trans hlater)))
    (hprops.grow hend) hg.owner hg.source

end

/-- The callee of a helper call is a name, so evaluating it does nothing but look it up. -/
theorem step (hev : ∀ s₀ scope e, E.Licenses s₀ scope e.uses →
      Minds E s₀ E.Takes (ev scope e) (up scope e))
    (hname : ∀ s₀ scope n, Minds E s₀ E.Takes (ev scope (.name n)) silent)
    {scope : ScopeId} {e : Expr} (hscope : E.Licenses s₀ scope e.uses) :
    Minds E s₀ E.Takes (Eval.step ev scope e) (Visit.step ev up scope e) := by
  cases e with
  | text s => exact pure fun _ _ => .text s
  | number d => exact pure fun _ _ => .number d
  | bool b => exact pure fun _ _ => .bool b
  | null => exact pure fun _ _ => .null
  | this => exact pure fun _ _ => .undefined
  | name name => exact nameValue scope name
  | member e name =>
    rw [Expr.uses] at hscope
    exact (hev s₀ scope e hscope).bind_silent fun _ _ _ hv => property name hv
  | call callee arguments =>
    rw [Expr.uses] at hscope
    have hcallee : Minds E s₀ E.Takes (ev scope callee)
        (Visit.callee up scope callee arguments) := by
      unfold Visit.callee
      split_ifs with hhelper
      · cases callee with
        | name n => exact hname s₀ scope n
        | _ => cases hhelper
      · rw [if_neg hhelper] at hscope
        exact hev s₀ scope callee hscope.left
    refine hcallee.bind fun _ f hs hf => ?_
    exact (all hev (hscope.right.grow hs)).bind fun _ _ hs' hvs =>
      callWith hev (Enclosure.grow_every hf hs') hvs
  | arrow params b =>
    rw [Expr.uses] at hscope
    exact closure none hscope
  | object ps =>
    rw [Expr.uses] at hscope
    exact (objectFields hev (.nil E s₀) hscope).bind_silent fun _ _ _ hfields => object hfields
  | array items =>
    rw [Expr.uses] at hscope
    exact (all hev hscope).bind_silent fun _ _ _ hvs => array hvs
  | paren e =>
    rw [Expr.uses] at hscope
    exact hev s₀ scope e hscope
  | markup e =>
    rw [Expr.uses] at hscope
    exact createElement hev hscope
  | location l =>
    exact (gets fun _ _ _ => trivial : Minds E s₀ (fun _ _ => True) _ _).bind_silent
      fun _ place _ _ => record place
  | helper x => exact helper scope x

end

theorem evalName (depth : Nat) (s₀ : Store) (scope : ScopeId) (n : String) :
    Minds E s₀ E.Takes (Eval.eval depth scope (.name n)) silent := by
  cases depth with
  | zero => exact fail _
  | succ depth => exact nameValue scope n

theorem eval (depth : Nat) (s₀ : Store) (scope : ScopeId) (e : Expr)
    (hscope : E.Licenses s₀ scope e.uses) :
    Minds E s₀ E.Takes (Eval.eval depth scope e) (Visit.eval depth scope e) := by
  induction depth generalizing s₀ scope e with
  | zero => exact fail _
  | succ depth ih => exact (step ih (evalName depth) hscope).visiting hscope

theorem call (depth : Nat) {callee : Value} {arguments : List Value}
    (hcallee : E.Takes s₀ callee) (h : E.TakesItems s₀ arguments) :
    Minds E s₀ E.Takes (Eval.call depth callee arguments) (Visit.call depth callee arguments) :=
  callWith (eval depth) hcallee h

/-! ### Loading -/

theorem importedValue {found : Option Fields} (h : ∀ fields, found = some fields →
    E.TakesFields s₀ fields) (imported : Imported) :
    Minds E s₀ E.Takes (Eval.importedValue found imported) silent := by
  have hget : ∀ key, E.Takes s₀ ((found.bind (Keyed.get? key)).getD .undefined) := by
    intro key
    cases found with
    | none => exact .undefined
    | some fields => exact .keyed (h fields rfl) key
  cases imported with
  | default => exact pure fun _ hs => Enclosure.grow_every (hget "default") hs
  | named name => exact pure fun _ hs => Enclosure.grow_every (hget name) hs
  | everything =>
    cases found with
    | none => exact pure fun _ _ => .undefined
    | some fields => exact object (h fields rfl)

theorem bindImports {scope : ScopeId} {found : Option Fields} (h : ∀ fields, found = some fields →
    E.TakesFields s₀ fields) {bs : List Binding}
    (hscope : E.Licenses s₀ scope (bs.map fun b => .binds b.name)) :
    Minds E s₀ (fun _ _ => True) (Eval.bindImports scope found bs) silent := by
  induction bs generalizing s₀ with
  | nil => exact pure fun _ _ => trivial
  | cons b bs ih =>
    rw [List.map_cons, ← List.singleton_append] at hscope
    refine (importedValue h b.imported).bind_silent fun _ _ hs hv => ?_
    refine (declare (hscope.left.grow hs) hv).bind_silent fun _ _ hs' _ => ?_
    exact ih (fun fields hf => (h fields hf).grow (hs.trans hs'))
      (hscope.right.grow (hs.trans hs'))

/-- The importable modules hold only functions that may be called. -/
def TakesModules (E : Enclosure) (s : Store) (modules : Importable) : Prop :=
  ∀ m ∈ modules, E.TakesFields s m.2

theorem topLevel (depth : Nat) {modules : Importable} (hmodules : TakesModules E s₀ modules)
    {scope : ScopeId} {exports : Fields} (hexports : E.TakesFields s₀ exports)
    {ss : List Statement} (hscope : E.Licenses s₀ scope (usesOfStatements ss)) :
    Minds E s₀ E.TakesFields (Eval.topLevel (Eval.eval depth) modules scope exports ss)
      (Visit.topLevel (Eval.eval depth) (Visit.eval depth) modules scope ss) := by
  induction ss generalizing s₀ exports with
  | nil => exact pure fun _ hs => hexports.grow hs
  | cons st ss ih =>
    rw [usesOfStatements] at hscope
    have hst := hscope.left
    have hgrow : ∀ {s}, s₀.Extends s → TakesModules E s modules :=
      fun hs m hm => (hmodules m hm).grow hs
    cases st with
    | imports decl =>
      rw [Statement.uses] at hst
      have hfound : ∀ fields, (modules.find? fun m => m.1 == decl.specifier).map (·.2) =
          some fields → E.TakesFields s₀ fields := by
        intro fields hf
        obtain ⟨m, hm, rfl⟩ := Option.map_eq_some_iff.mp hf
        exact hmodules m (List.mem_of_find?_eq_some hm)
      exact (bindImports hfound hst).bind fun _ _ hs _ =>
        ih (hgrow hs) (hexports.grow hs) (hscope.right.grow hs)
    | const exported name e =>
      rw [Statement.uses, ← List.singleton_append] at hst
      refine (named (eval depth) name hst.right).bind fun _ v hs hv => ?_
      refine (declare (hst.left.grow hs) hv).bind fun _ _ hs' _ => ?_
      have hboth := hs.trans hs'
      refine ih (hgrow hboth) ?_ (hscope.right.grow hboth)
      split_ifs
      · exact (hexports.grow hboth).insert (Enclosure.grow_every hv hs') name
      · exact hexports.grow hboth
    | expr e =>
      rw [Statement.uses] at hst
      exact (eval depth s₀ scope e hst).bind fun _ _ hs _ =>
        ih (hgrow hs) (hexports.grow hs) (hscope.right.grow hs)
    | returns e => exact fail _
    | returnsNothing => exact fail _

theorem load (depth : Nat) {modules : Importable} (hmodules : TakesModules E s₀ modules)
    (stack : StackId) (m : Module) :
    Minds E s₀ E.TakesFields (Eval.load depth modules stack m)
      (Visit.load depth modules stack m) := by
  refine (newRoot stack (usesOfStatements m.body)).bind fun s scope hs hscope => ?_
  exact topLevel depth (fun x hx => (hmodules x hx).grow hs) (.nil E s) hscope

end Run.Minds

end MarkupTrace
