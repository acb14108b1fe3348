import MarkupTrace.Proofs.MatchedChildren
import MarkupTrace.Proofs.Planting

/-!
# Identities are new

An identity is handed out once, to the value that is made then. Whatever runs afterwards can lay its
hands on that value only if it is found in the store or is passed on. So a child that was created
from markup is none of the values that later children of the same element have, and the array of all
children is none of them.

Evaluation reads nothing in the store but scopes. That it gives no identity away which it was not
given and did not draw is shown along derivations, for one identity at a time.
-/

namespace MarkupTrace

open Source Annotate Eval Render

/-! ## Where an identity occurs -/

namespace Value

/-- Nothing in the value has this identity. The scope that a function was made in is not in it. -/
inductive Lacks (m : Nat) : Value → Prop
  | undefined : Lacks m .undefined
  | null : Lacks m .null
  | bool (b : Bool) : Lacks m (.bool b)
  | number (n : Double) : Lacks m (.number n)
  | text (s : String) : Lacks m (.text s)
  | array {identity : Nat} {items : List Value} (other : identity ≠ m)
      (items_lack : ∀ v ∈ items, Lacks m v) : Lacks m (.array identity items)
  | object {identity : Nat} {fields : Fields} (other : identity ≠ m)
      (fields_lack : ∀ e ∈ fields, Lacks m e.2) : Lacks m (.object identity fields)
  | element {c : CreatedElement Value} (other : c.identity ≠ m)
      (type : ∀ f, c.type = .component f → f.identity ≠ m) (props_other : c.propsIdentity ≠ m)
      (props : ∀ e ∈ c.props, Lacks m e.2) (owner : ∀ v, c.owner = some v → Lacks m v)
      (source : ∀ v, c.source = some v → Lacks m v) : Lacks m (.element c)
  | function {f : Function} (other : f.identity ≠ m) : Lacks m (.function f)
  | builtin (b : Builtin) : Lacks m (.builtin b)
  | stack (id : StackId) : Lacks m (.stack id)
  | location (r : RecordRef) : Lacks m (.location r)

namespace Lacks

variable {m : Nat} {v w : Value}

theorem getD {o : Option Value} (h : ∀ v, o = some v → v.Lacks m) :
    (o.getD .undefined).Lacks m := by
  cases o with
  | none => exact .undefined
  | some v => exact h v rfl

theorem keyed {fields : Fields} (h : ∀ e ∈ fields, e.2.Lacks m) (key : String) :
    ((fields.get? key).getD .undefined).Lacks m :=
  getD fun _ hv => h _ (Keyed.mem_of_get? hv)

/-- Properties have no identities but those of the value. -/
theorem get? (h : v.Lacks m) {p : String} (hp : v.get? p = some w) : w.Lacks m := by
  cases part_of_get? hp with
  | undefined => exact .undefined
  | number _ n => exact .number n
  | text _ s => exact .text s
  | item _ hw =>
    cases h with
    | array _ hitems => exact hitems _ hw
  | field _ he =>
    cases h with
    | object _ hfields => exact hfields _ he
  | props =>
    cases h with
    | element _ _ other props _ _ => exact .object other props
  | type hf =>
    cases h with
    | element _ type _ _ _ _ => exact .function (type _ hf)
  | owner hv =>
    cases h with
    | element _ _ _ _ owner _ => exact owner _ hv
  | source hv =>
    cases h with
    | element _ _ _ _ _ source => exact source _ hv

theorem spread (h : v.Lacks m) {fields added : Fields} (hfields : ∀ e ∈ fields, e.2.Lacks m)
    {s s' : Store} (hs : Run.spread fields v s = (.ok added, s')) : ∀ e ∈ added, e.2.Lacks m := by
  cases h with
  | undefined => cases hs; exact hfields
  | null => cases hs; exact hfields
  | object other hadded =>
    cases hs
    exact Keyed.forall_mem_extend hfields hadded
  | _ => exact absurd hs Attempt.fail_ne_ok

theorem strictEq_element {e : CreatedElement Value} (h : v.Lacks e.identity) :
    v.strictEq (.element e) = false := by
  cases h with
  | element other => exact beq_eq_false_iff_ne.mpr other
  | _ => rfl

theorem strictEq_array {items : List Value} (h : v.Lacks m) :
    v.strictEq (.array m items) = false := by
  cases h with
  | array other => exact beq_eq_false_iff_ne.mpr other
  | _ => rfl

end Lacks

end Value

namespace Store

/-- Nothing that is bound in the store has this identity. -/
def Lacks (m : Nat) (s : Store) : Prop :=
  ∀ (i : Nat) (sc : Scope), s.scopes[i]? = some sc → ∀ e ∈ sc.bindings, e.2.Lacks m

/-- All identities in the store were handed out. -/
def Issued (s : Store) : Prop := ∀ m, s.next ≤ m → s.Lacks m

end Store

/-- All identities in the value were handed out. -/
def Value.Issued (s : Store) (v : Value) : Prop := ∀ m, s.next ≤ m → v.Lacks m

/-- The identity is not in the first store, nor is it handed out on the way to the second. -/
structure Unused (m : Nat) (s s' : Store) : Prop where
  absent : s.Lacks m
  passed : m < s.next ∨ s'.next ≤ m

namespace Store

variable {m : Nat} {s s' : Store} {v : Value}

theorem Lacks.of_scopes_eq (h : s.Lacks m) (hs : s'.scopes = s.scopes) : s'.Lacks m :=
  fun i sc hsc => h i sc (hs ▸ hsc)

theorem Lacks.newScope (h : s.Lacks m) (p : Option ScopeId) (stack : StackId) :
    (s.newScope p stack).2.Lacks m := by
  intro i sc hsc
  rw [getElem?_newScope] at hsc
  split_ifs at hsc
  · cases hsc
    exact nofun
  · exact h i sc hsc

theorem Lacks.declare (h : s.Lacks m) (scope : ScopeId) (n : String) (hv : v.Lacks m) :
    (s.declare scope n v).Lacks m := by
  intro i sc' hsc'
  rw [getElem?_declare scope.index] at hsc'
  obtain ⟨sc, hsc, rfl⟩ := Option.map_eq_some_iff.mp hsc'
  split_ifs
  · exact Keyed.forall_mem_insert (h i sc hsc) hv n
  · exact h i sc hsc

theorem Lacks.lookupFrom {n : String} {i : Nat} (h : s.Lacks m)
    (hv : s.lookupFrom n i = some v) : v.Lacks m := by
  induction i using Nat.strongRecOn with
  | ind i ih =>
    rw [Store.lookupFrom] at hv
    split at hv
    · cases hv
    · rename_i sc hsc
      split at hv
      · rename_i w hw
        cases hv
        exact h i sc hsc _ (Keyed.mem_of_get? hw)
      · split at hv
        · cases hv
        · split_ifs at hv with hlt
          exact ih _ hlt hv

end Store

namespace Eval

/-- Every child that was created from markup is apart from the values of the children behind it, and
the array of all children is apart from each of them. -/
structure Creation.Apart (c : Creation) : Prop where
  elements : (contributions c.element.content.toList c.given).Pairwise fun p q =>
    (∃ e, p.1 = .element e) → q.2.strictEq p.2 = false
  array : 2 ≤ (c.given.filterMap id).length → ∀ identity items,
    Keyed.get? "children" c.value.props = some (.array identity items) →
      ∀ v ∈ c.given.filterMap id, v.strictEq (.array identity items) = false

/-- What every evaluation does with identities: it hands out new ones, puts none in the store that
was neither there nor passed in nor is new, and keeps what it creates apart. What is passed in lacks
the identities in `P`. -/
structure Mints (P : Nat → Prop) (s s' : Store) (l : List Creation) : Prop where
  next_le : s.next ≤ s'.next
  lacks : ∀ m, P m → Unused m s s' → s'.Lacks m
  apart : (∀ m, s.next ≤ m → P m) → s.Issued → ∀ c ∈ l, c.Apart

end Eval

namespace Unused

variable {m : Nat} {P : Nat → Prop} {s s₁ s₂ : Store} {l : List Creation}

theorem front (h : Unused m s s₂) (hle : s₁.next ≤ s₂.next) : Unused m s s₁ :=
  ⟨h.absent, h.passed.imp_right hle.trans⟩

theorem back (h : Unused m s s₂) (hm : P m) (h₁ : Mints P s s₁ l) (hle : s₁.next ≤ s₂.next) :
    Unused m s₁ s₂ :=
  ⟨h₁.lacks m hm (h.front hle), h.passed.imp_left fun hlt => hlt.trans_le h₁.next_le⟩

/-- What is handed out last is not unused. -/
theorem next_ne (h : Unused m s s₁) (hle : s.next < s₁.next) : s.next ≠ m := by
  have := h.passed
  omega

end Unused

theorem Store.Issued.unused {m : Nat} {s s' : Store} (h : s.Issued) (hle : s.next ≤ s'.next)
    (hm : s'.next ≤ m) : Unused m s s' :=
  ⟨h m (hle.trans hm), .inr hm⟩

namespace Eval

namespace Mints

variable {P Q : Nat → Prop} {s s₁ s₂ : Store} {l l₁ l₂ : List Creation}

/-- One evaluation after another, to which something is passed that the first one gave. -/
theorem trans (h₁ : Mints P s s₁ l₁) (h₂ : Mints Q s₁ s₂ l₂)
    (hQ : ∀ m, P m → Unused m s s₁ → Q m) : Mints P s s₂ (l₁ ++ l₂) := by
  refine ⟨h₁.next_le.trans h₂.next_le, ?_, ?_⟩
  · intro m hP hm
    exact h₂.lacks m (hQ m hP (hm.front h₂.next_le)) (hm.back hP h₁ h₂.next_le)
  · intro hP hs
    have hold : ∀ m, s₁.next ≤ m → P m ∧ Unused m s s₁ := fun m hm =>
      ⟨hP m (h₁.next_le.trans hm), hs.unused h₁.next_le hm⟩
    refine List.forall_mem_append.mpr ⟨h₁.apart hP hs, h₂.apart ?_ ?_⟩
    · exact fun m hm => hQ m (hold m hm).1 (hold m hm).2
    · exact fun m hm => h₁.lacks m (hold m hm).1 (hold m hm).2

theorem weaken (h : Mints Q s s₁ l) (hQ : ∀ m, P m → Q m) : Mints P s s₁ l :=
  ⟨h.next_le, fun m hm => h.lacks m (hQ m hm), fun hP => h.apart fun m hm => hQ m (hP m hm)⟩

/-- An evaluation to which nothing is passed behind another one. -/
theorem andThen (h₁ : Mints P s s₁ l₁) (h₂ : Mints (fun _ => True) s₁ s₂ l₂) :
    Mints P s s₂ (l₁ ++ l₂) :=
  h₁.trans h₂ fun _ _ _ => trivial

theorem issued (h : Mints P s s₁ l) (hP : ∀ m, s.next ≤ m → P m) (hs : s.Issued) : s₁.Issued :=
  fun m hm => h.lacks m (hP m (h.next_le.trans hm)) (hs.unused h.next_le hm)

theorem of_eq (hscopes : s₁.scopes = s.scopes) (hnext : s.next ≤ s₁.next) : Mints P s s₁ [] :=
  ⟨hnext, fun _ _ hm => hm.absent.of_scopes_eq hscopes, fun _ _ => nofun⟩

theorem refl (s : Store) : Mints P s s [] := of_eq rfl le_rfl

theorem identity (s : Store) : Mints P s s.identity.2 [] := of_eq rfl (Nat.le_succ _)

theorem newScope (p : Option ScopeId) (stack : StackId) (s : Store) :
    Mints P s (s.newScope p stack).2 [] :=
  ⟨le_rfl, fun _ _ hm => hm.absent.newScope p stack, fun _ _ => nofun⟩

/-- A value that was passed in or given is bound. -/
theorem declare (h : Mints P s s₁ l) {v : Value} (hv : ∀ m, P m → Unused m s s₁ → v.Lacks m)
    (scope : ScopeId) (n : String) : Mints P s (s₁.declare scope n v) l := by
  refine ⟨h.next_le, fun m hP hm => ?_, h.apart⟩
  have hm : Unused m s s₁ := ⟨hm.absent, hm.passed⟩
  exact (h.lacks m hP hm).declare scope n (hv m hP hm)

end Mints

/-! ## Steps without evaluation -/

section

variable {m : Nat} {s s' : Store} {scope : ScopeId} {v : Value}

theorem nameValue_lacks {n : String} (hs : s.Lacks m) (h : nameValue scope n s = (.ok v, s')) :
    v.Lacks m := by
  unfold nameValue at h
  split_ifs at h
  · cases h
    exact .undefined
  · exact hs.lookupFrom (lookup_eq_ok.mp h).1

theorem follow_lacks {names : List String} {w : Value} (hv : v.Lacks m)
    (h : follow v names s = (.ok w, s')) : w.Lacks m := by
  induction names generalizing v s with
  | nil =>
    cases h
    exact hv
  | cons n names ih =>
    obtain ⟨x, s₁, hx, h⟩ := Attempt.bind_eq_ok.mp h
    exact ih (hv.get? (property_eq_ok.mp hx).1) h

theorem elementType_lacks {name : String} {type : ElementType} (hs : s.Lacks m)
    (h : elementType scope name s = (.ok type, s')) :
    ∀ f, type = .component f → f.identity ≠ m := by
  rintro f rfl
  unfold elementType at h
  split_ifs at h with hhost
  · cases h
  · cases hsegments : segments name with
    | nil =>
      rw [hsegments] at h
      exact absurd h Attempt.fail_ne_ok
    | cons first rest =>
      rw [hsegments] at h
      obtain ⟨v, s₁, hv, h⟩ := Attempt.bind_eq_ok.mp h
      obtain ⟨w, s₂, hw, h⟩ := Attempt.bind_eq_ok.mp h
      have hlacks := follow_lacks (hs.lookupFrom (lookup_eq_ok.mp hv).1) hw
      cases w with
      | function g =>
        cases h
        cases hlacks with
        | function other => exact other
      | _ => exact absurd h Attempt.fail_ne_ok

theorem array_mints {P : Nat → Prop} {items : List Value}
    (h : Run.array items s = (.ok v, s')) :
    Mints P s s' [] ∧ ∀ m, Unused m s s' → (∀ w ∈ items, w.Lacks m) → v.Lacks m := by
  cases h
  exact ⟨.identity s, fun m hm hitems => .array (hm.next_ne (Nat.lt_succ_self _)) hitems⟩

theorem object_mints {P : Nat → Prop} {fields : Fields}
    (h : Run.object fields s = (.ok v, s')) :
    Mints P s s' [] ∧ ∀ m, Unused m s s' → (∀ e ∈ fields, e.2.Lacks m) → v.Lacks m := by
  cases h
  exact ⟨.identity s, fun m hm hfields => .object (hm.next_ne (Nat.lt_succ_self _)) hfields⟩

theorem closure_mints {P : Nat → Prop} {name : Option String} {params : List Param} {b : Body}
    (h : Run.closure name params b scope s = (.ok v, s')) :
    Mints P s s' [] ∧ ∀ m, Unused m s s' → v.Lacks m := by
  cases h
  exact ⟨.identity s, fun m hm => .function (hm.next_ne (Nat.lt_succ_self _))⟩

theorem bindProperties_mints {argument : Value} {names : List String}
    (h : bindProperties scope argument names s = (.ok (), s')) :
    Mints (fun m => argument.Lacks m) s s' [] := by
  induction names generalizing s with
  | nil =>
    cases h
    exact .refl _
  | cons n names ih =>
    obtain ⟨v, s₁, hv, hrest⟩ := Attempt.bind_eq_ok.mp h
    obtain ⟨hread, rfl⟩ := property_eq_ok.mp hv
    obtain ⟨u, s₂, hu, hrest⟩ := Attempt.bind_eq_ok.mp hrest
    cases hu
    have hdeclare := (Mints.refl s₁).declare (fun m hm _ => Value.Lacks.get? hm hread) scope n
    exact hdeclare.trans (ih hrest) fun _ hm _ => hm

theorem bindParams_mints {params : List Param} {arguments : List Value}
    (h : bindParams scope params arguments s = (.ok (), s')) :
    Mints (fun m => ∀ v ∈ arguments, v.Lacks m) s s' [] := by
  induction params generalizing s arguments with
  | nil =>
    cases h
    exact .refl _
  | cons p params ih =>
    have hargument : ∀ m, (∀ v ∈ arguments, v.Lacks m) → (arguments.headD .undefined).Lacks m := by
      intro m hm
      cases arguments with
      | nil => exact .undefined
      | cons v vs => exact hm v List.mem_cons_self
    obtain ⟨s₁, hmints, hrest⟩ : ∃ s₁, Mints (fun m => ∀ v ∈ arguments, v.Lacks m) s s₁ [] ∧
        bindParams scope params arguments.tail s₁ = (.ok (), s') := by
      cases p with
      | name n =>
        obtain ⟨u, s₁, hu, hrest⟩ := Attempt.bind_eq_ok.mp h
        cases hu
        exact ⟨_, (Mints.refl s).declare (fun m hm _ => hargument m hm) scope n, hrest⟩
      | properties names =>
        obtain ⟨u, s₁, hu, hrest⟩ := Attempt.bind_eq_ok.mp h
        exact ⟨s₁, (bindProperties_mints hu).weaken hargument, hrest⟩
    exact hmints.trans (ih hrest) fun m hm _ v hv => hm v (List.mem_of_mem_tail hv)

@[simp] theorem next_record (id : StackId) (x : Recorded) (isLast : Bool) (s : Store) :
    (s.record id x isLast).next = s.next := by
  unfold Store.record
  cases s.entries id with
  | nil => rfl
  | cons top rest => cases isLast <;> rfl

theorem callBuiltin_mints {P : Nat → Prop} {b : Builtin} {arguments : List Value}
    (h : callBuiltin b arguments s = (.ok v, s')) :
    Mints P s s' [] ∧ ∀ m, (∀ w ∈ arguments, w.Lacks m) → v.Lacks m := by
  cases b with
  | recordParent id =>
    have hfirst : ∀ m, (∀ w ∈ arguments, w.Lacks m) → (arguments.headD .undefined).Lacks m := by
      intro m hm
      cases arguments with
      | nil => exact .undefined
      | cons w ws => exact hm w List.mem_cons_self
    generalize hw : arguments.headD .undefined = w at hfirst
    rw [callBuiltin, hw] at h
    cases w with
    | location r =>
      cases h
      exact ⟨.of_eq rfl le_rfl, fun m _ => .location r⟩
    | object identity fields =>
      cases hplace : Value.location? (.object identity fields) with
      | none =>
        simp only [hplace] at h
        cases h
        exact ⟨.refl _, hfirst⟩
      | some place =>
        simp only [hplace] at h
        cases h
        exact ⟨.of_eq rfl le_rfl, fun m _ => .location _⟩
    | _ =>
      cases h
      exact ⟨.refl _, hfirst⟩
  | recordExpression id =>
    cases h
    refine ⟨.of_eq (Store.scopes_record _ _ _ _) (next_record _ _ _ _).ge, fun m hm => ?_⟩
    exact .getD fun x hx => hm x (List.mem_of_getElem? hx)

theorem boundStack_store {n : String} {id : StackId}
    (h : boundStack n scope s = (.ok id, s')) : s' = s := by
  obtain ⟨found, s₁, hfound, h⟩ := Attempt.bind_eq_ok.mp h
  cases hfound
  cases hlookup : s.lookup n scope with
  | none =>
    rw [hlookup] at h
    exact absurd h Attempt.fail_ne_ok
  | some w =>
    rw [hlookup] at h
    cases w with
    | stack id => exact (Attempt.pure_eq_ok.mp h).2.symm
    | _ => exact absurd h Attempt.fail_ne_ok

theorem helper_mints {P : Nat → Prop} {x : Helper} (h : helper scope x s = (.ok v, s')) :
    Mints P s s' [] ∧ ∀ m, v.Lacks m := by
  cases x with
  | newStack =>
    cases h
    exact ⟨.refl _, fun _ => .stack _⟩
  | recordParent n =>
    obtain ⟨id, s₁, hid, h⟩ := Attempt.bind_eq_ok.mp h
    cases h
    rw [boundStack_store hid]
    exact ⟨.refl s, fun _ => .builtin _⟩
  | recordExpression n =>
    obtain ⟨id, s₁, hid, h⟩ := Attempt.bind_eq_ok.mp h
    cases h
    rw [boundStack_store hid]
    exact ⟨.refl s, fun _ => .builtin _⟩

end

end Eval

end MarkupTrace
