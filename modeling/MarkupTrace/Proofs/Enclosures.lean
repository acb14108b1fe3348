import MarkupTrace.Proofs.StoreTyping
import MarkupTrace.Proofs.Visits

/-!
# Enclosures

A root scope and the scopes inside of it enclose some names if these are bound in the root scope
only, each to what was declared under it. They stay enclosed as long as the code that runs inside
uses names as it is allowed to: in particular it binds none of the enclosed ones. Code comes inside
by way of functions that were made there, so all functions that a store or a value holds are looked
at.
-/

namespace MarkupTrace

open Source Annotate Eval

/-! ## Functions in values -/

namespace Value

/-- All functions that the value holds fulfil `P`. -/
inductive Every (P : Function → Prop) : Value → Prop
  | undefined : Every P .undefined
  | null : Every P .null
  | bool (b : Bool) : Every P (.bool b)
  | number (d : Double) : Every P (.number d)
  | text (s : String) : Every P (.text s)
  | array (identity : Nat) {items : List Value} (h : ∀ v ∈ items, Every P v) :
      Every P (.array identity items)
  | object (identity : Nat) {fields : Fields} (h : ∀ e ∈ fields, Every P e.2) :
      Every P (.object identity fields)
  | element {c : CreatedElement Value} (type : ∀ f, c.type = .component f → P f)
      (props : ∀ e ∈ c.props, Every P e.2) (owner : ∀ v, c.owner = some v → Every P v)
      (source : ∀ v, c.source = some v → Every P v) : Every P (.element c)
  | function {f : Function} (h : P f) : Every P (.function f)
  | builtin (b : Builtin) : Every P (.builtin b)
  | stack (id : StackId) : Every P (.stack id)
  | location (r : RecordRef) : Every P (.location r)

namespace Every

variable {P Q : Function → Prop} {v w : Value}

theorem imp (h : v.Every P) (hPQ : ∀ f, P f → Q f) : v.Every Q := by
  induction h with
  | undefined => exact .undefined
  | null => exact .null
  | bool b => exact .bool b
  | number d => exact .number d
  | text s => exact .text s
  | array identity _ ih => exact .array identity ih
  | object identity _ ih => exact .object identity ih
  | element type _ _ _ props owner source =>
    exact .element (fun f hf => hPQ f (type f hf)) props owner source
  | function hf => exact .function (hPQ _ hf)
  | builtin b => exact .builtin b
  | stack id => exact .stack id
  | location r => exact .location r

theorem getD {o : Option Value} (h : ∀ v, o = some v → v.Every P) :
    (o.getD .undefined).Every P := by
  cases o with
  | none => exact .undefined
  | some v => exact h v rfl

theorem keyed {fields : Fields} (h : ∀ e ∈ fields, e.2.Every P) (key : String) :
    ((fields.get? key).getD .undefined).Every P :=
  getD fun _ hv => h _ (Keyed.mem_of_get? hv)

theorem headD {vs : List Value} (h : ∀ v ∈ vs, v.Every P) : (vs.headD .undefined).Every P := by
  cases vs with
  | nil => exact .undefined
  | cons v vs => exact h v List.mem_cons_self

theorem get? (h : v.Every P) {p : String} (hp : v.get? p = some w) : w.Every P := by
  cases part_of_get? hp with
  | undefined => exact .undefined
  | number _ d => exact .number d
  | text _ s => exact .text s
  | item _ hw =>
    cases h with
    | array _ hitems => exact hitems _ hw
  | field _ he =>
    cases h with
    | object _ hfields => exact hfields _ he
  | props =>
    cases h with
    | element _ props _ _ => exact .object _ props
  | type hf =>
    cases h with
    | element type _ _ _ => exact .function (type _ hf)
  | owner hv =>
    cases h with
    | element _ _ owner _ => exact owner _ hv
  | source hv =>
    cases h with
    | element _ _ _ source => exact source _ hv

end Every

end Value

/-! ## Scopes inside a root scope -/

namespace Store

/-- Scopes stay where they are. -/
def Extends (s s' : Store) : Prop := ∀ (i : Nat) (sc : Scope), s.scopes[i]? = some sc →
  ∃ sc' : Scope, s'.scopes[i]? = some sc' ∧ sc'.parent = sc.parent

namespace Extends

variable {s s₁ s₂ : Store}

theorem refl (s : Store) : s.Extends s := fun _ sc hi => ⟨sc, hi, rfl⟩

theorem trans (h : s.Extends s₁) (h' : s₁.Extends s₂) : s.Extends s₂ := by
  intro i sc hi
  obtain ⟨sc₁, hi₁, hp₁⟩ := h i sc hi
  obtain ⟨sc₂, hi₂, hp₂⟩ := h' i sc₁ hi₁
  exact ⟨sc₂, hi₂, hp₂.trans hp₁⟩

theorem of_scopes_eq (h : s₁.scopes = s.scopes) : s.Extends s₁ :=
  fun i sc hi => ⟨sc, by rw [h, hi], rfl⟩

theorem lt (h : s.Extends s₁) {i : Nat} (hi : i < s.scopes.size) : i < s₁.scopes.size := by
  obtain ⟨sc, hsc, -⟩ := h i _ (Array.getElem?_eq_getElem hi)
  exact (Array.getElem?_eq_some_iff.mp hsc).1

theorem newScope (p : Option ScopeId) (stack : StackId) (s : Store) :
    s.Extends (s.newScope p stack).2 := (grows_newScope p stack s).scopes

theorem declare (scope : ScopeId) (n : String) (v : Value) (s : Store) :
    s.Extends (s.declare scope n v) := (grows_declare scope.index n v s).scopes

end Extends

/-- The scope is a root scope or inside of it. -/
inductive Inside (s : Store) (root : Nat) : Nat → Prop
  | root (made : root < s.scopes.size) : Inside s root root
  | inner {i : Nat} {sc : Scope} {p : ScopeId} (found : s.scopes[i]? = some sc)
      (parent : sc.parent = some p) (earlier : p.index < i) (h : Inside s root p.index) :
      Inside s root i

namespace Inside

variable {s s' : Store} {root i : Nat}

theorem lt (h : s.Inside root i) : i < s.scopes.size := by
  cases h with
  | root made => exact made
  | inner found _ _ _ => exact (Array.getElem?_eq_some_iff.mp found).1

theorem grow (h : s.Inside root i) (hs : s.Extends s') : s'.Inside root i := by
  induction h with
  | root made => exact .root (hs.lt made)
  | inner found parent earlier _ ih =>
    obtain ⟨sc', hi, hp⟩ := hs _ _ found
    exact .inner hi (hp.trans parent) earlier ih

/-- By induction on the derivation; the parents of a scope that was there were there too. -/
theorem shrink (h : s'.Inside root i) (hs : s.Extends s') (hi : i < s.scopes.size) :
    s.Inside root i := by
  induction h with
  | root _ => exact .root hi
  | inner found parent earlier _ ih =>
    obtain ⟨sc', hi', hp⟩ := hs _ _ (Array.getElem?_eq_getElem hi)
    cases found.symm.trans hi'
    exact .inner (Array.getElem?_eq_getElem hi) (hp.symm.trans parent) earlier
      (ih (earlier.trans hi))

/-- Other root scopes are outside. -/
theorem parent_ne_none (h : s.Inside root i) (hne : i ≠ root) {sc : Scope}
    (hsc : s.scopes[i]? = some sc) : sc.parent ≠ none := by
  cases h with
  | root _ => exact absurd rfl hne
  | inner found parent _ _ =>
    cases found.symm.trans hsc
    simp [parent]

/-- What is inside a new scope's parent is where the new scope is. -/
theorem of_newScope {p : ScopeId} {stack : StackId} (hroot : root < s.scopes.size)
    (hp : p.index < s.scopes.size)
    (h : (s.newScope (some p) stack).2.Inside root s.scopes.size) : s.Inside root p.index := by
  cases h with
  | root _ => exact absurd hroot (Nat.lt_irrefl _)
  | inner found parent _ h =>
    rw [getElem?_newScope, if_pos rfl] at found
    cases found
    cases parent
    exact h.shrink (.newScope (some p) stack s) hp

end Inside

end Store

/-! ## What is enclosed -/

/-- A root scope, the names it encloses with what is declared under them, and the uses of names that
code inside may make. -/
structure Enclosure where
  root : Nat
  names : List String
  declared : Keyed Value
  allows : Use → Prop
  avoids : ∀ n, allows (.binds n) → n ∉ names

namespace Enclosure

variable (E : Enclosure)

/-- Code with these uses may run in the scope. -/
def Licenses (s : Store) (scope : ScopeId) (uses : List Use) : Prop :=
  scope.index < s.scopes.size ∧ (s.Inside E.root scope.index → ∀ u ∈ uses, E.allows u)

/-- The function may be called. -/
def Admits (s : Store) (f : Function) : Prop :=
  E.Licenses s f.scope (f.params.flatMap Param.uses ++ f.body.uses)

/-- The names are bound in the root scope, to what is declared, and nowhere inside of it. -/
structure Kept (s : Store) : Prop where
  root : ∃ sc : Scope, s.scopes[E.root]? = some sc ∧ sc.parent = none ∧
    ∀ n ∈ E.names, sc.bindings.get? n = E.declared.get? n
  inner : ∀ (i : Nat) (sc : Scope), s.scopes[i]? = some sc → s.Inside E.root i → i ≠ E.root →
    ∀ n ∈ E.names, sc.bindings.get? n = none
  functions : ∀ (i : Nat) (sc : Scope), s.scopes[i]? = some sc →
    ∀ e ∈ sc.bindings, e.2.Every (E.Admits s)

variable {E}

section

variable {s s' : Store} {scope : ScopeId} {us us' : List Use} {n : String} {v : Value}

theorem Licenses.grow (h : E.Licenses s scope us) (hs : s.Extends s') : E.Licenses s' scope us :=
  ⟨hs.lt h.1, fun hi => h.2 (hi.shrink hs h.1)⟩

theorem Licenses.mono (h : E.Licenses s scope us) (hsub : us' ⊆ us) : E.Licenses s scope us' :=
  ⟨h.1, fun hi u hu => h.2 hi u (hsub hu)⟩

theorem Licenses.left (h : E.Licenses s scope (us ++ us')) : E.Licenses s scope us :=
  h.mono (List.subset_append_left us us')

theorem Licenses.right (h : E.Licenses s scope (us ++ us')) : E.Licenses s scope us' :=
  h.mono (List.subset_append_right us us')

theorem grow_every (h : v.Every (E.Admits s)) (hs : s.Extends s') : v.Every (E.Admits s') :=
  h.imp fun _ hf => Licenses.grow hf hs

namespace Kept

theorem root_lt (h : E.Kept s) : E.root < s.scopes.size := by
  obtain ⟨sc, hsc, -⟩ := h.root
  exact (Array.getElem?_eq_some_iff.mp hsc).1

theorem of_scopes_eq (h : E.Kept s) (hs : s'.scopes = s.scopes) : E.Kept s' := by
  have hback : s'.Extends s := .of_scopes_eq hs.symm
  refine ⟨hs ▸ h.root, ?_, ?_⟩
  · intro i sc hsc hi
    exact h.inner i sc (hs ▸ hsc) (hi.grow hback)
  · intro i sc hsc e he
    exact grow_every (h.functions i sc (hs ▸ hsc) e he) (.of_scopes_eq hs)

/-- An enclosed name stands for what is declared under it. -/
theorem lookup_declared (h : E.Kept s) {i : Nat} (hi : s.Inside E.root i) (hn : n ∈ E.names) :
    s.lookupFrom n i = E.declared.get? n := by
  obtain ⟨root, hroot, houtermost, hdeclared⟩ := h.root
  induction hi with
  | root made =>
    rw [Store.lookupFrom, hroot]
    simp only [houtermost, hdeclared n hn]
    cases E.declared.get? n <;> rfl
  | @inner i sc p found parent earlier hinside ih =>
    have hne : i ≠ E.root := by
      rintro rfl
      cases found.symm.trans hroot
      cases houtermost.symm.trans parent
    have hnone := h.inner i sc found (.inner found parent earlier hinside) hne n hn
    rw [Store.lookupFrom, found]
    simp only [hnone, parent, earlier, if_true]
    exact ih

/-- Whatever is looked up holds admitted functions only. -/
theorem lookup_every (h : E.Kept s) {i : Nat} (hv : s.lookupFrom n i = some v) :
    v.Every (E.Admits s) := by
  induction i using Nat.strongRecOn with
  | ind i ih =>
    rw [Store.lookupFrom] at hv
    split at hv
    · cases hv
    · rename_i sc hsc
      split at hv
      · rename_i w hw
        cases hv
        exact h.functions i sc hsc _ (Keyed.mem_of_get? hw)
      · split at hv
        · cases hv
        · split_ifs at hv with hlt
          exact ih _ hlt hv

/-- A new scope binds nothing yet. -/
theorem newScope (h : E.Kept s) (p : Option ScopeId) (stack : StackId) :
    E.Kept (s.newScope p stack).2 := by
  have hgrows := Store.Extends.newScope p stack s
  obtain ⟨root, hroot, houtermost, hdeclared⟩ := h.root
  refine ⟨⟨root, ?_, houtermost, hdeclared⟩, ?_, ?_⟩
  · rw [Store.getElem?_newScope, if_neg (Array.getElem?_eq_some_iff.mp hroot).1.ne, hroot]
  · intro i sc hsc hi hne
    rw [Store.getElem?_newScope] at hsc
    split_ifs at hsc
    · cases hsc
      exact fun _ _ => rfl
    · exact h.inner i sc hsc (hi.shrink hgrows (Array.getElem?_eq_some_iff.mp hsc).1) hne
  · intro i sc hsc
    rw [Store.getElem?_newScope] at hsc
    split_ifs at hsc
    · cases hsc
      exact nofun
    · exact fun e he => grow_every (h.functions i sc hsc e he) hgrows

/-- A binding that may be made keeps the names enclosed. -/
theorem declare (h : E.Kept s) (hscope : E.Licenses s scope [.binds n])
    (hv : v.Every (E.Admits s)) : E.Kept (s.declare scope n v) := by
  have hgrows := Store.Extends.declare scope n v s
  -- Inside, the name is none of the enclosed ones, so their bindings stay as they are.
  have hothers : ∀ (i : Nat) (sc : Scope), s.Inside E.root i → ∀ m ∈ E.names,
      (if scope.index = i then { sc with bindings := sc.bindings.insert n v } else sc).bindings.get?
        m = sc.bindings.get? m := by
    intro i sc hi m hm
    split_ifs with heq
    · refine Keyed.get?_insert_of_ne ?_ v sc.bindings
      rintro rfl
      exact E.avoids m (hscope.2 (heq ▸ hi) _ List.mem_cons_self) hm
    · rfl
  obtain ⟨root, hroot, houtermost, hdeclared⟩ := h.root
  refine ⟨⟨_, by rw [Store.getElem?_declare, hroot, Option.map_some], ?_, ?_⟩, ?_, ?_⟩
  · split_ifs <;> exact houtermost
  · intro m hm
    rw [hothers _ root (.root (Array.getElem?_eq_some_iff.mp hroot).1) m hm, hdeclared m hm]
  · intro i sc' hsc' hi hne m hm
    rw [Store.getElem?_declare] at hsc'
    obtain ⟨sc, hsc, rfl⟩ := Option.map_eq_some_iff.mp hsc'
    have hi' := hi.shrink hgrows (Array.getElem?_eq_some_iff.mp hsc).1
    rw [hothers i sc hi' m hm, h.inner i sc hsc hi' hne m hm]
  · intro i sc' hsc'
    rw [Store.getElem?_declare] at hsc'
    obtain ⟨sc, hsc, rfl⟩ := Option.map_eq_some_iff.mp hsc'
    have hold : ∀ e ∈ sc.bindings, e.2.Every (E.Admits (s.declare scope n v)) := fun e he =>
      grow_every (h.functions i sc hsc e he) hgrows
    split_ifs
    · exact Keyed.forall_mem_insert hold (grow_every hv hgrows) n
    · exact hold

end Kept

/-! ## Declaring a name -/

/-- The same enclosure with one more declaration. -/
def declaring (E : Enclosure) (n : String) (v : Value) : Enclosure :=
  { E with declared := E.declared.insert n v }

theorem Kept.declaring (h : E.Kept s) (n : String) (hv : v.Every (E.Admits s)) :
    (E.declaring n v).Kept (s.declare ⟨E.root⟩ n v) := by
  have hgrows := Store.Extends.declare ⟨E.root⟩ n v s
  obtain ⟨root, hroot, houtermost, hdeclared⟩ := h.root
  refine ⟨⟨{ root with bindings := root.bindings.insert n v }, ?_, houtermost, ?_⟩, ?_, ?_⟩
  · show (s.declare ⟨E.root⟩ n v).scopes[E.root]? = _
    rw [Store.getElem?_declare, hroot, Option.map_some, if_pos rfl]
  · intro m hm
    show (root.bindings.insert n v).get? m = (E.declared.insert n v).get? m
    by_cases hmn : m = n
    · rw [hmn, Keyed.get?_insert_self, Keyed.get?_insert_self]
    · rw [Keyed.get?_insert_of_ne hmn, Keyed.get?_insert_of_ne hmn, hdeclared m hm]
  · intro i sc' hsc' hi hne
    rw [Store.getElem?_declare] at hsc'
    obtain ⟨sc, hsc, rfl⟩ := Option.map_eq_some_iff.mp hsc'
    have hother : E.root ≠ i := Ne.symm hne
    rw [if_neg hother]
    exact h.inner i sc hsc (hi.shrink hgrows (Array.getElem?_eq_some_iff.mp hsc).1) hne
  · intro i sc' hsc'
    rw [Store.getElem?_declare] at hsc'
    obtain ⟨sc, hsc, rfl⟩ := Option.map_eq_some_iff.mp hsc'
    have hold : ∀ e ∈ sc.bindings, e.2.Every (E.Admits (s.declare ⟨E.root⟩ n v)) := fun e he =>
      grow_every (h.functions i sc hsc e he) hgrows
    split_ifs
    · exact Keyed.forall_mem_insert hold (grow_every hv hgrows) n
    · exact hold

end

end Enclosure

end MarkupTrace
