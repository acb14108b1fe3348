import MarkupTrace.Eval.Module
import MarkupTrace.Proofs.Origins

/-!
# Typed stores

Code only ever runs in scopes that belong to its origin. A typing says of which origin root scopes
are; scopes inside them are of the same one. In a sound store the names that an annotated module
declares for itself stand where code of that module looks them up, and nowhere else is there a
builtin or a stack: all other bindings are clean values. Evaluation keeps this, and it never goes
back on what a store holds.
-/

namespace MarkupTrace

open Source Annotate

/-- The origins of root scopes. -/
abbrev Typing := Nat → Option Origin

namespace Store

inductive Home (Γ : Typing) (s : Store) : Nat → Origin → Prop
  | root {i : Nat} {sc : Scope} {o : Origin} (found : s.scopes[i]? = some sc)
      (outermost : sc.parent = none) (typed : Γ i = some o) : Home Γ s i o
  | inner {i : Nat} {sc : Scope} {p : ScopeId} {o : Origin} (found : s.scopes[i]? = some sc)
      (inside : sc.parent = some p) (earlier : p.index < i) (home : Home Γ s p.index o) :
      Home Γ s i o

/-- Scopes stay where they are, and so do records, one perhaps excepted. -/
structure Grows (but : Option Nat) (s s' : Store) : Prop where
  scopes : ∀ (i : Nat) (sc : Scope), s.scopes[i]? = some sc →
    ∃ sc' : Scope, s'.scopes[i]? = some sc' ∧ sc'.parent = sc.parent
  size : s.records.size ≤ s'.records.size
  records : ∀ i < s.records.size, but ≠ some i → s'.records[i]? = s.records[i]?

namespace Grows

variable {but : Option Nat} {s s₁ s₂ : Store}

theorem of_eq (hscopes : s₁.scopes = s.scopes) (hrecords : s₁.records = s.records) :
    Grows but s s₁ := by
  refine ⟨?_, by rw [hrecords], by simp [hrecords]⟩
  intro i sc hi
  exact ⟨sc, by rw [hscopes, hi], rfl⟩

theorem refl (s : Store) : Grows but s s := of_eq rfl rfl

theorem trans (h₁ : Grows but s s₁) (h₂ : Grows but s₁ s₂) : Grows but s s₂ := by
  refine ⟨?_, h₁.size.trans h₂.size, ?_⟩
  · intro i sc hi
    obtain ⟨sc₁, hi₁, hp₁⟩ := h₁.scopes i sc hi
    obtain ⟨sc₂, hi₂, hp₂⟩ := h₂.scopes i sc₁ hi₁
    exact ⟨sc₂, hi₂, hp₂.trans hp₁⟩
  · intro i hi hbut
    rw [h₂.records i (hi.trans_le h₁.size) hbut, h₁.records i hi hbut]

theorem weaken (h : Grows none s s₁) : Grows but s s₁ :=
  ⟨h.scopes, h.size, fun i hi _ => h.records i hi nofun⟩

/-- What changes only a record that is new has changed nothing that was there. -/
theorem strengthen {r : Nat} (h : Grows (some r) s s₁) (hr : s.records.size ≤ r) :
    Grows none s s₁ := by
  refine ⟨h.scopes, h.size, fun i hi _ => h.records i hi ?_⟩
  intro heq
  cases heq
  omega

theorem recorded (h : Grows but s s₁) {r : RecordRef} (hr : r.index < s.records.size)
    (hbut : but ≠ some r.index) : s₁.recorded r = s.recorded r := by
  unfold Store.recorded recorded?
  rw [h.records r.index hr hbut]

end Grows

namespace Home

variable {Γ Γ' : Typing} {but : Option Nat} {s s' : Store} {i : Nat} {o o' : Origin}

theorem exists_scope (h : Home Γ s i o) : ∃ sc, s.scopes[i]? = some sc := by
  cases h with
  | root found _ _ => exact ⟨_, found⟩
  | inner found _ _ _ => exact ⟨_, found⟩

theorem lt (h : Home Γ s i o) : i < s.scopes.size := by
  obtain ⟨sc, hi⟩ := h.exists_scope
  exact (Array.getElem?_eq_some_iff.mp hi).1

theorem mono (hs : Grows but s s') (hΓ : ∀ i o, i < s.scopes.size → Γ i = some o → Γ' i = some o)
    (h : Home Γ s i o) : Home Γ' s' i o := by
  induction h with
  | root found outermost typed =>
    obtain ⟨sc', hi, hp⟩ := hs.scopes _ _ found
    exact .root hi (hp.trans outermost) (hΓ _ _ (Array.getElem?_eq_some_iff.mp found).1 typed)
  | inner found inside earlier _ ih =>
    obtain ⟨sc', hi, hp⟩ := hs.scopes _ _ found
    exact .inner hi (hp.trans inside) earlier ih

theorem grow (h : Home Γ s i o) (hs : Grows but s s') : Home Γ s' i o := h.mono hs fun _ _ _ h => h

/-- By induction on the derivation; the parents of a scope that was there were there too. -/
theorem shrink (h : Home Γ' s' i o) (hs : Grows but s s')
    (hΓ : ∀ i < s.scopes.size, Γ' i = Γ i) (hi : i < s.scopes.size) : Home Γ s i o := by
  induction h with
  | root found outermost typed =>
    obtain ⟨sc', hi', hp⟩ := hs.scopes _ _ (Array.getElem?_eq_getElem hi)
    cases found.symm.trans hi'
    exact .root (Array.getElem?_eq_getElem hi) (hp.symm.trans outermost) ((hΓ _ hi).symm.trans typed)
  | inner found inside earlier _ ih =>
    obtain ⟨sc', hi', hp⟩ := hs.scopes _ _ (Array.getElem?_eq_getElem hi)
    cases found.symm.trans hi'
    exact .inner (Array.getElem?_eq_getElem hi) (hp.symm.trans inside) earlier
      (ih (earlier.trans hi))

theorem unique (h : Home Γ s i o) (h' : Home Γ s i o') : o = o' := by
  induction h with
  | root found outermost typed =>
    cases h' with
    | root found' outermost' typed' => exact Option.some.inj (typed.symm.trans typed')
    | inner found' inside' _ _ =>
      cases found.symm.trans found'
      cases outermost.symm.trans inside'
  | inner found inside _ _ ih =>
    cases h' with
    | root found' outermost' _ =>
      cases found.symm.trans found'
      cases outermost'.symm.trans inside
    | inner found' inside' _ home' =>
      cases found.symm.trans found'
      cases inside.symm.trans inside'
      exact ih home'

end Home

end Store

/-! ## Reading properties -/

theorem Keyed.mem_of_get? {α : Type} {key : String} {entries : Keyed α} {v : α}
    (h : entries.get? key = some v) : (key, v) ∈ entries := by
  induction entries with
  | nil => cases h
  | cons e rest ih =>
    obtain ⟨k, w⟩ := e
    rw [Keyed.get?] at h
    split at h
    · rename_i hk
      cases h
      exact hk ▸ List.mem_cons_self
    · exact List.mem_cons_of_mem _ (ih h)

/-- What can be read off a value: a plain value, or something that is in it. -/
inductive Value.Part : Value → Value → Prop
  | undefined (v : Value) : Part v .undefined
  | number (v : Value) (n : Double) : Part v (.number n)
  | text (v : Value) (s : String) : Part v (.text s)
  | item (identity : Nat) {items : List Value} {w : Value} (h : w ∈ items) :
      Part (.array identity items) w
  | field (identity : Nat) {fields : Fields} {e : String × Value} (h : e ∈ fields) :
      Part (.object identity fields) e.2
  | props (c : CreatedElement Value) : Part (.element c) (.props c)
  | type {c : CreatedElement Value} {f : Function} (h : c.type = .component f) :
      Part (.element c) (.function f)
  | owner {c : CreatedElement Value} {w : Value} (h : c.owner = some w) : Part (.element c) w
  | source {c : CreatedElement Value} {w : Value} (h : c.source = some w) : Part (.element c) w

theorem Value.Part.getD {v : Value} {o : Option Value} (h : ∀ w, o = some w → Part v w) :
    Part v (o.getD .undefined) := by
  cases o with
  | none => exact .undefined v
  | some w => exact h w rfl

/-- Properties are parts of the value or plain. -/
theorem Value.part_of_get? {v w : Value} {p : String} (hp : v.get? p = some w) : Part v w := by
  cases v with
  | undefined => cases hp
  | null => cases hp
  | array identity items =>
    simp only [Value.get?] at hp
    split at hp
    · cases hp; exact .number _ _
    · cases hp
      refine .getD fun w hw => ?_
      obtain ⟨i, -, hi⟩ := Option.bind_eq_some_iff.mp hw
      exact .item identity (List.mem_of_getElem? hi)
  | object identity fields =>
    cases hp
    exact .getD fun w hw => .field identity (Keyed.mem_of_get? hw)
  | text t =>
    simp only [Value.get?] at hp
    split at hp
    · cases hp; exact .number _ _
    · cases hp; exact .undefined _
  | element c =>
    simp only [Value.get?] at hp
    split at hp
    · cases hp; exact .props c
    · split at hp
      · cases hp; exact .text _ _
      · rename_i hf
        cases hp
        exact .type hf
    · cases hp; exact .getD fun w hw => .owner hw
    · cases hp; exact .getD fun w hw => .source hw
    · cases hp; exact .undefined _
  | location r =>
    simp only [Value.get?] at hp
    split at hp
    · cases hp; exact .text _ _
    · cases hp; exact .number _ _
    · cases hp; exact .number _ _
    · cases hp
      cases r.place.line with
      | none => exact .undefined _
      | some n => exact .number _ _
    · cases hp; exact .undefined _
  | _ => cases hp; exact .undefined _

/-! ## Clean values -/

/-- A function of known code, made in a scope of the origin of its code. -/
def Function.Clean (home : Nat → Origin → Prop) (f : Function) : Prop :=
  ∃ o b, home f.scope.index o ∧ f.body = o.body b ∧
    o.Fits (f.params.flatMap Param.mentions ++ b.mentions)

namespace Value

/-- Nothing in the value is a builtin or a stack, and its functions are clean. -/
inductive Clean (home : Nat → Origin → Prop) : Value → Prop
  | undefined : Clean home .undefined
  | null : Clean home .null
  | bool (b : Bool) : Clean home (.bool b)
  | number (n : Double) : Clean home (.number n)
  | text (s : String) : Clean home (.text s)
  | array (identity : Nat) {items : List Value} (h : ∀ v ∈ items, Clean home v) :
      Clean home (.array identity items)
  | object (identity : Nat) {fields : Fields} (h : ∀ e ∈ fields, Clean home e.2) :
      Clean home (.object identity fields)
  | element {c : CreatedElement Value} (type : ∀ f, c.type = .component f → f.Clean home)
      (props : ∀ e ∈ c.props, Clean home e.2) (owner : ∀ v, c.owner = some v → Clean home v)
      (source : ∀ v, c.source = some v → Clean home v) : Clean home (.element c)
  | function {f : Function} (h : f.Clean home) : Clean home (.function f)
  | location (r : RecordRef) : Clean home (.location r)

/-- What annotated modules declare: no property of it is a function. -/
inductive Inert : Value → Prop
  | undefined : Inert .undefined
  | number (n : Double) : Inert (.number n)
  | text (s : String) : Inert (.text s)
  | builtin (b : Builtin) : Inert (.builtin b)
  | stack (id : StackId) : Inert (.stack id)

theorem Inert.get? {v w : Value} {p : String} (h : v.Inert) (hp : v.get? p = some w) : w.Inert := by
  cases h with
  | undefined => cases hp
  | number n => cases hp; exact .undefined
  | builtin b => cases hp; exact .undefined
  | stack id => cases hp; exact .undefined
  | text t =>
    simp only [Value.get?] at hp
    split at hp
    · cases hp; exact .number _
    · cases hp; exact .undefined

end Value

theorem Keyed.forall_mem_insert {α : Type} {P : α → Prop} {entries : Keyed α}
    (h : ∀ e ∈ entries, P e.2) {v : α} (hv : P v) (key : String) :
    ∀ e ∈ entries.insert key v, P e.2 := by
  induction entries with
  | nil => simpa [Keyed.insert] using hv
  | cons e rest ih =>
    obtain ⟨k, w⟩ := e
    rw [List.forall_mem_cons] at h
    rw [Keyed.insert]
    split_ifs
    · exact List.forall_mem_cons.mpr ⟨hv, h.2⟩
    · exact List.forall_mem_cons.mpr ⟨hv, List.forall_mem_cons.mpr h⟩
    · exact List.forall_mem_cons.mpr ⟨h.1, ih h.2⟩

theorem Keyed.forall_mem_extend {α : Type} {P : α → Prop} {entries added : Keyed α}
    (h : ∀ e ∈ entries, P e.2) (hadded : ∀ e ∈ added, P e.2) :
    ∀ e ∈ entries.extend added, P e.2 := by
  unfold Keyed.extend
  induction added generalizing entries with
  | nil => exact h
  | cons e rest ih =>
    rw [List.forall_mem_cons] at hadded
    exact ih (Keyed.forall_mem_insert h hadded.1 e.1) hadded.2

namespace Value.Clean

variable {home home' : Nat → Origin → Prop} {v w : Value}

theorem mono (h : v.Clean home) (hhome : ∀ i o, home i o → home' i o) : v.Clean home' := by
  have hfunction : ∀ f : Function, f.Clean home → f.Clean home' := by
    rintro f ⟨o, b, hf, hb⟩
    exact ⟨o, b, hhome _ _ hf, hb⟩
  induction h with
  | undefined => exact .undefined
  | null => exact .null
  | bool b => exact .bool b
  | number n => exact .number n
  | text s => exact .text s
  | array identity _ ih => exact .array identity ih
  | object identity _ ih => exact .object identity ih
  | element type _ _ _ props owner source =>
    exact .element (fun f hf => hfunction f (type f hf)) props owner source
  | function hf => exact .function (hfunction _ hf)
  | location r => exact .location r

theorem getD {o : Option Value} (h : ∀ v, o = some v → v.Clean home) :
    (o.getD .undefined).Clean home := by
  cases o with
  | none => exact .undefined
  | some v => exact h v rfl

theorem keyed {fields : Fields} (h : ∀ e ∈ fields, e.2.Clean home) (key : String) :
    ((fields.get? key).getD .undefined).Clean home :=
  getD fun _ hv => h _ (Keyed.mem_of_get? hv)

/-- The properties of a clean value are clean. -/
theorem get? (h : v.Clean home) {p : String} (hp : v.get? p = some w) : w.Clean home := by
  cases part_of_get? hp with
  | undefined => exact .undefined
  | number _ n => exact .number n
  | text _ s => exact .text s
  | item _ hw =>
    cases h with
    | array _ hitems => exact hitems _ hw
  | field _ he =>
    cases h with
    | object _ hfields => exact hfields _ he
  | props =>
    cases h with
    | element _ props _ _ => exact .object _ props
  | type hf =>
    cases h with
    | element type _ _ _ => exact .function (type _ hf)
  | owner hv =>
    cases h with
    | element _ _ owner _ => exact owner _ hv
  | source hv =>
    cases h with
    | element _ _ _ source => exact source _ hv

/-- Spreading a clean value gives clean fields. -/
theorem spread (h : v.Clean home) {fields added : Fields} (hfields : ∀ e ∈ fields, e.2.Clean home)
    {s s' : Store} (hs : Run.spread fields v s = (.ok added, s')) : ∀ e ∈ added, e.2.Clean home := by
  cases h with
  | undefined => cases hs; exact hfields
  | null => cases hs; exact hfields
  | object identity hadded =>
    cases hs
    exact Keyed.forall_mem_extend hfields hadded
  | _ => exact absurd hs Attempt.fail_ne_ok

end Value.Clean

/-! ## Sound stores -/

namespace Annotate

/-- What an annotated module declares is bound: all that its code looks up, and of the other
generated names nothing that could be called. -/
structure Instance.Declared (i : Instance) (bindings : Keyed Value) : Prop where
  inert : ∀ n ∈ i.names.toList, ∀ v, bindings.get? n = some v → v.Inert
  fileName : 0 < i.tally.annotated → bindings.get? i.names.fileName = some (.text i.fileName)
  recordParent : 0 < i.tally.wrapped →
    bindings.get? i.names.recordParent = some (.builtin (.recordParent i.stack))
  recordExpression : 0 < i.tally.wrapped →
    bindings.get? i.names.recordExpression = some (.builtin (.recordExpression i.stack))

def Origin.Declared : Origin → Keyed Value → Prop
  | plain, _ => True
  | annotated i, bindings => i.Declared bindings

end Annotate

namespace Store

structure ScopeSound (Γ : Typing) (s : Store) (o : Origin) (sc : Scope) : Prop where
  clean : ∀ n v, n ∉ o.hidden → sc.bindings.get? n = some v → v.Clean (Home Γ s)
  outermost : sc.parent = none → o.Declared sc.bindings
  inside : sc.parent ≠ none → ∀ n ∈ o.hidden, sc.bindings.get? n = none

structure Sound (Γ : Typing) (s : Store) : Prop where
  scopes : ∀ i o sc, Home Γ s i o → s.scopes[i]? = some sc → ScopeSound Γ s o sc
  stack : ∀ k i, Γ k = some (.annotated i) → i.stack.index < s.stackEntries.length

variable {Γ : Typing} {s s' : Store} {i : Nat} {o : Origin} {n : String} {v : Value}

theorem Home.of_scopes_eq (h : Home Γ s i o) (hs : s'.scopes = s.scopes) : Home Γ s' i o := by
  induction h with
  | root found outermost typed => exact .root (hs ▸ found) outermost typed
  | inner found inside earlier _ ih => exact .inner (hs ▸ found) inside earlier ih

theorem ScopeSound.grow {but : Option Nat} {sc : Scope} (h : ScopeSound Γ s o sc)
    (hs : Grows but s s') : ScopeSound Γ s' o sc :=
  ⟨fun n v hn hv => (h.clean n v hn hv).mono fun _ _ hi => hi.grow hs, h.outermost, h.inside⟩

/-- A store without scopes is sound, whatever its records and stacks hold. -/
theorem sound_of_no_scopes (h : s.scopes = #[]) : Sound (fun _ => none) s := by
  refine ⟨?_, nofun⟩
  intro i o sc _ hsc
  simp [h] at hsc

namespace Sound

variable (h : Sound Γ s)
include h

theorem of_scopes_eq (hs : s'.scopes = s.scopes)
    (hstacks : s'.stackEntries.length = s.stackEntries.length) : Sound Γ s' := by
  refine ⟨?_, fun k i hk => hstacks ▸ h.stack k i hk⟩
  intro i o sc hi hsc
  have hsound := h.scopes i o sc (hi.of_scopes_eq hs.symm) (hs ▸ hsc)
  exact ⟨fun n v hn hv => (hsound.clean n v hn hv).mono fun _ _ hi => hi.of_scopes_eq hs,
    hsound.outermost, hsound.inside⟩

/-- A name that is not hidden stands for a clean value. -/
theorem lookup_clean (hi : Home Γ s i o) (hn : n ∉ o.hidden) (hv : s.lookupFrom n i = some v) :
    v.Clean (Home Γ s) := by
  induction hi with
  | root found outermost typed =>
    rw [lookupFrom, found] at hv
    simp only [outermost] at hv
    split at hv
    · rename_i w hw
      cases hv
      exact (h.scopes _ _ _ (.root found outermost typed) found).clean n v hn hw
    · cases hv
  | inner found inside earlier home ih =>
    rw [lookupFrom, found] at hv
    simp only [inside, earlier, if_true] at hv
    split at hv
    · rename_i w hw
      cases hv
      exact (h.scopes _ _ _ (.inner found inside earlier home) found).clean n v hn hw
    · exact ih hn hv

/-- A hidden name is looked up in the root scope. -/
theorem exists_root (hi : Home Γ s i o) (hn : n ∈ o.hidden) :
    ∃ sc : Scope, o.Declared sc.bindings ∧ s.lookupFrom n i = sc.bindings.get? n := by
  induction hi with
  | @root i sc o found outermost typed =>
    refine ⟨sc, (h.scopes _ _ _ (.root found outermost typed) found).outermost outermost, ?_⟩
    rw [lookupFrom, found]
    simp only [outermost]
    cases sc.bindings.get? n <;> rfl
  | inner found inside earlier home ih =>
    obtain ⟨sc, hsc, hlookup⟩ := ih hn
    refine ⟨sc, hsc, ?_⟩
    have hnone := (h.scopes _ _ _ (.inner found inside earlier home) found).inside
      (by simp [inside]) n hn
    rw [lookupFrom, found]
    simp only [hnone, inside, earlier, if_true]
    exact hlookup

theorem lookup_inert (hi : Home Γ s i o) (hn : n ∈ o.hidden) (hv : s.lookupFrom n i = some v) :
    v.Inert := by
  obtain ⟨sc, hsc, hlookup⟩ := h.exists_root hi hn
  cases o with
  | plain => cases hn
  | annotated inst => exact hsc.inert n hn v (hlookup ▸ hv)

theorem lookup_fileName {inst : Instance} (hi : Home Γ s i (.annotated inst))
    (ht : 0 < inst.tally.annotated) :
    s.lookupFrom inst.names.fileName i = some (.text inst.fileName) := by
  obtain ⟨sc, hsc, hlookup⟩ := h.exists_root (n := inst.names.fileName) hi (by
    simp [Origin.hidden, Names.toList])
  exact hlookup.trans (hsc.fileName ht)

theorem lookup_recordParent {inst : Instance} (hi : Home Γ s i (.annotated inst))
    (ht : 0 < inst.tally.wrapped) :
    s.lookupFrom inst.names.recordParent i = some (.builtin (.recordParent inst.stack)) := by
  obtain ⟨sc, hsc, hlookup⟩ := h.exists_root (n := inst.names.recordParent) hi (by
    simp [Origin.hidden, Names.toList])
  exact hlookup.trans (hsc.recordParent ht)

theorem lookup_recordExpression {inst : Instance} (hi : Home Γ s i (.annotated inst))
    (ht : 0 < inst.tally.wrapped) :
    s.lookupFrom inst.names.recordExpression i =
      some (.builtin (.recordExpression inst.stack)) := by
  obtain ⟨sc, hsc, hlookup⟩ := h.exists_root (n := inst.names.recordExpression) hi (by
    simp [Origin.hidden, Names.toList])
  exact hlookup.trans (hsc.recordExpression ht)

end Sound

/-! ## What evaluation does to a store -/

theorem getElem?_newScope (p : Option ScopeId) (stack : StackId) (s : Store) (j : Nat) :
    (s.newScope p stack).2.scopes[j]? =
      if j = s.scopes.size then some ⟨[], p, stack⟩ else s.scopes[j]? := by
  simp [newScope, Array.getElem?_push]

theorem grows_newScope (p : Option ScopeId) (stack : StackId) (s : Store) :
    Grows none s (s.newScope p stack).2 := by
  refine ⟨?_, le_refl _, fun _ _ _ => rfl⟩
  intro j sc hj
  have hne : j ≠ s.scopes.size := (Array.getElem?_eq_some_iff.mp hj).1.ne
  exact ⟨sc, by rw [getElem?_newScope, if_neg hne, hj], rfl⟩

/-- A new scope inside another one belongs to the same origin. -/
theorem Sound.newScope (h : Sound Γ s) (hi : Home Γ s i o) (stack : StackId) :
    Sound Γ (s.newScope (some ⟨i⟩) stack).2 ∧
      Home Γ (s.newScope (some ⟨i⟩) stack).2 s.scopes.size o := by
  have hgrows := grows_newScope (some ⟨i⟩) stack s
  refine ⟨⟨?_, h.stack⟩, .inner (by rw [getElem?_newScope, if_pos rfl]) rfl hi.lt (hi.grow hgrows)⟩
  intro j o' sc hj hsc
  rw [getElem?_newScope] at hsc
  split_ifs at hsc with heq
  · cases hsc
    exact ⟨nofun, nofun, fun _ _ _ => rfl⟩
  · have hlt := (Array.getElem?_eq_some_iff.mp hsc).1
    exact (h.scopes j o' sc (hj.shrink hgrows (fun _ _ => rfl) hlt) hsc).grow hgrows

theorem getElem?_declare (i : Nat) (n : String) (v : Value) (s : Store) (j : Nat) :
    (s.declare ⟨i⟩ n v).scopes[j]? = (s.scopes[j]?).map fun sc =>
      if i = j then { sc with bindings := sc.bindings.insert n v } else sc := by
  by_cases h : i = j <;> simp [declare, Array.getElem?_modify, h]

theorem grows_declare (i : Nat) (n : String) (v : Value) (s : Store) :
    Grows none s (s.declare ⟨i⟩ n v) := by
  refine ⟨?_, le_refl _, fun _ _ _ => rfl⟩
  intro j sc hj
  refine ⟨_, by rw [getElem?_declare, hj, Option.map_some], ?_⟩
  split_ifs <;> rfl

theorem Sound.declare (h : Sound Γ s) (hi : Home Γ s i o) (hn : n ∉ o.hidden)
    (hv : v.Clean (Home Γ s)) : Sound Γ (s.declare ⟨i⟩ n v) := by
  have hgrows := grows_declare i n v s
  refine ⟨?_, h.stack⟩
  intro j o' sc' hj hsc'
  rw [getElem?_declare] at hsc'
  obtain ⟨sc, hsc, rfl⟩ := Option.map_eq_some_iff.mp hsc'
  have hj' := hj.shrink hgrows (fun _ _ => rfl) (Array.getElem?_eq_some_iff.mp hsc).1
  have hsound := (h.scopes j o' sc hj' hsc).grow hgrows
  split_ifs with heq
  · subst heq
    cases hi.unique hj'
    refine ⟨?_, ?_, ?_⟩
    · intro m w hm hw
      by_cases hmn : m = n
      · subst hmn
        rw [Keyed.get?_insert_self] at hw
        cases hw
        exact hv.mono fun _ _ hk => hk.grow hgrows
      · rw [Keyed.get?_insert_of_ne hmn] at hw
        exact hsound.clean m w hm hw
    · intro hp
      have hdeclared := hsound.outermost hp
      cases o with
      | plain => trivial
      | annotated inst =>
        have hget : ∀ m ∈ inst.names.toList,
            (sc.bindings.insert n v).get? m = sc.bindings.get? m := by
          intro m hm
          refine Keyed.get?_insert_of_ne ?_ v sc.bindings
          rintro rfl
          exact hn hm
        refine ⟨?_, ?_, ?_, ?_⟩
        · intro m hm w hw
          exact hdeclared.inert m hm w (hget m hm ▸ hw)
        · intro ht
          rw [hget _ (by simp [Names.toList]), hdeclared.fileName ht]
        · intro ht
          rw [hget _ (by simp [Names.toList]), hdeclared.recordParent ht]
        · intro ht
          rw [hget _ (by simp [Names.toList]), hdeclared.recordExpression ht]
    · intro hp m hm
      rw [Keyed.get?_insert_of_ne, hsound.inside hp m hm]
      rintro rfl
      exact hn hm
  · exact hsound

end Store

end MarkupTrace
