import MarkupTrace.Proofs.Recording
import MarkupTrace.Proofs.Similarity

/-!
# Alike stores

Two runs are compared by their stores. These have the same scopes, with similar values under all
names but the generated ones, and the records that there were when the comparison began. What one
of them records or pushes in addition makes no difference.
-/

namespace MarkupTrace

open Source Annotate Store

/-! ## What is shown of a value -/

/-- Both are shown in the same way, and of records only some. -/
inductive Value.ShownAlike (P : RecordRef → Prop) : Value → Value → Prop
  | undefined : ShownAlike P .undefined .undefined
  | null : ShownAlike P .null .null
  | bool (b : Bool) : ShownAlike P (.bool b) (.bool b)
  | number (n : Double) : ShownAlike P (.number n) (.number n)
  | text (s : String) : ShownAlike P (.text s) (.text s)
  | array (i j : Nat) {xs ys : List Value} (length : xs.length = ys.length)
      (items : ∀ a b, (a, b) ∈ xs.zip ys → ShownAlike P a b) :
      ShownAlike P (.array i xs) (.array j ys)
  | object (i j : Nat) {xs ys : Fields} (length : xs.length = ys.length)
      (keys : ∀ a b, (a, b) ∈ xs.zip ys → a.1 = b.1)
      (values : ∀ a b, (a, b) ∈ xs.zip ys → ShownAlike P a.2 b.2) :
      ShownAlike P (.object i xs) (.object j ys)
  | element {c d : CreatedElement Value} (name : c.type.name = d.type.name) :
      ShownAlike P (.element c) (.element d)
  | function {f g : Function} (name : f.displayName = g.displayName) :
      ShownAlike P (.function f) (.function g)
  | location {r : RecordRef} (h : P r) : ShownAlike P (.location r) (.location r)

namespace Value

variable {P : RecordRef → Prop} {record₁ record₂ : RecordRef → String} {s t : Store} {v w : Value}

theorem inspectItems_eq {xs ys : List Value} (h : List.Forall₂
    (fun a b => inspectWith record₁ s a = inspectWith record₂ t b) xs ys) :
    inspectItems record₁ s xs = inspectItems record₂ t ys := by
  induction h with
  | nil => rfl
  | cons hab hrest ih =>
    cases hrest with
    | nil => exact hab
    | cons =>
      show inspectWith record₁ s _ ++ ", " ++ inspectItems record₁ s _ =
        inspectWith record₂ t _ ++ ", " ++ inspectItems record₂ t _
      rw [hab, ih]

theorem inspectFields_eq {xs ys : Fields} (h : Keyed.Related
    (fun a b => inspectWith record₁ s a = inspectWith record₂ t b) xs ys) :
    inspectFields record₁ s xs = inspectFields record₂ t ys := by
  induction h with
  | nil => rfl
  | @cons x y _ _ hxy hrest ih =>
    obtain ⟨k, v⟩ := x
    obtain ⟨l, w⟩ := y
    obtain ⟨rfl, hvw⟩ := hxy
    cases hrest with
    | nil =>
      show _ ++ ": " ++ inspectWith record₁ s v = _ ++ ": " ++ inspectWith record₂ t w
      rw [hvw]
    | cons =>
      show _ ++ ": " ++ inspectWith record₁ s v ++ ", " ++ inspectFields record₁ s _ =
        _ ++ ": " ++ inspectWith record₂ t w ++ ", " ++ inspectFields record₂ t _
      rw [hvw, ih]

theorem ShownAlike.inspectWith_eq (h : ShownAlike P v w)
    (hrecord : ∀ r, P r → record₁ r = record₂ r) :
    inspectWith record₁ s v = inspectWith record₂ t w := by
  induction h with
  | undefined => rfl
  | null => rfl
  | bool b => rfl
  | number n => rfl
  | text s => rfl
  | array i j length _ ih =>
    rw [inspectWith, inspectWith,
      inspectItems_eq (List.forall₂_iff_zip.mpr ⟨length, fun {a b} hab => ih a b hab⟩)]
  | object i j length keys _ ih =>
    rw [inspectWith, inspectWith,
      inspectFields_eq (Keyed.related_iff_zip.mpr ⟨length, keys, fun a b hab => ih a b hab⟩)]
  | element name => rw [inspectWith, inspectWith, name]
  | function name => rw [inspectWith, inspectWith, name]
  | location h => exact hrecord _ h

theorem Similar.shownAlike {home₁ home₂ : Nat → Origin → Prop} {bound : Nat}
    (h : Similar home₁ home₂ bound v w) : ShownAlike (fun r => r.index < bound) v w := by
  induction h with
  | undefined => exact .undefined
  | null => exact .null
  | bool b => exact .bool b
  | number n => exact .number n
  | text s => exact .text s
  | array identity length _ ih => exact .array _ _ length ih
  | object identity length keys _ ih => exact .object _ _ length keys ih
  | element identity type => exact .element type.name_eq
  | function h => exact .function (by rw [Function.displayName, Function.displayName, h.name])
  | location h => exact .location h

end Value

/-- What was recorded can be shown to the end: no builtins and no stacks, which change, and no
record inside itself. -/
def Legible (records : Array (Option (List Recorded))) : Prop :=
  ∃ rank : Nat → Nat, (∀ i, rank i ≤ records.size) ∧
    ∀ (i : Nat) (xs : List Recorded), records[i]? = some (some xs) → ∀ x ∈ xs,
      x.value.ShownAlike (fun r => r.index < records.size ∧ rank r.index < rank i) x.value

/-- The store has these records as its first. -/
structure Store.Holds (records : Array (Option (List Recorded))) (s : Store) : Prop where
  size : records.size ≤ s.records.size
  same : ∀ i < records.size, s.records[i]? = records[i]?

section

variable {records : Array (Option (List Recorded))} {s t : Store}

/-- Records that both stores have are shown alike, once enough may be unfolded. -/
theorem inspectRecord_eq (hs : s.Holds records) (ht : t.Holds records) {rank : Nat → Nat}
    (hrank : ∀ (i : Nat) (xs : List Recorded), records[i]? = some (some xs) → ∀ x ∈ xs,
      x.value.ShownAlike (fun r => r.index < records.size ∧ rank r.index < rank i) x.value)
    (n k : Nat) (r : RecordRef) (hr : r.index < records.size) (hn : rank r.index < n)
    (hk : rank r.index < k) : Value.inspectRecord s n r = Value.inspectRecord t k r := by
  induction n generalizing k r with
  | zero => omega
  | succ n ih =>
    cases k with
    | zero => omega
    | succ k =>
      have hsame : s.recorded? r = t.recorded? r := by
        rw [Store.recorded?, Store.recorded?, hs.same _ hr, ht.same _ hr]
      rw [Value.inspectRecord, Value.inspectRecord, hsame]
      cases hx : t.recorded? r with
      | none => rfl
      | some xs =>
        have hfound : records[r.index]? = some (some xs) := by
          rw [Store.recorded?, ht.same _ hr, Array.getElem?_eq_getElem hr, Option.getD_some] at hx
          rw [Array.getElem?_eq_getElem hr, hx]
        have hshown : ∀ x ∈ xs,
            Value.inspectWith (Value.inspectRecord s n) s x.value =
              Value.inspectWith (Value.inspectRecord t k) t x.value := by
          intro x hx
          refine (hrank _ _ hfound x hx).inspectWith_eq ?_
          rintro r' ⟨hr', hless⟩
          exact ih k r' hr' (by omega) (by omega)
        dsimp only
        rw [List.map_congr_left fun x hx => by rw [hshown x hx]]

theorem Value.Similar.inspect_eq {home₁ home₂ : Nat → Origin → Prop} {v w : Value}
    (h : Value.Similar home₁ home₂ records.size v w) (hlegible : Legible records)
    (hs : s.Holds records) (ht : t.Holds records) : v.inspect s = w.inspect t := by
  obtain ⟨rank, hle, hrank⟩ := hlegible
  refine h.shownAlike.inspectWith_eq fun r hr => ?_
  have hr' := hle r.index
  have hs' := hs.size
  have ht' := ht.size
  exact inspectRecord_eq hs ht hrank _ _ r hr (by omega) (by omega)

end

/-! ## The comparison -/

/-- What two runs are compared by: the origins of root scopes on both sides, and the records that
both had to begin with. -/
structure Comparison where
  left : Typing
  right : Typing
  records : Array (Option (List Recorded))
  legible : Legible records

namespace Comparison

def symm (C : Comparison) : Comparison := ⟨C.right, C.left, C.records, C.legible⟩

def Similar (C : Comparison) (s t : Store) : Value → Value → Prop :=
  Value.Similar (s.Home C.left) (t.Home C.right) C.records.size

end Comparison

/-- The stores differ in what only annotation needs. -/
structure Alike (C : Comparison) (s t : Store) : Prop where
  left : s.Sound C.left
  right : t.Sound C.right
  next : s.next = t.next
  parents : ∀ i : Nat, (s.scopes[i]?).map (·.parent) = (t.scopes[i]?).map (·.parent)
  bindings : ∀ i o₁ o₂ sc₁ sc₂, s.Home C.left i o₁ → t.Home C.right i o₂ →
    s.scopes[i]? = some sc₁ → t.scopes[i]? = some sc₂ → ∀ n, n ∉ o₁.hidden → n ∉ o₂.hidden →
      Option.Rel (C.Similar s t) (sc₁.bindings.get? n) (sc₂.bindings.get? n)
  holds₁ : s.Holds C.records
  holds₂ : t.Holds C.records

/-- Alike stores that came out of alike stores. -/
structure Onward (C : Comparison) (s t s' t' : Store) : Prop where
  alike : Alike C s' t'
  left : ∀ i o, s.Home C.left i o → s'.Home C.left i o
  right : ∀ i o, t.Home C.right i o → t'.Home C.right i o

/-- A scope in which code of one origin runs on the left and code of another on the right. -/
structure Placed (C : Comparison) (o₁ o₂ : Origin) (scope : ScopeId) (s t : Store) : Prop where
  alike : Alike C s t
  left : s.Home C.left scope.index o₁
  right : t.Home C.right scope.index o₂

variable {C : Comparison} {s t s' t' s'' t'' : Store} {o₁ o₂ : Origin} {scope : ScopeId}
  {v w : Value}

theorem Comparison.Similar.symm (h : C.Similar s t v w) : C.symm.Similar t s w v :=
  Value.Similar.symm h

theorem Comparison.Similar.onward (h : C.Similar s t v w) (ho : Onward C s t s' t') :
    C.Similar s' t' v w := Value.Similar.mono h ho.left ho.right

theorem Onward.trans (h : Onward C s t s' t') (h' : Onward C s' t' s'' t'') :
    Onward C s t s'' t'' :=
  ⟨h'.alike, fun i o hi => h'.left i o (h.left i o hi), fun i o hi => h'.right i o (h.right i o hi)⟩

theorem Placed.onward (h : Placed C o₁ o₂ scope s t) (ho : Onward C s t s' t') :
    Placed C o₁ o₂ scope s' t' := ⟨ho.alike, ho.left _ _ h.left, ho.right _ _ h.right⟩

theorem Onward.items (h : Onward C s t s' t') {vs ws : List Value}
    (hvs : List.Forall₂ (C.Similar s t) vs ws) : List.Forall₂ (C.Similar s' t') vs ws :=
  hvs.imp fun _ _ hv => hv.onward h

theorem Onward.fields (h : Onward C s t s' t') {fs gs : Fields}
    (hfs : Keyed.Related (C.Similar s t) fs gs) : Keyed.Related (C.Similar s' t') fs gs :=
  hfs.imp fun _ _ hv => hv.onward h

namespace Alike

theorem refl (h : Alike C s t) : Onward C s t s t := ⟨h, fun _ _ hi => hi, fun _ _ hi => hi⟩

theorem symm (h : Alike C s t) : Alike C.symm t s where
  left := h.right
  right := h.left
  next := h.next.symm
  parents i := (h.parents i).symm
  bindings i o₁ o₂ sc₁ sc₂ h₁ h₂ hsc₁ hsc₂ n hn₁ hn₂ :=
    rel_symm (h.bindings i o₂ o₁ sc₂ sc₁ h₂ h₁ hsc₂ hsc₁ n hn₂ hn₁) fun _ _ hv => hv.symm
  holds₁ := h.holds₂
  holds₂ := h.holds₁

theorem size_eq (h : Alike C s t) : s.scopes.size = t.scopes.size := by
  have hnone : ∀ i : Nat, s.scopes[i]? = none ↔ t.scopes[i]? = none := by
    intro i
    have hi := h.parents i
    rw [← Option.map_eq_none_iff (f := Scope.parent), hi, Option.map_eq_none_iff]
  simp only [Array.getElem?_eq_none_iff] at hnone
  exact le_antisymm ((hnone _).mpr le_rfl) ((hnone _).mp le_rfl)

/-- A name that is hidden on neither side is bound alike. -/
theorem lookup (h : Alike C s t) {i : Nat} (h₁ : s.Home C.left i o₁) (h₂ : t.Home C.right i o₂)
    {n : String} (hn₁ : n ∉ o₁.hidden) (hn₂ : n ∉ o₂.hidden) :
    Option.Rel (C.Similar s t) (s.lookupFrom n i) (t.lookupFrom n i) := by
  induction h₁ with
  | @root i sc₁ o₁ found outermost typed =>
    obtain ⟨sc₂, hsc₂⟩ := h₂.exists_scope
    have hparents := h.parents i
    rw [found, hsc₂, Option.map_some, Option.map_some, Option.some.injEq] at hparents
    have hrel := h.bindings i o₁ o₂ sc₁ sc₂ (.root found outermost typed) h₂ found hsc₂ n hn₁ hn₂
    rw [Store.lookupFrom, Store.lookupFrom, found, hsc₂]
    simp only [← hparents, outermost]
    generalize sc₁.bindings.get? n = a at hrel
    generalize sc₂.bindings.get? n = b at hrel
    cases hrel with
    | none => exact .none
    | some hv => exact .some hv
  | @inner i sc₁ p o₁ found inside earlier home ih =>
    obtain ⟨sc₂, hsc₂⟩ := h₂.exists_scope
    have hparents := h.parents i
    rw [found, hsc₂, Option.map_some, Option.map_some, Option.some.injEq] at hparents
    have hrel := h.bindings i o₁ o₂ sc₁ sc₂ (.inner found inside earlier home) h₂ found hsc₂ n hn₁
      hn₂
    have houter : t.Home C.right p.index o₂ := by
      cases h₂ with
      | root found' outermost' typed' =>
        cases found'.symm.trans hsc₂
        rw [inside, outermost'] at hparents
        cases hparents
      | inner found' inside' earlier' home' =>
        cases found'.symm.trans hsc₂
        rw [inside, inside'] at hparents
        cases hparents
        exact home'
    rw [Store.lookupFrom, Store.lookupFrom, found, hsc₂]
    simp only [← hparents, inside, earlier, if_true]
    generalize sc₁.bindings.get? n = a at hrel
    generalize sc₂.bindings.get? n = b at hrel
    cases hrel with
    | none => exact ih houter hn₁
    | some hv => exact .some hv

end Alike

/-! ## Steps -/

namespace Alike

/-- Scopes stay as they are, and whatever else is done hands out the same identities. -/
theorem of_scopes_eq (h : Alike C s t) (hs : s'.scopes = s.scopes) (ht : t'.scopes = t.scopes)
    (hnext : s'.next = t'.next) (hstacks₁ : s'.stackEntries.length = s.stackEntries.length)
    (hstacks₂ : t'.stackEntries.length = t.stackEntries.length) (hholds₁ : s'.Holds C.records)
    (hholds₂ : t'.Holds C.records) : Onward C s t s' t' := by
  have hleft : ∀ i o, s.Home C.left i o → s'.Home C.left i o := fun i o hi => hi.of_scopes_eq hs
  have hright : ∀ i o, t.Home C.right i o → t'.Home C.right i o := fun i o hi => hi.of_scopes_eq ht
  refine ⟨⟨h.left.of_scopes_eq hs hstacks₁, h.right.of_scopes_eq ht hstacks₂, hnext, ?_, ?_,
    hholds₁, hholds₂⟩, hleft, hright⟩
  · rw [hs, ht]
    exact h.parents
  · intro i o₁ o₂ sc₁ sc₂ h₁ h₂ hsc₁ hsc₂ n hn₁ hn₂
    have hrel := h.bindings i o₁ o₂ sc₁ sc₂ (h₁.of_scopes_eq hs.symm) (h₂.of_scopes_eq ht.symm)
      (hs ▸ hsc₁) (ht ▸ hsc₂) n hn₁ hn₂
    exact rel_imp hrel fun _ _ hv => Value.Similar.mono hv hleft hright

/-- Both sides hand out the same identity. -/
theorem identity (h : Alike C s t) : Onward C s t s.identity.2 t.identity.2 :=
  h.of_scopes_eq rfl rfl (congrArg (· + 1) h.next) rfl rfl ⟨h.holds₁.size, h.holds₁.same⟩
    ⟨h.holds₂.size, h.holds₂.same⟩

/-- Both sides open a scope inside a scope. -/
theorem newScope (h : Placed C o₁ o₂ scope s t) (stack₁ stack₂ : StackId) :
    Onward C s t (s.newScope (some scope) stack₁).2 (t.newScope (some scope) stack₂).2 ∧
      Placed C o₁ o₂ ⟨s.scopes.size⟩ (s.newScope (some scope) stack₁).2
        (t.newScope (some scope) stack₂).2 := by
  have hsize := h.alike.size_eq
  have hgrows₁ := grows_newScope (some scope) stack₁ s
  have hgrows₂ := grows_newScope (some scope) stack₂ t
  obtain ⟨hsound₁, hhome₁⟩ := h.alike.left.newScope h.left stack₁
  obtain ⟨hsound₂, hhome₂⟩ := h.alike.right.newScope h.right stack₂
  have ho : Onward C s t (s.newScope (some scope) stack₁).2 (t.newScope (some scope) stack₂).2 := by
    refine ⟨⟨hsound₁, hsound₂, h.alike.next, ?_, ?_, ⟨h.alike.holds₁.size, h.alike.holds₁.same⟩,
      ⟨h.alike.holds₂.size, h.alike.holds₂.same⟩⟩, fun i o hi => hi.grow hgrows₁,
      fun i o hi => hi.grow hgrows₂⟩
    · intro i
      rw [getElem?_newScope, getElem?_newScope, hsize]
      split_ifs
      · rfl
      · exact h.alike.parents i
    · intro i p₁ p₂ sc₁ sc₂ h₁ h₂ hsc₁ hsc₂ n hn₁ hn₂
      rw [getElem?_newScope] at hsc₁ hsc₂
      rw [hsize] at hsc₁
      split_ifs at hsc₁ hsc₂ with hi
      · cases hsc₁
        cases hsc₂
        exact .none
      · have hlt₁ := (Array.getElem?_eq_some_iff.mp hsc₁).1
        have hlt₂ := (Array.getElem?_eq_some_iff.mp hsc₂).1
        have hrel := h.alike.bindings i p₁ p₂ sc₁ sc₂ (h₁.shrink hgrows₁ (fun _ _ => rfl) hlt₁)
          (h₂.shrink hgrows₂ (fun _ _ => rfl) hlt₂) hsc₁ hsc₂ n hn₁ hn₂
        exact rel_imp hrel fun _ _ hv =>
          Value.Similar.mono hv (fun _ _ hi => hi.grow hgrows₁) fun _ _ hi => hi.grow hgrows₂
  exact ⟨ho, ho.alike, hhome₁, hsize ▸ hhome₂⟩

/-- Both sides bind a name to similar values. -/
theorem declare (h : Placed C o₁ o₂ scope s t) {n : String} (hn₁ : n ∉ o₁.hidden)
    (hn₂ : n ∉ o₂.hidden) (hv : C.Similar s t v w) :
    Onward C s t (s.declare scope n v) (t.declare scope n w) := by
  have hgrows₁ := grows_declare scope.index n v s
  have hgrows₂ := grows_declare scope.index n w t
  have hmono : ∀ a b, C.Similar s t a b →
      C.Similar (s.declare scope n v) (t.declare scope n w) a b := fun _ _ hab =>
    Value.Similar.mono hab (fun _ _ hi => hi.grow hgrows₁) fun _ _ hi => hi.grow hgrows₂
  refine ⟨⟨h.alike.left.declare h.left hn₁ (Value.Similar.clean hv),
    h.alike.right.declare h.right hn₂ (Value.Similar.clean (Value.Similar.symm hv)), h.alike.next,
    ?_, ?_, ⟨h.alike.holds₁.size, h.alike.holds₁.same⟩,
    ⟨h.alike.holds₂.size, h.alike.holds₂.same⟩⟩, fun i o hi => hi.grow hgrows₁,
    fun i o hi => hi.grow hgrows₂⟩
  · intro i
    have hi := h.alike.parents i
    rw [getElem?_declare, getElem?_declare, Option.map_map, Option.map_map]
    have hparent : ∀ u : Value, (Scope.parent ∘ fun sc => if scope.index = i then
        { sc with bindings := sc.bindings.insert n u } else sc) = Scope.parent := by
      intro u
      funext sc
      simp only [Function.comp_apply]
      split_ifs <;> rfl
    rw [hparent, hparent, hi]
  · intro i p₁ p₂ sc₁ sc₂ h₁ h₂ hsc₁ hsc₂ m hm₁ hm₂
    rw [getElem?_declare] at hsc₁ hsc₂
    obtain ⟨sc₁', hsc₁', rfl⟩ := Option.map_eq_some_iff.mp hsc₁
    obtain ⟨sc₂', hsc₂', rfl⟩ := Option.map_eq_some_iff.mp hsc₂
    have hrel := h.alike.bindings i p₁ p₂ sc₁' sc₂'
      (h₁.shrink hgrows₁ (fun _ _ => rfl) (Array.getElem?_eq_some_iff.mp hsc₁').1)
      (h₂.shrink hgrows₂ (fun _ _ => rfl) (Array.getElem?_eq_some_iff.mp hsc₂').1)
      hsc₁' hsc₂' m hm₁ hm₂
    have hrel' := rel_imp hrel hmono
    split_ifs with hi
    · by_cases hmn : m = n
      · subst hmn
        rw [Keyed.get?_insert_self, Keyed.get?_insert_self]
        exact .some (hmono _ _ hv)
      · rw [Keyed.get?_insert_of_ne hmn, Keyed.get?_insert_of_ne hmn]
        exact hrel'
    · exact hrel'

end Alike

/-! ## Steps on one side -/

/-- What annotation does to a store: it makes records, and changes no record of the first `bound`. -/
structure Store.Aside (bound : Nat) (s s' : Store) : Prop where
  next : s'.next = s.next
  scopes : s'.scopes = s.scopes
  length : s'.stackEntries.length = s.stackEntries.length
  size : s.records.size ≤ s'.records.size
  records : ∀ i < bound, s'.records[i]? = s.records[i]?

namespace Store.Aside

variable {bound : Nat}

theorem refl (s : Store) : Aside bound s s := ⟨rfl, rfl, rfl, le_rfl, fun _ _ => rfl⟩

theorem trans (h : Aside bound s s') (h' : Aside bound s' s'') : Aside bound s s'' :=
  ⟨h'.next.trans h.next, h'.scopes.trans h.scopes, h'.length.trans h.length, h.size.trans h'.size,
    fun i hi => (h'.records i hi).trans (h.records i hi)⟩

theorem newRecord (hbound : bound ≤ s.records.size) (place : Location) :
    Aside bound s (s.newRecord place).2 := by
  refine ⟨rfl, rfl, rfl, by simp [Store.newRecord], ?_⟩
  intro i hi
  have hne : i ≠ s.records.size := (hi.trans_le hbound).ne
  simp [Store.newRecord, Array.getElem?_push, hne]

theorem push (id : StackId) (r : RecordRef) (s : Store) : Aside bound s (s.push id r) :=
  ⟨rfl, rfl, by simp [Store.push], le_rfl, fun _ _ => rfl⟩

theorem record {id : StackId} {r : RecordRef} {rest : List RecordRef}
    (htop : s.stackEntries[id.index]? = some (r :: rest)) (hr : bound ≤ r.index) (x : Recorded)
    (isLast : Bool) : Aside bound s (s.record id x isLast) := by
  have hgrows := grows_record htop x isLast
  have hsize : (s.record id x isLast).records.size = s.records.size := by
    rw [records_record htop]
    simp [Store.append]
  refine ⟨?_, scopes_record id x isLast s, ?_, hsize.ge, ?_⟩
  · rw [record_eq htop]
    split_ifs <;> rfl
  · rw [stackEntries_record htop]
    split_ifs <;> simp
  · intro i hi
    have hne : r.index ≠ i := (hi.trans_le hr).ne'
    rw [records_record htop]
    simp [Store.append, Array.getElem?_modify, hne]

theorem holds {records : Array (Option (List Recorded))} (h : Aside records.size s s')
    (hs : s.Holds records) : s'.Holds records :=
  ⟨hs.size.trans h.size, fun i hi => (h.records i hi).trans (hs.same i hi)⟩

end Store.Aside

theorem Alike.aside (h : Alike C s t) (hs : s.Aside C.records.size s')
    (ht : t.Aside C.records.size t') : Onward C s t s' t' :=
  h.of_scopes_eq hs.scopes ht.scopes ((hs.next.trans h.next).trans ht.next.symm) hs.length
    ht.length (hs.holds h.holds₁) (ht.holds h.holds₂)

end MarkupTrace
