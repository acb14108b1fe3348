import MarkupTrace.Proofs.MatchedChildren

/-!
# Which records are used up

The items of an array come with their own records or with none. They are matched in order, and the
first record that is left decides: an item uses it up if it has the same value. As long as all items
with a record are truthy, none of these records stays behind; at worst they are used up too early, by
items that have no record of their own but the value of one. So an item gets its own record unless an
item without one has its value. A record with a value that is not truthy is never used up, and keeps
everything behind it from a match.
-/

namespace MarkupTrace

open Source Structure

namespace Double

theorem equal_finite {s t : Bool} {a b : Fin magnitudes} :
    (finite s a).equal (finite t b) = true ↔ a = b ∧ (s = t ∨ a.val = 0) := by
  simp [equal]

end Double

namespace Value

variable {u v w : Value}

end Value

namespace Structure

/-! ## One item after another -/

/-- The value of an item, and its record if it has one. -/
abbrev Item := Value × Option Recorded

/-- The record of an item is of its value. -/
def Item.Sound (p : Item) : Prop := ∀ x, p.2 = some x → x.value = p.1

/-- The records that items come with. -/
def recordsOfItems (items : List Item) : List Recorded := items.filterMap Prod.snd

/-- Of the records of the items these are left, and those that were used up are in `Q`. -/
def Left (Q : Recorded → Prop) (items : List Item) (left : List Recorded) : Prop :=
  ∃ used, recordsOfItems items = used ++ left ∧ ∀ x ∈ used, Q x

variable (map : ExpressionMap) {Q : Recorded → Prop} {items : List Item} {left : List Recorded}

theorem Left.all (Q : Recorded → Prop) (items : List Item) : Left Q items (recordsOfItems items) :=
  ⟨[], rfl, nofun⟩

/-- An item uses up the first record that is left, if they are the same and truthy, or none. -/
theorem matchItems_cons (v : Value) (vs : List Value) (left : List Recorded) :
    ∃ g left', matchItems map (v :: vs) left = g :: matchItems map vs left' ∧
      (left' = left ∨ ∃ x, left = x :: left' ∧ v.isTruthy = true ∧ x.value.strictEq v = true) := by
  cases left with
  | nil => exact ⟨[], [], rfl, .inl rfl⟩
  | cons x xs =>
    refine ⟨if v.isTruthy then matchGroup map v x else [], ?_⟩
    rw [matchItems]
    by_cases hmatch : v.isTruthy = true ∧ x.value.strictEq v = true
    · refine ⟨xs, ?_, .inr ⟨x, rfl, hmatch⟩⟩
      simp [hmatch, isEmpty_matchGroup]
    · refine ⟨x :: xs, ?_, .inl rfl⟩
      cases htruthy : v.isTruthy with
      | false => simp
      | true =>
        have hother : x.value.strictEq v = false := by simpa [htruthy] using hmatch
        simp [isEmpty_matchGroup, hother]

/-- Behind a truthy item, or one without a record, records are used up as before it. -/
theorem Left.step {p : Item} (h : Left Q (p :: items) left)
    (htruthy : ∀ x, p.2 = some x → x.value = p.1 ∧ p.1.isTruthy = true)
    (hQ : ∀ x, p.1.isTruthy = true → x.value.strictEq p.1 = true →
      (∀ y, p.2 = some y → Q y) → Q x) :
    ∃ g left', matchItems map (p.1 :: items.map Prod.fst) left =
      g :: matchItems map (items.map Prod.fst) left' ∧ Left Q items left' := by
  obtain ⟨v, o⟩ := p
  obtain ⟨used, hused, hq⟩ := h
  -- Records that were used up already stay so, and the item may use up one more.
  have hfurther : ∀ used, recordsOfItems items = used ++ left → (∀ x ∈ used, Q x) →
      (∀ y, o = some y → Q y) → ∃ g left', matchItems map (v :: items.map Prod.fst) left =
        g :: matchItems map (items.map Prod.fst) left' ∧ Left Q items left' := by
    intro used hused hq ho
    obtain ⟨g, left', hmatch, rfl | ⟨x, rfl, hv, heq⟩⟩ :=
      matchItems_cons map v (items.map Prod.fst) left
    · exact ⟨g, _, hmatch, used, hused, hq⟩
    · refine ⟨g, left', hmatch, used ++ [x], by simpa using hused, ?_⟩
      refine List.forall_mem_append.mpr ⟨hq, ?_⟩
      rw [List.forall_mem_singleton]
      exact hQ x hv heq ho
  cases o with
  | none => exact hfurther used hused hq nofun
  | some x =>
    obtain ⟨hvalue, hv⟩ := htruthy x rfl
    cases used with
    | nil =>
      -- The own record of the item is the first that is left.
      obtain rfl : x :: recordsOfItems items = left := hused
      refine ⟨matchGroup map v x, recordsOfItems items, ?_, .all Q items⟩
      have hself : x.value.strictEq v = true := hvalue ▸ Value.strictEq_self (hvalue ▸ hv)
      simp [matchItems, hv, isEmpty_matchGroup, hself]
    | cons y used =>
      obtain ⟨rfl, hrest⟩ := List.cons.inj hused
      rw [List.forall_mem_cons] at hq
      exact hfurther used hrest hq.2 fun y hy => by cases hy; exact hq.1

/-- A record that was not used up before its item is the first that is left there. -/
theorem Left.head {v : Value} {x : Recorded} (h : Left Q ((v, some x) :: items) left) (hx : ¬ Q x) :
    left = x :: recordsOfItems items := by
  obtain ⟨used, hused, hq⟩ := h
  cases used with
  | nil => exact hused.symm
  | cons y used =>
    obtain ⟨rfl, -⟩ := List.cons.inj hused
    exact absurd (hq x List.mem_cons_self) hx

end Structure

end MarkupTrace
