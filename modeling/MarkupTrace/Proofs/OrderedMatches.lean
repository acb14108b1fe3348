import MarkupTrace.Proofs.ForestEntries
import Mathlib.Tactic.SplitIfs

/-!
# Records are used up in order

The items of an array are matched against the recorded children with one record in view at a time. An
item with a group has used up the record in view, and an item without one has left it there. So the
items that have groups stand for the first records, one each and in order; equal values are told
apart by that order alone.

Reconciling compares the whole value with the first record before it looks at items. Which of the
results it gives can be read off the value and the first record.
-/

namespace MarkupTrace.Structure

/-- The group that a record gives ends with the record's own contributor. A text's has no other. -/
def EndsWith (x : Recorded) (g : List Contributor) : Prop :=
  ∃ found, g = found ++ [.ofRecorded x] ∧ (x.isExpression = false → found = [])

namespace EndsWith

variable {x : Recorded} {g : List Contributor}

theorem isEmpty (h : EndsWith x g) : g.isEmpty = false := by
  obtain ⟨found, rfl, -⟩ := h
  simp

theorem getLast? (h : EndsWith x g) : g.getLast? = some (.ofRecorded x) := by
  obtain ⟨found, rfl, -⟩ := h
  exact List.getLast?_concat ..

end EndsWith

theorem endsWith_matchGroup (map : ExpressionMap) {v : Value} {x : Recorded}
    (h : x.value.strictEq v = true) : EndsWith x (matchGroup map v x) := by
  rw [matchGroup, if_pos h]
  cases hx : x.isExpression with
  | false => exact ⟨[], rfl, fun _ => rfl⟩
  | true => exact ⟨lookUp map v, rfl, fun hfalse => absurd (hx.symm.trans hfalse) nofun⟩

theorem matchGroup_eq_nil (map : ExpressionMap) {v : Value} {x : Recorded}
    (h : x.value.strictEq v = false) : matchGroup map v x = [] := by
  rw [← List.isEmpty_iff, isEmpty_matchGroup, h]
  rfl

/-- The number of groups that are not empty. -/
def filled (groups : List (List Contributor)) : Nat := groups.countP fun g => !g.isEmpty

/-- One group for each item. The record in view at an item is the one behind those that the groups
before it stand for. -/
structure InOrder (items : List Value) (recorded : List Recorded)
    (groups : List (List Contributor)) : Prop where
  length : groups.length = items.length
  /-- The groups that are not empty end with the first records. -/
  lasts : (groups.filter fun g => !g.isEmpty).map List.getLast? =
    (recorded.take (filled groups)).map fun x => some (.ofRecorded x)
  /-- Every one of these groups has its record. -/
  enough : filled groups ≤ recorded.length
  used : ∀ i item g, items[i]? = some item → groups[i]? = some g → g ≠ [] →
    ∃ x, recorded[filled (groups.take i)]? = some x ∧ item.isTruthy = true ∧
      x.value.strictEq item = true ∧ EndsWith x g
  unused : ∀ i item, items[i]? = some item → groups[i]? = some [] → item.isTruthy = true →
    ∀ x, recorded[filled (groups.take i)]? = some x → x.value.strictEq item = false

namespace InOrder

variable {items : List Value} {recorded : List Recorded} {groups : List (List Contributor)}
  {v : Value}

theorem nil (recorded : List Recorded) : InOrder [] recorded [] where
  length := rfl
  lasts := rfl
  enough := Nat.zero_le _
  used := nofun
  unused := nofun

/-- An item that is the record in view uses it up. -/
theorem take {x : Recorded} {g : List Contributor} (hv : v.isTruthy = true)
    (heq : x.value.strictEq v = true) (hg : EndsWith x g) (h : InOrder items recorded groups) :
    InOrder (v :: items) (x :: recorded) (g :: groups) := by
  have hfilled : ∀ gs, filled (g :: gs) = filled gs + 1 := by
    intro gs
    rw [filled, List.countP_cons_of_pos (by rw [hg.isEmpty]; rfl)]
    rfl
  refine ⟨congrArg (· + 1) h.length, ?_, ?_, ?_, ?_⟩
  · rw [List.filter_cons_of_pos (by rw [hg.isEmpty]; rfl), hfilled, List.take_succ_cons,
      List.map_cons, List.map_cons, hg.getLast?, h.lasts]
  · rw [hfilled]
    exact Nat.succ_le_succ h.enough
  · intro i item g' hitem hgroup hne
    cases i with
    | zero =>
      cases hitem
      cases hgroup
      exact ⟨x, rfl, hv, heq, hg⟩
    | succ i =>
      rw [List.take_succ_cons, hfilled]
      exact h.used i item g' hitem hgroup hne
  · intro i item hitem hgroup htruthy
    cases i with
    | zero =>
      cases hgroup
      exact absurd hg.isEmpty nofun
    | succ i =>
      rw [List.take_succ_cons, hfilled]
      exact h.unused i item hitem hgroup htruthy

/-- An item that is not truthy, or not the record in view, leaves it there. -/
theorem skip (hv : v.isTruthy = true → ∀ x, recorded.head? = some x → x.value.strictEq v = false)
    (h : InOrder items recorded groups) : InOrder (v :: items) recorded ([] :: groups) := by
  have hfilled : ∀ gs, filled ([] :: gs) = filled gs := fun gs =>
    List.countP_cons_of_neg Bool.false_ne_true
  refine ⟨congrArg (· + 1) h.length, ?_, ?_, ?_, ?_⟩
  · rw [List.filter_cons_of_neg Bool.false_ne_true, hfilled]
    exact h.lasts
  · rw [hfilled]
    exact h.enough
  · intro i item g hitem hgroup hne
    cases i with
    | zero =>
      cases hgroup
      exact absurd rfl hne
    | succ i =>
      rw [List.take_succ_cons, hfilled]
      exact h.used i item g hitem hgroup hne
  · intro i item hitem hgroup htruthy x hx
    cases i with
    | zero =>
      cases hitem
      exact hv htruthy x (List.head?_eq_getElem? ▸ hx)
    | succ i =>
      rw [List.take_succ_cons, hfilled] at hx
      exact h.unused i item hitem hgroup htruthy x hx

end InOrder

theorem inOrder_matchItems (map : ExpressionMap) (items : List Value) (recorded : List Recorded) :
    InOrder items recorded (matchItems map items recorded) := by
  induction items generalizing recorded with
  | nil => exact .nil recorded
  | cons v items ih =>
    cases recorded with
    | nil => exact (ih []).skip fun _ _ => nofun
    | cons x xs =>
      rw [matchItems]
      by_cases hmatch : v.isTruthy = true ∧ x.value.strictEq v = true
      · have hgroup := endsWith_matchGroup map hmatch.2
        rw [if_pos hmatch.1, hgroup.isEmpty]
        exact (ih xs).take hmatch.1 hmatch.2 hgroup
      · have hother : v.isTruthy = true → x.value.strictEq v = false := fun hv =>
          Bool.eq_false_iff.mpr fun heq => hmatch ⟨hv, heq⟩
        have hempty : (if v.isTruthy then matchGroup map v x else []) = [] := by
          split_ifs with hv
          · exact matchGroup_eq_nil map (hother hv)
          · rfl
        rw [hempty]
        refine (ih (x :: xs)).skip fun hv y hy => ?_
        cases hy
        exact hother hv

/-- Reconciling gives no group, where nothing was recorded, the value is not truthy, or it is neither
the first record's nor an array; or one group for the whole value, where it is the first record's; or
else one group for each item of the array, and these use the records up in order. -/
theorem reconcile_uses_records_in_order (children : Value) (recorded : List Recorded)
    (map : ExpressionMap) :
    let groups := reconcile children recorded map
    let isFirst := ∃ first ∈ recorded.head?, first.value.strictEq children = true
    (groups = [] ∧ (recorded = [] ∨ children.isTruthy = false ∨
      (¬ isFirst ∧ ∀ identity items, children ≠ .array identity items))) ∨
    (∃ first ∈ recorded.head?, ∃ g, groups = [g] ∧ EndsWith first g ∧
      children.isTruthy = true ∧ first.value.strictEq children = true) ∨
    (∃ identity items, children = .array identity items ∧ recorded ≠ [] ∧ ¬ isFirst ∧
      InOrder items recorded groups) := by
  intro groups isFirst
  cases recorded with
  | nil => exact .inl ⟨rfl, .inl rfl⟩
  | cons first rest =>
    have hgroups := reconcile_cons children first rest map
    cases htruthy : children.isTruthy with
    | false =>
      rw [htruthy, if_neg Bool.false_ne_true] at hgroups
      exact .inl ⟨hgroups, .inr (.inl rfl)⟩
    | true =>
      rw [htruthy, if_pos rfl, isEmpty_matchGroup] at hgroups
      cases hfirst : first.value.strictEq children with
      | true =>
        rw [hfirst] at hgroups
        exact .inr (.inl ⟨first, rfl, _, hgroups, endsWith_matchGroup map hfirst, rfl, hfirst⟩)
      | false =>
        have hother : ¬ isFirst := by
          rintro ⟨x, hx, heq⟩
          cases Option.mem_some.mp hx
          rw [hfirst] at heq
          cases heq
        rw [hfirst] at hgroups
        cases children with
        | array identity items =>
          refine .inr (.inr ⟨identity, items, rfl, nofun, hother, ?_⟩)
          have hitems : groups = matchItems map items (first :: rest) := hgroups
          exact hitems ▸ inOrder_matchItems map items (first :: rest)
        | _ => exact .inl ⟨hgroups, .inr (.inr ⟨hother, nofun⟩)⟩

end MarkupTrace.Structure
