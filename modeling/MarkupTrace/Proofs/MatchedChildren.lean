import MarkupTrace.Proofs.ForestEntries
import MarkupTrace.Proofs.Recording

/-!
# Children match their records in order

Take an element whose children each stand for one node or for none: texts, expressions with a text or
a number, and host elements. What is recorded for it and what its children contributed then go side
by side. A text or an expression matches its own record and nothing else, since it comes when all
records before are used up; and an element matches none.
-/

namespace MarkupTrace

open Source Annotate Eval Structure

/-- A text that is not empty, or a number other than zero and NaN. -/
def Value.Prints (v : Value) : Prop := v.shown?.isSome ∧ v.isTruthy

namespace Value

variable {v : Value}

theorem strictEq_self (h : v.isTruthy = true) : v.strictEq v = true := by
  cases v with
  | undefined => cases h
  | null => cases h
  | number n =>
    cases n with
    | nan => cases h
    | infinite s => simp [strictEq, Double.equal]
    | finite s r => simp [strictEq, Double.equal]
  | _ => simp [strictEq]

theorem Prints.strictEq_element (h : v.Prints) (e : CreatedElement Value) :
    v.strictEq (.element e) = false := by
  obtain ⟨hshown, -⟩ := h
  cases v with
  | text s => rfl
  | number n => rfl
  | _ => cases hshown

theorem Prints.strictEq_array (h : v.Prints) (identity : Nat) (items : List Value) :
    v.strictEq (.array identity items) = false := by
  obtain ⟨hshown, -⟩ := h
  cases v with
  | text s => rfl
  | number n => rfl
  | _ => cases hshown

theorem prints_text {s : String} (h : s ≠ "") : (text s).Prints := ⟨rfl, by simpa [isTruthy]⟩

end Value

namespace Eval

/-- A child stands for one node or for none, given what it contributed: it is a text with something
in it besides blanks, or shown as nothing; an expression whose value is a text or a number; braces
with nothing in them; or a host element. -/
def Simple : Child → Option Value → Prop
  | .text t, _ => t.isSignificant = true ∨ t.cooked = ""
  | .container _ _, v => ∃ w, v = some w ∧ w.Prints
  | .emptyContainer _, _ => True
  | .element e, _ => isHostTag e.name = true

/-- The children that contributed something, each with that. -/
def contributions : List Child → List (Option Value) → List (Child × Value)
  | c :: cs, v :: vs => (v.map fun w => (c, w)).toList ++ contributions cs vs
  | _, _ => []

/-- The kinds of children: those that give nothing and have no record, those that are shown as a text
and have one, and host elements. -/
theorem Simple.kinds {o : Origin} {log : List Creation} {c : Child} {v : Option Value}
    (h : Simple c v) (hv : Contributes o log c v) (i : Instance) :
    (v = none ∧ i.recordOf? c v = none) ∨
      (∃ w x, v = some w ∧ w.Prints ∧ i.recordOf? c v = some x ∧ x.value = w) ∨
      ∃ e, ∃ c' ∈ log, c = .element e ∧ isHostTag e.name = true ∧ c'.element = o.element e ∧
        v = some (.element c'.value) ∧ i.recordOf? c v = none := by
  cases c with
  | text t =>
    by_cases hcooked : t.cooked = ""
    · have hblank : t.isSignificant = false :=
        Bool.eq_false_iff.mpr fun hs => MarkupText.cooked_ne_empty hs hcooked
      rw [Contributes, if_pos hcooked] at hv
      exact .inl ⟨hv, by rw [Instance.recordOf?, hblank]; rfl⟩
    · have hsignificant : t.isSignificant = true := h.resolve_right hcooked
      rw [Contributes, if_neg hcooked] at hv
      subst hv
      refine .inr (.inl ⟨.text t.cooked, ⟨.text t.cooked, i.place t.trimmedSpan, false⟩, rfl,
        Value.prints_text hcooked, ?_, rfl⟩)
      rw [Instance.recordOf?, hsignificant]
      rfl
  | container e span =>
    obtain ⟨w, rfl, hw⟩ := h
    exact .inr (.inl ⟨w, ⟨w, i.place span, true⟩, rfl, hw, rfl, rfl⟩)
  | emptyContainer span => exact .inl ⟨hv, rfl⟩
  | element e =>
    obtain ⟨c', hc', helement, rfl⟩ := hv
    exact .inr (.inr ⟨e, c', hc', rfl, h, helement, rfl, rfl⟩)

end Eval

namespace Structure

variable (map : ExpressionMap)

/-- A truthy value matches its own record, which comes last in the group. -/
theorem getLast?_matchGroup_self {x : Recorded} (h : x.value.isTruthy = true) :
    (matchGroup map x.value x).getLast? = some (.ofRecorded x) := by
  rw [matchGroup, if_pos (Value.strictEq_self h)]
  split
  · rw [List.getLast?_append]
    rfl
  · rfl

theorem matchGroup_element {x : Recorded} (h : x.value.Prints) (e : CreatedElement Value) :
    matchGroup map (.element e) x = [] := by
  rw [matchGroup, h.strictEq_element, if_neg Bool.false_ne_true]

theorem matchItems_nil (items : List Value) : matchItems map items [] = items.map fun _ => [] := by
  induction items with
  | nil => rfl
  | cons v items ih => rw [matchItems, ih, List.map_cons]

/-- A value that is shown as a text uses its record up. -/
theorem matchItems_self {x : Recorded} (h : x.value.Prints) (items : List Value)
    (xs : List Recorded) : matchItems map (x.value :: items) (x :: xs) =
      matchGroup map x.value x :: matchItems map items xs := by
  have hsome : (matchGroup map x.value x).isEmpty = false := by
    rw [isEmpty_matchGroup, Value.strictEq_self h.2]
    rfl
  rw [matchItems, if_pos h.2, hsome, if_neg Bool.false_ne_true]

/-- An element leaves all records where they are. -/
theorem matchItems_element {xs : List Recorded} (h : ∀ x ∈ xs, x.value.Prints)
    (e : CreatedElement Value) (items : List Value) :
    matchItems map (.element e :: items) xs = [] :: matchItems map items xs := by
  cases xs with
  | nil => rfl
  | cons x xs =>
    have hgroup := matchGroup_element map (h x List.mem_cons_self) e
    rw [matchItems, hgroup, ite_self]
    rfl

/-- An array that is none of the recorded values is matched item by item. -/
theorem getD_reconcile_array {xs : List Recorded} {identity : Nat} {items : List Value}
    (h : ∀ x ∈ xs, x.value.strictEq (.array identity items) = false) (k : Nat) :
    (reconcile (.array identity items) xs map).getD k [] =
      (matchItems map items xs)[k]?.getD [] := by
  cases xs with
  | nil =>
    rw [matchItems_nil, List.getElem?_map]
    cases items[k]? <;> rfl
  | cons x xs =>
    have hwhole : matchGroup map (.array identity items) x = [] := by
      rw [matchGroup, h x List.mem_cons_self, if_neg Bool.false_ne_true]
    rw [reconcile_cons, hwhole, List.getD_eq_getElem?_getD]
    rfl

end Structure

namespace Annotate.Instance

/-- The group of a child that contributed a value: that of its record, if it has one. -/
def groupOf (i : Instance) (map : ExpressionMap) (c : Child) (v : Value) : List Contributor :=
  ((i.recordOf? c (some v)).map (matchGroup map v)).getD []

variable {i : Instance} {o : Origin} {log : List Creation} {cs : List Child}
  {given : List (Option Value)}

theorem prints_of_mem_recordsOf (hcs : List.Forall₂ (Contributes o log) cs given)
    (hsimple : List.Forall₂ Simple cs given) : ∀ x ∈ i.recordsOf cs given, x.value.Prints := by
  induction hcs with
  | nil => nofun
  | cons hc _ ih =>
    cases hsimple with
    | cons hs hsimple =>
      refine List.forall_mem_append.mpr ⟨?_, ih hsimple⟩
      intro x hx
      rcases hs.kinds hc i with ⟨-, hnone⟩ | ⟨w, y, -, hw, hy, rfl⟩ | ⟨-, -, -, -, -, -, -, hnone⟩
      · rw [hnone] at hx
        cases hx
      · rw [hy] at hx
        rwa [List.mem_singleton.mp hx]
      · rw [hnone] at hx
        cases hx

/-- The items of the children and the records go side by side. -/
theorem matchItems_recordsOf (hcs : List.Forall₂ (Contributes o log) cs given)
    (hsimple : List.Forall₂ Simple cs given) (map : ExpressionMap) :
    matchItems map (given.filterMap id) (i.recordsOf cs given) =
      (contributions cs given).map fun p => i.groupOf map p.1 p.2 := by
  induction hcs with
  | nil => rfl
  | @cons c v cs given hc hcs ih =>
    cases hsimple with
    | cons hs hsimple =>
      have ih := ih hsimple
      have hprints := prints_of_mem_recordsOf (i := i) hcs hsimple
      rcases hs.kinds hc i with ⟨rfl, hnone⟩ | ⟨w, y, rfl, hw, hy, rfl⟩ |
        ⟨e, c', -, rfl, -, -, rfl, hnone⟩
      · rw [recordsOf, hnone]
        exact ih
      · rw [recordsOf, hy, contributions]
        show matchItems map (y.value :: given.filterMap id) (y :: i.recordsOf cs given) =
          i.groupOf map c y.value :: (contributions cs given).map _
        rw [matchItems_self map hw, ih, groupOf, hy]
        rfl
      · rw [recordsOf, hnone, contributions]
        show matchItems map (.element c'.value :: given.filterMap id) (i.recordsOf cs given) =
          i.groupOf map (.element e) (.element c'.value) :: (contributions cs given).map _
        rw [matchItems_element map hprints, ih, groupOf, hnone]
        rfl

end Annotate.Instance

/-- As many contributions as values were given. -/
theorem Eval.map_snd_contributions {cs : List Child} {given : List (Option Value)}
    (h : cs.length = given.length) :
    (contributions cs given).map Prod.snd = given.filterMap id := by
  induction cs generalizing given with
  | nil =>
    cases given with
    | nil => rfl
    | cons v vs => cases h
  | cons c cs ih =>
    cases given with
    | nil => cases h
    | cons v vs =>
      rw [contributions, List.map_append, ih (Nat.succ.inj h)]
      cases v <;> rfl

end MarkupTrace
