import MarkupTrace.Proofs.ConsumedRecords
import MarkupTrace.Structure.ExpressionMap

/-!
# Expression maps and logs

An expression map keeps what was inserted under keys. Next to it stands a log: everything that was
inserted, one after the other. With the arrays of the log replaced by their items, what the map finds
for a value are the entries of the log with that value, in order. Values are the same here if they are
strictly equal, or both are NaN.

Several maps are changed side by side. A clone takes over the log that its map has by then, and after
that each map goes with its own log, whatever is done to the others.
-/

namespace MarkupTrace

namespace Value

/-- Texts, numbers and elements are found in expression maps. -/
def isFindable : Value → Bool
  | text _ | number _ | element _ => true
  | _ => false

def isNaN : Value → Bool
  | number n => n.isNaN
  | _ => false

/-- Strict equality, save that NaN is the same as NaN. -/
def isSame (v w : Value) : Bool := v.strictEq w || (v.isNaN && w.isNaN)

end Value

namespace Structure

/-! ## Keys -/

namespace Key

/-- A finite number is kept under itself, but a zero under the one without a sign. -/
theorem zero_or_self (s : Bool) (r : Fin magnitudes) :
    (if (Double.finite s r).isZero then Double.zero else .finite s r) =
      .finite (s && r.val != 0) r := by
  by_cases hr : r.val = 0
  · have hzero : r = ⟨0, by decide⟩ := Fin.ext hr
    simp [Double.isZero, hzero, Double.zero]
  · simp [Double.isZero, hr]

/-- Numbers are kept under the same if they are equal or both NaN. -/
theorem number_eq_iff {a b : Double} :
    (if a.isZero then Double.zero else a) = (if b.isZero then Double.zero else b) ↔
      a.equal b = true ∨ a.isNaN = true ∧ b.isNaN = true := by
  cases a <;> cases b
  case finite.finite s r t u =>
    have hsigns : ∀ x : Bool, (s && x) = (t && x) ↔ s = t ∨ x = false := by
      revert s t
      decide
    rw [zero_or_self, zero_or_self, Double.equal_finite, Double.finite.injEq]
    constructor
    · rintro ⟨hs, rfl⟩
      exact .inl ⟨rfl, ((hsigns _).mp hs).imp_right fun hr => by simpa using hr⟩
    · rintro (⟨rfl, h⟩ | ⟨h, -⟩)
      · exact ⟨(hsigns _).mpr (h.imp_right fun hr => by simpa using hr), rfl⟩
      · cases h
  all_goals try rw [zero_or_self]
  all_goals simp [Double.isZero, Double.equal, Double.isNaN]

theorem of?_eq_none {v : Value} (h : v.isFindable = false) : of? v = none := by
  cases v <;> first | rfl | cases h

theorem exists_of? {v : Value} (h : v.isFindable = true) : ∃ key, of? v = some key := by
  cases v <;> first | exact ⟨_, rfl⟩ | cases h

/-- Values have the key of a text, a number or an element if they are the same as it. -/
theorem of?_eq_iff {v w : Value} (hv : v.isFindable = true) :
    of? w = of? v ↔ w.isFindable = true ∧ w.isSame v = true := by
  cases v <;> try cases hv
  case number n =>
    cases w with
    | number k =>
      simp [of?, number_eq_iff, Value.isFindable, Value.isSame, Value.strictEq, Value.isNaN]
    | _ => simp [of?, Value.isFindable, Value.isSame, Value.strictEq, Value.isNaN]
  all_goals
    cases w <;> simp [of?, Value.isFindable, Value.isSame, Value.strictEq, Value.isNaN]

end Key

/-! ## Flat logs -/

/-- A log with every array replaced by its items, under the location of the array and as the same kind
of child, until no array is left. -/
inductive Flattens : (log flat : List Recorded) → Prop
  | nil : Flattens [] []
  | items {identity : Nat} {items : List Value} {location : Location} {isExpression : Bool}
    {log flat : List Recorded}
    (h : Flattens (items.map (fun v => ⟨v, location, isExpression⟩) ++ log) flat) :
    Flattens (⟨.array identity items, location, isExpression⟩ :: log) flat
  | keep {x : Recorded} {log flat : List Recorded}
    (hx : ∀ identity items, x.value ≠ .array identity items) (h : Flattens log flat) :
    Flattens (x :: log) (x :: flat)

theorem leavesOfItems_eq (vs : List Value) : leavesOfItems vs = vs.flatMap leaves := by
  induction vs with
  | nil => rw [leavesOfItems, List.flatMap_nil]
  | cons v vs ih => rw [leavesOfItems, List.flatMap_cons, ih]

theorem flatten_array (identity : Nat) (items : List Value) (location : Location)
    (isExpression : Bool) : flatten ⟨.array identity items, location, isExpression⟩ =
      (items.map fun v => Recorded.mk v location isExpression).flatMap flatten := by
  rw [flatten, leaves, leavesOfItems_eq, List.map_flatMap, List.flatMap_map]
  rfl

theorem flatten_of_not_array {x : Recorded} (h : ∀ identity items, x.value ≠ .array identity items) :
    flatten x = [x] := by
  obtain ⟨v, location, isExpression⟩ := x
  cases v with
  | array identity items => exact absurd rfl (h identity items)
  | _ => rfl

namespace Flattens

variable {log log' flat flat' : List Recorded}

theorem append (h : Flattens log flat) (h' : Flattens log' flat') :
    Flattens (log ++ log') (flat ++ flat') := by
  induction h with
  | nil => exact h'
  | items _ ih =>
    rw [List.append_assoc] at ih
    exact .items ih
  | keep hx _ ih => exact .keep hx ih

theorem eq (h : Flattens log flat) : flat = log.flatMap flatten := by
  induction h with
  | nil => rfl
  | items _ ih => rw [ih, List.flatMap_append, List.flatMap_cons, flatten_array]
  | keep hx _ ih => rw [ih, List.flatMap_cons, flatten_of_not_array hx, List.singleton_append]

end Flattens

mutual

theorem flattens_value (location : Location) (isExpression : Bool) : (v : Value) →
    Flattens [⟨v, location, isExpression⟩] (flatten ⟨v, location, isExpression⟩)
  | .array identity items => by
    rw [flatten_array]
    refine .items ?_
    rw [List.append_nil]
    exact flattens_values location isExpression items
  | .undefined | .null | .bool _ | .number _ | .text _ | .object _ _ | .element _ | .function _
  | .builtin _ | .stack _ | .location _ => .keep nofun .nil

theorem flattens_values (location : Location) (isExpression : Bool) : (vs : List Value) →
    Flattens (vs.map fun v => ⟨v, location, isExpression⟩)
      ((vs.map fun v => Recorded.mk v location isExpression).flatMap flatten)
  | [] => .nil
  | v :: vs =>
    (flattens_value location isExpression v).append (flattens_values location isExpression vs)

end

theorem flattens (log : List Recorded) : Flattens log (log.flatMap flatten) := by
  induction log with
  | nil => exact .nil
  | cons x log ih => exact (flattens_value x.location x.isExpression x.value).append ih

/-! ## One map and its log -/

/-- The map holds the entries of a flat log, each key those of its values. -/
def ExpressionMap.Holds (m : ExpressionMap) (flat : List Recorded) : Prop :=
  ∀ key, find key m.entries = flat.filter fun x => Key.of? x.value = some key

namespace ExpressionMap

theorem holds_empty : empty.Holds [] := fun _ => rfl

namespace Holds

variable {m : ExpressionMap} {flat : List Recorded}

theorem insertLeaf (h : m.Holds flat) (x : Recorded) : (m.insertLeaf x).Holds (flat ++ [x]) := by
  intro key
  rw [List.filter_append, ← h key, ExpressionMap.insertLeaf]
  cases hx : Key.of? x.value with
  | none => simp [hx]
  | some own =>
    by_cases hkey : own = key
    · subst hkey
      simp [hx, find_put_self]
    · simp [hx, hkey, find_put_of_ne (Ne.symm hkey)]

theorem insertLeaves (h : m.Holds flat) (xs : List Recorded) :
    (xs.foldl ExpressionMap.insertLeaf m).Holds (flat ++ xs) := by
  induction xs generalizing m flat with
  | nil => simpa using h
  | cons x xs ih => simpa using ih (h.insertLeaf x)

theorem insert (h : m.Holds flat) (x : Recorded) : (m.insert x).Holds (flat ++ flatten x) :=
  h.insertLeaves (flatten x)

theorem insertAll (h : m.Holds flat) (xs : List Recorded) :
    (m.insertAll xs).Holds (flat ++ xs.flatMap flatten) := by
  induction xs generalizing m flat with
  | nil =>
    rw [List.flatMap_nil, List.append_nil]
    exact h
  | cons x xs ih =>
    rw [List.flatMap_cons, ← List.append_assoc]
    exact ih (h.insert x)

/-- What is found for a value are the entries with the same value. -/
theorem get_eq (h : m.Holds flat) (v : Value) : m.get v =
    if v.isFindable then flat.filter fun x => x.value.isFindable && x.value.isSame v else [] := by
  cases hv : v.isFindable with
  | false =>
    rw [get, Key.of?_eq_none hv]
    rfl
  | true =>
    obtain ⟨key, hkey⟩ := Key.exists_of? hv
    rw [get, hkey, if_pos rfl]
    refine (h key).trans (List.filter_congr fun x _ => ?_)
    rw [Bool.eq_iff_iff, decide_eq_true_eq, Bool.and_eq_true, ← hkey]
    exact Key.of?_eq_iff hv

end Holds

end ExpressionMap

/-! ## Several maps -/

/-- One step on maps that are numbered in the order in which they were made. -/
inductive MapStep
  | insert (map : Nat) (x : Recorded)
  /-- Inserts what is recorded against a record by then. -/
  | fold (map : Nat) (store : Store) (record : RecordRef)
  | clone (map : Nat)

namespace MapStep

/-- The map that a step changes. A clone changes none. -/
def changes? : MapStep → Option Nat
  | insert i _ | fold i _ _ => some i
  | clone _ => none

def run : MapStep → List ExpressionMap → List ExpressionMap
  | insert i x, maps => maps.modify i fun m => m.insert x
  | fold i store record, maps => maps.modify i fun m => m.insertAll (store.recorded record)
  | clone i, maps => maps ++ maps[i]?.toList

/-- What the step does to the logs of the maps. -/
def log : MapStep → List (List Recorded) → List (List Recorded)
  | insert i x, logs => logs.modify i (· ++ [x])
  | fold i store record, logs => logs.modify i (· ++ store.recorded record)
  | clone i, logs => logs ++ logs[i]?.toList

/-- A step leaves the maps that it does not change as they are. -/
theorem getElem?_run {step : MapStep} {j : Nat} (h : step.changes? ≠ some j)
    {maps : List ExpressionMap} {m : ExpressionMap} (hm : maps[j]? = some m) :
    (step.run maps)[j]? = some m := by
  cases step with
  | insert i x | fold i store record =>
    have hi : i ≠ j := fun hij => h (congrArg some hij)
    rw [run, List.getElem?_modify_ne _ _ hi, hm]
  | clone i =>
    rw [run, List.getElem?_append_left (List.getElem?_eq_some_iff.mp hm).1, hm]

end MapStep

def runMaps (steps : List MapStep) (maps : List ExpressionMap) : List ExpressionMap :=
  steps.foldl (fun maps step => step.run maps) maps

def runLogs (steps : List MapStep) (logs : List (List Recorded)) : List (List Recorded) :=
  steps.foldl (fun logs step => step.log logs) logs

/-- As many maps as logs, and each map holds its log made flat. -/
abbrev Logged : List ExpressionMap → List (List Recorded) → Prop :=
  List.Forall₂ fun m log => m.Holds (log.flatMap flatten)

namespace Logged

variable {maps : List ExpressionMap} {logs : List (List Recorded)}

theorem modify (h : Logged maps logs) {f : ExpressionMap → ExpressionMap} {xs : List Recorded}
    (hf : ∀ m flat, m.Holds flat → (f m).Holds (flat ++ xs.flatMap flatten)) (i : Nat) :
    Logged (maps.modify i f) (logs.modify i (· ++ xs)) := by
  induction h generalizing i with
  | nil =>
    rw [List.modify_nil, List.modify_nil]
    exact .nil
  | @cons m log maps logs hm h ih =>
    cases i with
    | zero =>
      refine .cons ?_ h
      rw [List.flatMap_append]
      exact hf m _ hm
    | succ i => exact .cons hm (ih i)

theorem getElem? (h : Logged maps logs) (i : Nat) : Logged maps[i]?.toList logs[i]?.toList := by
  induction h generalizing i with
  | nil => exact .nil
  | cons hm h ih =>
    cases i with
    | zero => exact .cons hm .nil
    | succ i => exact ih i

theorem step (h : Logged maps logs) (step : MapStep) : Logged (step.run maps) (step.log logs) := by
  cases step with
  | insert i x =>
    exact h.modify (fun m flat hm => by simpa using hm.insert x) i
  | fold i store record => exact h.modify (fun m flat hm => hm.insertAll _) i
  | clone i => exact List.rel_append h (h.getElem? i)

theorem run (h : Logged maps logs) (steps : List MapStep) :
    Logged (runMaps steps maps) (runLogs steps logs) := by
  induction steps generalizing maps logs with
  | nil => exact h
  | cons step steps ih => exact ih (h.step step)

theorem empty (count : Nat) : Logged (List.replicate count .empty) (List.replicate count []) := by
  induction count with
  | zero => exact .nil
  | succ count ih => exact .cons ExpressionMap.holds_empty ih

end Logged

/-- Begin with any number of empty maps. After any steps on them, each map goes with the log of what
was inserted into it, and before that into the map it was cloned from. That log can be made flat in
one way only, and a value that is a text, a number or an element finds the entries of the flat log
with the same value, in order; any other value finds nothing. A further step changes what is found in
one map at most, the one that it inserts into. -/
theorem maps_find_logged (count : Nat) (steps : List MapStep) :
    let maps := runMaps steps (List.replicate count .empty)
    let logs := runLogs steps (List.replicate count [])
    maps.length = logs.length ∧
    (∀ (i : Nat) m log, maps[i]? = some m → logs[i]? = some log →
      ∃ flat, Flattens log flat ∧ (∀ other, Flattens log other → other = flat) ∧
        ∀ v, m.get v = if v.isFindable
          then flat.filter fun x => x.value.isFindable && x.value.isSame v else []) ∧
    ∀ (step : MapStep) (j : Nat) m, maps[j]? = some m → step.changes? ≠ some j →
      ∃ m', (step.run maps)[j]? = some m' ∧ ∀ v, m'.get v = m.get v := by
  intro maps logs
  have hlogged : Logged maps logs := (Logged.empty count).run steps
  refine ⟨hlogged.length_eq, ?_, ?_⟩
  · intro i m log hm hlog
    have hone := hlogged.getElem? i
    rw [hm, hlog] at hone
    cases hone with
    | cons hholds _ =>
      exact ⟨_, flattens log, fun other hother => hother.eq, fun v => hholds.get_eq v⟩
  · intro step j m hm hstep
    exact ⟨m, MapStep.getElem?_run hstep hm, fun _ => rfl⟩

end Structure

end MarkupTrace
