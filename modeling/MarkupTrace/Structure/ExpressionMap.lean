import MarkupTrace.Value.Store

/-!
# Expression maps

An expression map finds what may have produced a rendered value. Recorded children are kept under
their value: elements under their identity, texts and numbers under their content, where zeros of
both signs are one number and NaN is another. Of arrays the items are kept, at any depth, under the
location of the whole. Other values are not kept.
-/

namespace MarkupTrace.Structure

inductive Key
  | element (identity : Nat)
  | text (value : String)
  | number (value : Double)
  deriving DecidableEq

def Key.of? : Value → Option Key
  | .element e => some (.element e.identity)
  | .text s => some (.text s)
  | .number n => some (.number (if n.isZero then .zero else n))
  | _ => none

mutual

/-- The value itself, or of an array those of its items. -/
def leaves : Value → List Value
  | .array _ items => leavesOfItems items
  | v => [v]

def leavesOfItems : List Value → List Value
  | [] => []
  | v :: vs => leaves v ++ leavesOfItems vs

end

/-- What a recorded child gives to keep. -/
def flatten (x : Recorded) : List Recorded := (leaves x.value).map fun value => { x with value }

/-- Recorded children by key, under each key in the order they came in. -/
structure ExpressionMap where
  entries : List (Key × List Recorded)

namespace ExpressionMap

def empty : ExpressionMap := ⟨[]⟩

/-- The number of keys. -/
def size (m : ExpressionMap) : Nat := m.entries.length

def find (key : Key) : List (Key × List Recorded) → List Recorded
  | [] => []
  | (k, xs) :: rest => if k = key then xs else find key rest

def put (key : Key) (x : Recorded) : List (Key × List Recorded) → List (Key × List Recorded)
  | [] => [(key, [x])]
  | (k, xs) :: rest => if k = key then (k, xs ++ [x]) :: rest else (k, xs) :: put key x rest

theorem find_put_self (key : Key) (x : Recorded) (entries : List (Key × List Recorded)) :
    find key (put key x entries) = find key entries ++ [x] := by
  induction entries with
  | nil => simp [put, find]
  | cons e rest ih => by_cases h : e.1 = key <;> simp [put, find, h, ih]

theorem find_put_of_ne {key other : Key} (h : other ≠ key) (x : Recorded)
    (entries : List (Key × List Recorded)) :
    find other (put key x entries) = find other entries := by
  induction entries with
  | nil => simp [put, find, h.symm]
  | cons e rest ih =>
    by_cases hk : e.1 = key
    · simp [put, find, hk, h.symm]
    · simp [put, find, hk, ih]

/-- Keeps one child under its own value. -/
def insertLeaf (m : ExpressionMap) (x : Recorded) : ExpressionMap :=
  match Key.of? x.value with
  | some key => ⟨put key x m.entries⟩
  | none => m

def insert (x : Recorded) (m : ExpressionMap) : ExpressionMap := (flatten x).foldl insertLeaf m

def insertAll (xs : List Recorded) (m : ExpressionMap) : ExpressionMap :=
  xs.foldl (fun m x => m.insert x) m

/-- What is kept under a value. -/
def get (value : Value) (m : ExpressionMap) : List Recorded :=
  match Key.of? value with
  | some key => find key m.entries
  | none => []

end ExpressionMap

end MarkupTrace.Structure
