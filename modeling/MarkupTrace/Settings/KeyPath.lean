import MarkupTrace.Data.Basic
import MarkupTrace.Settings.Toml.Basic

/-!
# Key paths

A key of settings can lead through several values: `a.b` is the entry `b` of the entry `a`, and
`a[0]` is the first item of the list `a`. Keys are compared without case.
-/

namespace MarkupTrace.Settings

/-- A capital letter as a small one. The Kelvin sign is a capital k. -/
def lowerCase (key : String) : String :=
  String.ofList (key.toList.map fun c => if c = '\u212A' then 'k' else c.toLower)

/-- A step from a value into it. Items with a negative index are counted from the end. -/
inductive Step
  | entry (key : String)
  | item (index : Int)
  deriving DecidableEq, Repr

/-- The steps from the root, which is a table. -/
abbrev KeyPath := List Step

namespace KeyPath

open Toml

def isNameChar (c : Char) : Bool := c.isAlphanum || c = ' ' || c = '_' || c = '-'

def name : Reader Step := fun cs =>
  let key := cs.takeWhile isNameChar
  if key.isEmpty then none else some (.entry (String.ofList key), cs.dropWhile isNameChar)

/-- An index of 64 bits, up to the closing bracket. -/
def index : Reader Step := fun cs => do
  let cs := skipGaps cs
  let (negative, cs) := match cs with
    | '-' :: cs => (true, cs)
    | cs => (false, cs)
  let n ← Text.natOfDigits? 10 (cs.takeWhile Char.isDigit)
  let i : Int := if negative then -n else n
  if i < -Nat.pow 2 63 ∨ Nat.pow 2 63 ≤ i then none
  let cs ← expect "]" (skipGaps (cs.dropWhile Char.isDigit))
  return (.item i, cs)

/-- The steps behind the first one. -/
def steps : Nat → List Char → Option KeyPath
  | _, [] => some []
  | n + 1, '.' :: cs => do
    let (step, cs) ← name cs
    return step :: (← steps n cs)
  | n + 1, '[' :: cs => do
    let (step, cs) ← index cs
    return step :: (← steps n cs)
  | _, _ => none

/-- The path that a key stands for, if it is well formed. -/
def ofKey? (key : String) : Option KeyPath := do
  let (first, cs) ← name key.toList
  return first :: (← steps cs.length cs)

end KeyPath

/-! ## Putting values in -/

/-- The entries of a table; nothing else has any. -/
def entriesOf : Data → List (String × Data)
  | .record entries => entries
  | _ => []

/-- The items of a list; nothing else has any. -/
def itemsOf : Data → List Data
  | .list items => items
  | _ => []

def setEntry (key : String) (d : Data) : List (String × Data) → List (String × Data)
  | [] => [(key, d)]
  | (k, old) :: es => if k = key then (k, d) :: es else (k, old) :: setEntry key d es

/-- Changes the entry of a key in what is thereby a table. -/
def changeEntry (key : String) (f : Option Data → Data) (target : Data) : Data :=
  let key := lowerCase key
  .record (setEntry key (f ((entriesOf target).lookup key)) (entriesOf target))

/-- Changes an item of what is thereby a list, and long enough. -/
def changeItem (index : Int) (f : Option Data → Data) (target : Data) : Data :=
  let items := itemsOf target
  let i := (if index < 0 then items.length + index else index).toNat
  let items := items ++ List.replicate (i + 1 - items.length) .null
  .list (items.set i (f items[i]?))

mutual

/-- A value put over what is there. A table goes in entry by entry, all else takes its place. -/
def merge (old : Option Data) : Data → Data
  | .record entries => mergeAll (old.getD (.record [])) entries
  | d => d

def mergeAll (target : Data) : List (String × Data) → Data
  | [] => target
  | (key, d) :: entries => mergeAll (changeEntry key (fun old => merge old d) target) entries

end

/-- Puts a value over what stands at the end of a path. -/
def putAt (d : Data) : KeyPath → Option Data → Data
  | [], old => merge old d
  | .entry key :: path, old => changeEntry key (putAt d path) (old.getD .null)
  | .item index :: path, old => changeItem index (putAt d path) (old.getD .null)

end MarkupTrace.Settings
