import MarkupTrace.Text.Digit

/-!
# Reading the front of a settings file

A reader takes something from the front of a text and gives it with the rest, or gives nothing if
the text does not start that way. Where two readers are tried one after the other, what the first
one looked at counts as not read.
-/

namespace MarkupTrace.Settings.Toml

/-- Reads something from the front of a text. -/
abbrev Reader (α : Type) := List Char → Option (α × List Char)

/-- Drops what a text starts with. -/
def expect (start : String) (cs : List Char) : Option (List Char) :=
  if start.toList.isPrefixOf cs then some (cs.drop start.length) else none

def isGap (c : Char) : Bool := c = ' ' || c = '\t'

def skipGaps (cs : List Char) : List Char := cs.dropWhile isGap

/-- Behind a line break, if one stands in front. A carriage return alone is none. -/
def lineBreak? : List Char → Option (List Char)
  | '\n' :: cs => some cs
  | '\r' :: '\n' :: cs => some cs
  | _ => none

/-- Behind blanks and line breaks. -/
def skipBlankLines : List Char → List Char
  | '\n' :: cs => skipBlankLines cs
  | '\r' :: '\n' :: cs => skipBlankLines cs
  | c :: cs => if isGap c then skipBlankLines cs else c :: cs
  | [] => []

/-- May stand in a text or a comment: no control character but the tab. -/
def isPlain (c : Char) : Bool := c = '\t' || (c.toNat ≥ 0x20 && c.toNat != 0x7F)

/-- A number of exactly so many decimal digits, within bounds. -/
def field (count low high : Nat) : Reader Nat := fun cs => do
  let digits := cs.take count
  if digits.length < count ∨ !digits.all Char.isDigit then none
  let n ← Text.natOfDigits? 10 digits
  if low ≤ n ∧ n ≤ high then return (n, cs.drop count)
  none

/-- As many digits as there are. One underscore may stand between two of them and is left out. -/
def digitRun (isDigit : Char → Bool) : List Char → List Char × List Char
  | c :: '_' :: d :: cs =>
    if !isDigit c then ([], c :: '_' :: d :: cs)
    else if isDigit d then
      let (digits, rest) := digitRun isDigit (d :: cs)
      (c :: digits, rest)
    else ([c], '_' :: d :: cs)
  | c :: cs =>
    if isDigit c then
      let (digits, rest) := digitRun isDigit cs
      (c :: digits, rest)
    else ([], c :: cs)
  | [] => ([], [])

/-- At least one digit. -/
def digits (isDigit : Char → Bool) : Reader (List Char) := fun cs =>
  let (found, rest) := digitRun isDigit cs
  if found.isEmpty then none else some (found, rest)

end MarkupTrace.Settings.Toml
