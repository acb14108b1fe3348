import MarkupTrace.Data.Basic
import MarkupTrace.Number.Written
import MarkupTrace.Text.Escaped

/-!
# JSON text

Two layouts. The compact one has no blanks. The pretty one puts every item and every entry on a line
of its own, two spaces deeper than its bracket, and keeps empty brackets together. NaN and the
infinities, which JSON cannot write, become `null`.
-/

namespace MarkupTrace.Data

/-- A number, a truth value, a text or `null`. -/
def jsonDouble : Double → String
  | .finite negative r => Double.sign negative ++ Double.dataMagnitude Double.jsonMarks r.val
  | _ => "null"

mutual

def compact : Data → String
  | null => "null"
  | bool b => if b then "true" else "false"
  | int i => toString i
  | float d => jsonDouble d
  | text s => Text.quote s
  | list items => "[" ++ compactItems items ++ "]"
  | record entries => "\x7b" ++ compactEntries entries ++ "\x7d"

def compactItems : List Data → String
  | [] => ""
  | [d] => compact d
  | d :: ds => compact d ++ "," ++ compactItems ds

def compactEntries : List (String × Data) → String
  | [] => ""
  | [(k, d)] => Text.quote k ++ ":" ++ compact d
  | (k, d) :: es => Text.quote k ++ ":" ++ compact d ++ "," ++ compactEntries es

end

/-- A line break and the indentation of a depth. -/
def newLine (depth : Nat) : String := "\n" ++ String.ofList (List.replicate (2 * depth) ' ')

mutual

def prettyAt (depth : Nat) : Data → String
  | list [] => "[]"
  | list (d :: ds) => "[" ++ prettyItems (depth + 1) (d :: ds) ++ newLine depth ++ "]"
  | record [] => "\x7b\x7d"
  | record (e :: es) => "\x7b" ++ prettyEntries (depth + 1) (e :: es) ++ newLine depth ++ "\x7d"
  | null => "null"
  | bool b => if b then "true" else "false"
  | int i => toString i
  | float d => jsonDouble d
  | text s => Text.quote s

def prettyItems (depth : Nat) : List Data → String
  | [] => ""
  | [d] => newLine depth ++ prettyAt depth d
  | d :: ds => newLine depth ++ prettyAt depth d ++ "," ++ prettyItems depth ds

def prettyEntries (depth : Nat) : List (String × Data) → String
  | [] => ""
  | [(k, d)] => newLine depth ++ Text.quote k ++ ": " ++ prettyAt depth d
  | (k, d) :: es =>
    newLine depth ++ Text.quote k ++ ": " ++ prettyAt depth d ++ "," ++ prettyEntries depth es

end

def pretty (d : Data) : String := prettyAt 0 d

end MarkupTrace.Data
