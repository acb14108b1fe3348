/-!
# Locations

Where something was written: a file, the span of its text, and a line if it is known. The unknown
location stands in where there is none.
-/

namespace MarkupTrace

structure Location where
  fileName : String
  pos : Int
  stop : Int
  line : Option Nat
  deriving DecidableEq, Repr

namespace Location

/-- The name that stands for no file. -/
def unknownFile : String := "unknown"

def unknown : Location := ⟨unknownFile, -1, -1, none⟩

def isUnknown (l : Location) : Bool := l.pos < 0 && l.fileName == unknownFile

def text (l : Location) : String :=
  let span := s!"[{l.pos}..{l.stop}]"
  match l.line with
  | some n => s!"{l.fileName}:{n} {span}"
  | none => s!"{l.fileName} {span}"

end Location

end MarkupTrace
