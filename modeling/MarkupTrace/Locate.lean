import MarkupTrace.Text.Lines
import MarkupTrace.Value.Location

/-!
# Locating text

The location of the first occurrence of a text in a source, with the offsets that annotation gives
to it.
-/

namespace MarkupTrace

open Text

/-- The offset of the first place where `needle` stands. -/
def firstOffset? (needle : List Char) : List Char → Nat → Option Nat
  | [], offset => if needle.isEmpty then some offset else none
  | c :: cs, offset =>
    if needle.isPrefixOf (c :: cs) then some offset
    else firstOffset? needle cs (offset + c.utf8Size)

def Location.ofFirst? (source needle fileName : String) : Option Location := do
  let start ← firstOffset? needle.toList source.toList 0
  let stop := start + byteLength needle.toList
  let index := LineIndex.ofText source
  return ⟨fileName, index.normalized start, index.normalized stop, some (index.lineNumber start)⟩

end MarkupTrace
