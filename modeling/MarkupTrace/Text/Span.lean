/-!
# Spans of bytes

Offsets count the bytes of a text in UTF-8. A span is half open: its first byte belongs to it and
the byte at its end does not.
-/

namespace MarkupTrace.Text

structure Span where
  start : Nat
  stop : Nat
  deriving DecidableEq, Repr, Inhabited

/-- The number of bytes that a list of characters takes. -/
def byteLength : List Char → Nat
  | [] => 0
  | c :: cs => c.utf8Size + byteLength cs

@[simp] theorem byteLength_nil : byteLength [] = 0 := rfl

@[simp] theorem byteLength_cons (c : Char) (cs : List Char) :
    byteLength (c :: cs) = c.utf8Size + byteLength cs := rfl

@[simp] theorem byteLength_append (cs ds : List Char) :
    byteLength (cs ++ ds) = byteLength cs + byteLength ds := by
  induction cs with
  | nil => simp
  | cons c cs ih => simp [ih, Nat.add_assoc]

/-- The characters that start before the offset. -/
def before : List Char → Nat → List Char
  | [], _ => []
  | c :: cs, n => if n = 0 then [] else c :: before cs (n - c.utf8Size)

/-- The characters that start at or after the offset. -/
def after : List Char → Nat → List Char
  | [], _ => []
  | c :: cs, n => if n = 0 then c :: cs else after cs (n - c.utf8Size)

/-- The characters of a span whose ends lie between characters. -/
def slice (cs : List Char) (span : Span) : List Char :=
  before (after cs span.start) (span.stop - span.start)

theorem before_append_after (cs : List Char) (n : Nat) : before cs n ++ after cs n = cs := by
  induction cs generalizing n with
  | nil => rfl
  | cons c cs ih =>
    by_cases h : n = 0
    · simp [before, after, h]
    · simp [before, after, h, ih]

theorem before_byteLength (cs ds : List Char) : before (cs ++ ds) (byteLength cs) = cs := by
  induction cs with
  | nil => cases ds <;> simp [before]
  | cons c cs ih =>
    have h : c.utf8Size ≠ 0 := by have := c.utf8Size_pos; omega
    simp [before, h, ih]

theorem after_byteLength (cs ds : List Char) : after (cs ++ ds) (byteLength cs) = ds := by
  induction cs with
  | nil => cases ds <;> simp [after]
  | cons c cs ih =>
    have h : c.utf8Size ≠ 0 := by have := c.utf8Size_pos; omega
    simp [after, h, ih]

/-- A part between two others is the slice of its own span. -/
theorem slice_middle (a b c : List Char) :
    slice (a ++ b ++ c) ⟨byteLength a, byteLength a + byteLength b⟩ = b := by
  simp [slice, List.append_assoc, after_byteLength, before_byteLength]

end MarkupTrace.Text
