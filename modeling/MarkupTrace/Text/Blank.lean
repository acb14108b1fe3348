/-!
# Blank characters

A character is blank when it carries the Unicode property `White_Space`, a set of 25 code points.
Markup text made of blanks alone shows nothing, and the location of a text leaves the blanks
around it out.
-/

namespace MarkupTrace.Text

/-- Membership in the Unicode property `White_Space`. -/
def isBlank (c : Char) : Bool :=
  let n := c.toNat
  (9 ≤ n && n ≤ 13) || n == 0x20 || n == 0x85 || n == 0xA0 || n == 0x1680 ||
    (0x2000 ≤ n && n ≤ 0x200A) || n == 0x2028 || n == 0x2029 || n == 0x202F || n == 0x205F ||
    n == 0x3000

/-- Blanks known to ASCII are blanks. -/
theorem isBlank_of_isWhitespace {c : Char} (h : c.isWhitespace = true) : isBlank c = true := by
  simp only [Char.isWhitespace, Bool.or_eq_true, decide_eq_true_eq] at h
  rcases h with ((h | h) | h) | h <;> subst h <;> decide

/-- The characters from the first one on that `p` refuses. -/
def dropStart (p : Char → Bool) (cs : List Char) : List Char := cs.dropWhile p

/-- The characters up to the last one that `p` refuses. -/
def dropEnd (p : Char → Bool) (cs : List Char) : List Char := (cs.reverse.dropWhile p).reverse

/-- Both ends cut. -/
def trim (cs : List Char) : List Char := dropEnd isBlank (dropStart isBlank cs)

@[simp] theorem dropStart_nil (p : Char → Bool) : dropStart p [] = [] := rfl

@[simp] theorem dropEnd_nil (p : Char → Bool) : dropEnd p [] = [] := rfl

theorem takeWhile_append_dropStart (p : Char → Bool) (cs : List Char) :
    cs.takeWhile p ++ dropStart p cs = cs := List.takeWhile_append_dropWhile

theorem dropEnd_append_takeWhile (p : Char → Bool) (cs : List Char) :
    dropEnd p cs ++ (cs.reverse.takeWhile p).reverse = cs := by
  rw [dropEnd, ← List.reverse_append, List.takeWhile_append_dropWhile, List.reverse_reverse]

end MarkupTrace.Text
