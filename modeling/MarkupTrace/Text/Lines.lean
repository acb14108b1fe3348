import MarkupTrace.Text.Span

/-!
# Lines and positions

A line feed ends a line. The index of a text holds the offsets at which its lines start and the
offsets of the carriage returns that stand directly before a line feed; offsets can then be given
as if each such pair were a single line feed. The excerpt shows one line between its neighbours.
-/

namespace MarkupTrace.Text

/-- Line and column, both counted from zero. The column counts bytes. -/
structure Position where
  line : Nat
  column : Nat
  deriving DecidableEq, Repr, Inhabited

/-- Written with both numbers counted from one. -/
def Position.text (p : Position) : String := s!"{p.line + 1}:{p.column + 1}"

structure LineIndex where
  /-- Offsets at which a line starts, increasing, the first of them zero. -/
  lineStarts : List Nat
  /-- Offsets of the carriage returns that a line feed follows, increasing. -/
  pairStarts : List Nat
  deriving Repr

namespace LineIndex

/-- Offsets just after each line feed, for a text that starts at `offset`. -/
def startsFrom (offset : Nat) : List Char → List Nat
  | [] => []
  | c :: cs =>
    let rest := startsFrom (offset + c.utf8Size) cs
    if c = '\n' then (offset + 1) :: rest else rest

/-- Offsets of the carriage returns before a line feed, for a text that starts at `offset`. -/
def pairsFrom (offset : Nat) : List Char → List Nat
  | [] => []
  | c :: cs =>
    let rest := pairsFrom (offset + c.utf8Size) cs
    if c = '\r' ∧ cs.head? = some '\n' then offset :: rest else rest

def ofChars (cs : List Char) : LineIndex := ⟨0 :: startsFrom 0 cs, pairsFrom 0 cs⟩

def ofText (source : String) : LineIndex := ofChars source.toList

/-- The last line start that is not past the offset, as its number and its own offset. -/
def lastStart (offset : Nat) : List Nat → Nat × Nat → Nat × Nat
  | [], found => found
  | s :: ss, found => if s ≤ offset then lastStart offset ss (found.1 + 1, s) else found

def position (index : LineIndex) (offset : Nat) : Position :=
  let found := lastStart offset (index.lineStarts.drop 1) (0, 0)
  ⟨found.1, offset - found.2⟩

/-- The number of the line that holds the offset, counted from one. -/
def lineNumber (index : LineIndex) (offset : Nat) : Nat := (index.position offset).line + 1

/-- How many pairs end at or before the offset. -/
def pairsBefore (index : LineIndex) (offset : Nat) : Nat :=
  (index.pairStarts.takeWhile fun s => s + 2 ≤ offset).length

/-- The offset in the text whose pairs are single line feeds. -/
def normalized (index : LineIndex) (offset : Nat) : Nat := offset - index.pairsBefore offset

def lineCount (index : LineIndex) : Nat := index.lineStarts.length

end LineIndex

/-- The pieces between the occurrences of a character. -/
def splitAt (sep : Char) : List Char → List (List Char)
  | [] => [[]]
  | c :: cs =>
    if c = sep then [] :: splitAt sep cs
    else match splitAt sep cs with
      | [] => [[c]]
      | piece :: pieces => (c :: piece) :: pieces

theorem splitAt_ne_nil (sep : Char) (cs : List Char) : splitAt sep cs ≠ [] := by
  cases cs with
  | nil => simp [splitAt]
  | cons c cs =>
    simp only [splitAt]
    split
    · simp
    · split <;> simp

/-- One carriage return is taken off the end. -/
def dropReturn (cs : List Char) : List Char :=
  match cs.reverse with
  | '\r' :: rest => rest.reverse
  | _ => cs

/-- The lines of a text without their breaks. A line feed at the very end opens no further line,
and a carriage return is part of a break only before a line feed. -/
def lines (cs : List Char) : List (List Char) :=
  let pieces := splitAt '\n' cs
  let closed := pieces.dropLast.map dropReturn
  match pieces.getLast? with
  | some [] => closed
  | some piece => closed ++ [piece]
  | none => closed

/-- A number in at least three columns. -/
def threeColumns (n : Nat) : String :=
  let digits := toString n
  String.ofList (List.replicate (3 - digits.length) ' ') ++ digits

/-- The line with that number, marked, between up to two lines before it and two after it. -/
def excerpt (source : String) (line : Nat) : String :=
  let all := lines source.toList
  let stop := min (line + 3) all.length
  let shown := (all.zipIdx.take stop).drop (line - 2)
  String.join <| shown.map fun (text, i) =>
    (if i = line then ">>" else "  ") ++ " " ++ threeColumns (i + 1) ++ " | " ++
      String.ofList text ++ "\n"

end MarkupTrace.Text
