import MarkupTrace.Data.Basic
import MarkupTrace.Number.Read
import MarkupTrace.Number.Written
import MarkupTrace.Text.Digit
import MarkupTrace.Text.Span

/-!
# YAML text

Block style throughout, two spaces per level, with `[]` and `{}` for what is empty. A list under a
key is not indented further than the key. A text is written plain where it can be read back as a
text, and between single quotes where it would be read as something else or would break the layout;
a text with a line feed is written as a literal block; and one that none of these can hold is double
quoted.
-/

namespace MarkupTrace.Data.Yaml

inductive Style
  | plain
  | single
  | double
  | literal
  deriving DecidableEq, Repr

/-- A character that ends a line for YAML. -/
def isBreak (c : Char) : Bool :=
  c = '\n' || c = '\r' || c = '\x85' || c = '\u2028' || c = '\u2029'

/-- A character that may stand in the text unescaped. -/
def isPrintable (c : Char) : Bool :=
  let n := c.toNat
  n == 0x0A || (0x20 ≤ n && n ≤ 0x7E) || (0xA0 ≤ n && n != 0xFEFF && n != 0xFFFE && n != 0xFFFF)

/-- The end of the text, a blank or a break. -/
def isGap : Option Char → Bool
  | none => true
  | some c => c = ' ' || c = '\t' || c = '\x00' || isBreak c

/-- What a text forbids. -/
structure Analysis where
  multiline : Bool
  plain : Bool
  single : Bool
  block : Bool
  deriving Repr

/-- Consecutive characters that satisfy the two conditions. -/
def hasAdjacent (p q : Char → Bool) : List Char → Bool
  | c :: d :: rest => (p c && q d) || hasAdjacent p q (d :: rest)
  | _ => false

/-- A character that a plain text may not start with. -/
def isOpening (c : Char) : Bool :=
  "#,[]\x7b\x7d&*!|>'\"%@\x60".toList.contains c

/-- An indicator at some place makes the plain style unreadable. -/
def hasIndicator (cs : List Char) : Bool :=
  let document := cs.take 3 == "---".toList || cs.take 3 == "...".toList
  let opening :=
    match cs with
    | c :: rest => isOpening c || ((c = '?' || c = ':' || c = '-') && isGap rest.head?)
    | [] => false
  document || opening || colonOrHash none cs
where
  /-- A colon before a gap, or a hash after one, beyond the first character. -/
  colonOrHash : Option Char → List Char → Bool
    | _, [] => false
    | previous, c :: rest =>
      (previous.isSome && ((c = ':' && isGap rest.head?) || (c = '#' && isGap previous))) ||
        colonOrHash (some c) rest

def analyze (cs : List Char) : Analysis :=
  if cs.isEmpty then ⟨false, true, true, false⟩
  else
    let isSpace := fun (c : Char) => c == ' '
    let breaks := cs.any isBreak
    let special := !cs.all isPrintable
    let edge := fun c => isSpace c || isBreak c
    let leading := (cs.head?.map edge).getD false
    let trailing := (cs.getLast?.map edge).getD false
    let trailingSpace := (cs.getLast?.map isSpace).getD false
    let breakSpace := hasAdjacent isBreak isSpace cs
    let spaceBreak := hasAdjacent isSpace isBreak cs
    let broken := spaceBreak || special
    { multiline := breaks
      plain := !(leading || trailing || breakSpace || broken || breaks || hasIndicator cs)
      single := !(breakSpace || broken)
      block := !(trailingSpace || broken) }

/-- Zeros and digits only, the first a zero: no number for YAML. -/
def isPaddedDigits (cs : List Char) : Bool :=
  let body := match cs with
    | '-' :: rest | '+' :: rest => rest
    | _ => cs
  match body with
  | '0' :: d :: rest => (d :: rest).all Char.isDigit
  | _ => false

def isSigned : List Char → Bool
  | '+' :: _ | '-' :: _ => true
  | _ => false

/-- Whole digits with an optional sign, below a bound. -/
def isDigitsBelow (radix bound : Nat) (cs : List Char) : Bool :=
  let body := match cs with
    | '+' :: rest => rest
    | _ => cs
  match Text.natOfDigits? radix body with
  | some n => n < bound
  | none => false

/-- Read by YAML as a whole number of at most 128 bits. -/
def isInteger (cs : List Char) : Bool :=
  let body := match cs with
    | '+' :: rest => rest
    | _ => cs
  let radixed := fun (mark : String) (radix : Nat) =>
    mark.toList.isPrefixOf body && !isSigned (body.drop 2) &&
      isDigitsBelow radix (Nat.pow 2 128) (body.drop 2)
  let negativeRadixed := fun (mark : String) (radix : Nat) =>
    mark.toList.isPrefixOf cs && !isSigned (cs.drop 3) &&
      isDigitsBelow radix (Nat.pow 2 127 + 1) (cs.drop 3)
  radixed "0x" 16 || radixed "0o" 8 || radixed "0b" 2 ||
    (!isSigned body && !isPaddedDigits cs && isDigitsBelow 10 (Nat.pow 2 128) body) ||
    negativeRadixed "-0x" 16 || negativeRadixed "-0o" 8 || negativeRadixed "-0b" 2 ||
    (!isPaddedDigits cs && cs.head? == some '-' && !isSigned (cs.drop 1) &&
      isDigitsBelow 10 (Nat.pow 2 127 + 1) (cs.drop 1))

/-- Read by YAML as a double. -/
def isFloat (s : String) : Bool :=
  let cs := s.toList
  let body := match cs with
    | '+' :: rest => rest
    | _ => cs
  if cs.head? == some '+' && isSigned body then false
  else
    [".inf", ".Inf", ".INF"].contains (String.ofList body) ||
      ["-.inf", "-.Inf", "-.INF", ".nan", ".NaN", ".NAN"].contains s ||
      match Double.ofChars? body with
      | some (.finite _ _) => true
      | _ => false

/-- Read back as something that is not a text when written plain. -/
def isReserved (s : String) : Bool :=
  let cs := s.toList
  cs.isEmpty || ["null", "Null", "NULL", "~", "true", "True", "TRUE", "false", "False",
    "FALSE"].contains s || isInteger cs || (!isPaddedDigits cs && isFloat s) || isPaddedDigits cs

/-- The style of a text; a key must fit on one line. -/
def style (key : Bool) (s : String) : Style :=
  let a := analyze s.toList
  let wanted :=
    if s.toList.contains '\n' then Style.literal
    else if isReserved s then Style.single
    else Style.plain
  let wanted := if key && a.multiline then Style.double else wanted
  let wanted := if wanted = .plain && !a.plain then Style.single else wanted
  let wanted := if wanted = .single && !a.single then Style.double else wanted
  if wanted = .literal && (!a.block || key) then .double else wanted

def spaces (n : Nat) : String := String.ofList (List.replicate n ' ')

/-- Upper-case hexadecimal in a fixed number of columns. -/
def hexColumns (width n : Nat) : List Char :=
  let digits := (Nat.toDigits 16 n).map Char.toUpper
  List.replicate (width - digits.length) '0' ++ digits

def escapeChar (c : Char) : List Char :=
  let n := c.toNat
  if isPrintable c && !isBreak c && c != '"' && c != '\\' then [c]
  else
    '\\' :: (
      if n = 0x00 then ['0'] else if n = 0x07 then ['a'] else if n = 0x08 then ['b']
      else if n = 0x09 then ['t'] else if n = 0x0A then ['n'] else if n = 0x0B then ['v']
      else if n = 0x0C then ['f'] else if n = 0x0D then ['r'] else if n = 0x1B then ['e']
      else if n = 0x22 then ['"'] else if n = 0x5C then ['\\'] else if n = 0x85 then ['N']
      else if n = 0xA0 then ['_'] else if n = 0x2028 then ['L'] else if n = 0x2029 then ['P']
      else if n ≤ 0xFF then 'x' :: hexColumns 2 n
      else if n ≤ 0xFFFF then 'u' :: hexColumns 4 n
      else 'U' :: hexColumns 8 n)

/-- The inside of a single quoted text: quotes are doubled, and a line feed is written twice. -/
def singleBody (indent : Nat) : Bool → List Char → String
  | broken, [] => if broken then spaces indent else ""
  | broken, c :: cs =>
    if isBreak c then
      (if !broken && c = '\n' then "\n" else "") ++ c.toString ++ singleBody indent true cs
    else
      (if broken && c != ' ' then spaces indent else "") ++
        (if c = '\'' then "''" else c.toString) ++ singleBody indent (broken && c = ' ') cs

/-- The lines of a literal block, each that is not empty behind the indentation. -/
def literalBody (indent : Nat) : Bool → List Char → String
  | _, [] => ""
  | fresh, c :: cs =>
    if isBreak c then c.toString ++ literalBody indent true cs
    else (if fresh then spaces indent else "") ++ c.toString ++ literalBody indent false cs

/-- The marks after the bar of a literal block. -/
def literalMarks (cs : List Char) : String :=
  let lead := match cs with
    | c :: _ => if c = ' ' || isBreak c then "2" else ""
    | [] => ""
  let chomp := match cs.reverse with
    | [] => "-"
    | c :: rest =>
      if !isBreak c then "-"
      else match rest with
        | [] => "+"
        | d :: _ => if isBreak d then "+" else ""
  lead ++ chomp

/-- A text in its style, the indentation being that of a deeper line. No line break follows unless
a literal block ends with one. -/
def textIn (st : Style) (indent : Nat) (s : String) : String :=
  match st with
  | .plain => s
  | .single => "'" ++ singleBody indent false s.toList ++ "'"
  | .double => "\"" ++ String.ofList (s.toList.flatMap escapeChar) ++ "\""
  | .literal => "|" ++ literalMarks s.toList ++ "\n" ++ literalBody indent true s.toList

def doubleText : Double → String
  | .nan => ".nan"
  | .infinite negative => if negative then "-.inf" else ".inf"
  | .finite negative r => Double.sign negative ++ Double.dataMagnitude Double.yamlMarks r.val

/-- Ends a line that is not ended yet. Any break at the end of a literal block ends its line. -/
def endLine (s : String) : String :=
  if (s.toList.getLast?.map isBreak).getD false then s else s ++ "\n"

/-- A key fits before its colon: on one line and not longer than 128 bytes. -/
def isSimpleKey (k : String) : Bool :=
  !(analyze k.toList).multiline && Text.byteLength k.toList ≤ 128

/-- Where a node stands: at the top, behind the mark of an item or of a long key, or behind a key
and its colon. -/
inductive Place
  | top
  | behindMark
  | behindKey
  deriving DecidableEq

/-- What separates a scalar from what it stands behind. -/
def gap : Place → String
  | .top => ""
  | .behindMark => " "
  | .behindKey => " "

mutual

/-- A node inside a collection whose lines start at column `column`. -/
def node (place : Place) (column : Nat) : Data → String
  | null => gap place ++ "null\n"
  | bool b => gap place ++ (if b then "true" else "false") ++ "\n"
  | int i => gap place ++ toString i ++ "\n"
  | float d => gap place ++ doubleText d ++ "\n"
  | text s => endLine (gap place ++ textIn (style false s) (column + 2) s)
  | list [] => gap place ++ "[]\n"
  | record [] => gap place ++ "\x7b\x7d\n"
  | list (d :: ds) =>
    match place with
    | .top => items 0 true (d :: ds)
    | .behindMark => " " ++ items (column + 2) true (d :: ds)
    | .behindKey => "\n" ++ items column false (d :: ds)
  | record (e :: es) =>
    match place with
    | .top => entries 0 true (e :: es)
    | .behindMark => " " ++ entries (column + 2) true (e :: es)
    | .behindKey => "\n" ++ entries (column + 2) false (e :: es)

/-- Items at a column; the first one may already stand there. -/
def items (column : Nat) (placed : Bool) : List Data → String
  | [] => ""
  | d :: ds =>
    (if placed then "" else spaces column) ++ "-" ++ node .behindMark column d ++
      items column false ds

/-- Entries at a column; the first one may already stand there. -/
def entries (column : Nat) (placed : Bool) : List (String × Data) → String
  | [] => ""
  | (k, d) :: es =>
    (if placed then "" else spaces column) ++
      (if isSimpleKey k then textIn (style true k) (column + 2) k ++ ":" ++ node .behindKey column d
      else
        endLine ("? " ++ textIn (style false k) (column + 2) k) ++ spaces column ++ ":" ++
          node .behindMark column d) ++
      entries column false es

end

end Yaml

/-- A YAML document without a header line. -/
def yaml (d : Data) : String := Yaml.node .top 0 d

end MarkupTrace.Data
