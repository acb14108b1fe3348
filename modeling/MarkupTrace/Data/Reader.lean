import MarkupTrace.Data.Basic
import MarkupTrace.Number.Scaled
import MarkupTrace.Text.Digit
import MarkupTrace.Text.Span

/-!
# Reading JSON

`Data.ofJson` reads one JSON value with nothing but blanks around it. A failure names the first
problem met and the line and column, in bytes, up to which the text was looked at. Arrays and
objects may be nested 127 deep.
-/

namespace MarkupTrace.Data

namespace Reader

inductive Problem
  | endInList
  | endInObject
  | endInText
  | endInValue
  | expectedColon
  | expectedListEnd
  | expectedObjectEnd
  | expectedIdentifier
  | expectedValue
  | invalidEscape
  | invalidNumber
  | numberOutOfRange
  | controlCharacter
  | keyNotText
  | loneSurrogate
  | trailingComma
  | trailingCharacters
  | endOfHexEscape
  | tooDeep
  deriving DecidableEq, Repr

def Problem.message : Problem → String
  | endInList => "EOF while parsing a list"
  | endInObject => "EOF while parsing an object"
  | endInText => "EOF while parsing a string"
  | endInValue => "EOF while parsing a value"
  | expectedColon => "expected \x60:\x60"
  | expectedListEnd => "expected \x60,\x60 or \x60]\x60"
  | expectedObjectEnd => "expected \x60,\x60 or \x60\x7d\x60"
  | expectedIdentifier => "expected ident"
  | expectedValue => "expected value"
  | invalidEscape => "invalid escape"
  | invalidNumber => "invalid number"
  | numberOutOfRange => "number out of range"
  | controlCharacter => "control character (\\u0000-\\u001F) found while parsing a string"
  | keyNotText => "key must be a string"
  | loneSurrogate => "lone leading surrogate in hex escape"
  | trailingComma => "trailing comma"
  | trailingCharacters => "trailing characters"
  | endOfHexEscape => "unexpected end of hex escape"
  | tooDeep => "recursion limit exceeded"

/-- A problem and the number of bytes looked at. -/
structure Failure where
  problem : Problem
  seen : Nat

/-- What is left to read and the number of bytes read. -/
structure Cursor where
  rest : List Char
  offset : Nat

namespace Cursor

variable {α : Type}

/-- Past the first character. -/
def next (c : Cursor) : Cursor :=
  match c.rest with
  | [] => c
  | x :: xs => ⟨xs, c.offset + x.utf8Size⟩

def skipBlanks (c : Cursor) : Cursor :=
  let isSpace := fun x => x = ' ' || x = '\n' || x = '\t' || x = '\r'
  ⟨c.rest.dropWhile isSpace, c.offset + Text.byteLength (c.rest.takeWhile isSpace)⟩

def skipDigits (c : Cursor) : Cursor :=
  ⟨c.rest.dropWhile Char.isDigit, c.offset + (c.rest.takeWhile Char.isDigit).length⟩

/-- Fails with nothing further looked at. -/
def fail (c : Cursor) (p : Problem) : Except Failure α := .error ⟨p, c.offset⟩

/-- Fails having looked at one byte more, if there is one. -/
def failAhead (c : Cursor) (p : Problem) : Except Failure α :=
  .error ⟨p, if c.rest.isEmpty then c.offset else c.offset + 1⟩

end Cursor

/-- Four hexadecimal digits. -/
def fourHex (c : Cursor) : Except Failure (Nat × Cursor) :=
  if Text.byteLength c.rest < 4 then .error ⟨.endInText, c.offset + Text.byteLength c.rest⟩
  else
    match c.rest with
    | x :: y :: z :: w :: rest =>
      match Text.digitValue? x, Text.digitValue? y, Text.digitValue? z, Text.digitValue? w with
      | some a, some b, some d, some e =>
        .ok (((a * 16 + b) * 16 + d) * 16 + e, ⟨rest, c.offset + 4⟩)
      | _, _, _, _ => .error ⟨.invalidEscape, c.offset + 4⟩
    | _ => .error ⟨.invalidEscape, c.offset + 4⟩

/-- Exactly one character, the given one. -/
def pairMark (mark : Char) (c : Cursor) : Except Failure Cursor :=
  match c.rest with
  | [] => c.fail .endInText
  | x :: _ => if x = mark then .ok c.next else c.failAhead .endOfHexEscape

/-- The character of a `\u` escape; a code point beyond U+FFFF takes two of them. -/
def unicodeEscape (c : Cursor) : Except Failure (Char × Cursor) := do
  let (n, c) ← fourHex c
  if 0xDC00 ≤ n ∧ n ≤ 0xDFFF then c.fail .loneSurrogate
  else if n < 0xD800 ∨ n > 0xDBFF then .ok (Char.ofNat n, c)
  else
    let c ← pairMark '\\' c
    let c ← pairMark 'u' c
    let (m, c) ← fourHex c
    if m < 0xDC00 ∨ m > 0xDFFF then c.fail .loneSurrogate
    else .ok (Char.ofNat ((n - 0xD800) * 1024 + (m - 0xDC00) + 0x10000), c)

/-- The character of the escape whose backslash has been read. -/
def escape (c : Cursor) : Except Failure (Char × Cursor) :=
  match c.rest with
  | [] => c.fail .endInText
  | x :: _ =>
    match x with
    | '"' => .ok ('"', c.next)
    | '\\' => .ok ('\\', c.next)
    | '/' => .ok ('/', c.next)
    | 'b' => .ok ('\x08', c.next)
    | 'f' => .ok ('\x0c', c.next)
    | 'n' => .ok ('\n', c.next)
    | 'r' => .ok ('\r', c.next)
    | 't' => .ok ('\t', c.next)
    | 'u' => unicodeEscape c.next
    | _ => c.failAhead .invalidEscape

/-- The characters up to the closing quote, in reverse order after `done`. -/
def textBody : Nat → List Char → Cursor → Except Failure (List Char × Cursor)
  | 0, _, c => c.fail .endInText
  | fuel + 1, done, c =>
    match c.rest with
    | [] => c.fail .endInText
    | x :: _ =>
      if x = '"' then .ok (done.reverse, c.next)
      else if x = '\\' then do
        let (y, c) ← escape c.next
        textBody fuel (y :: done) c
      else if x.toNat < 0x20 then c.failAhead .controlCharacter
      else textBody fuel (x :: done) c.next

/-- The text whose opening quote has been read. -/
def readText (c : Cursor) : Except Failure (String × Cursor) := do
  let (cs, c) ← textBody (c.rest.length + 1) [] c
  return (String.ofList cs, c)

/-- The letters of a word. -/
def word : List Char → Cursor → Except Failure Cursor
  | [], c => .ok c
  | w :: ws, c =>
    match c.rest with
    | [] => c.fail .endInValue
    | x :: _ => if x = w then word ws c.next else c.failAhead .expectedIdentifier

def digitValue (c : Char) : Nat := c.toNat - '0'.toNat

/-- Digits are taken up as long as the number they make stays below `2 ^ 64`; gives the number, how
many were taken, and whether a further digit did not fit. -/
def takeDigits : Nat → Nat → Nat → Cursor → (Nat × Nat × Bool) × Cursor
  | 0, n, taken, c => ((n, taken, false), c)
  | fuel + 1, n, taken, c =>
    match c.rest with
    | x :: _ =>
      if x.isDigit then
        let m := n * 10 + digitValue x
        if m < Nat.pow 2 64 then takeDigits fuel m (taken + 1) c.next else ((n, taken, true), c)
      else ((n, taken, false), c)
    | [] => ((n, taken, false), c)

def finishFloat (negative : Bool) (digits : Nat) (exponent : Int) (c : Cursor) :
    Except Failure (Data × Cursor) :=
  match Double.ofScaled negative digits exponent with
  | some d => .ok (float d, c)
  | none => c.fail .numberOutOfRange

/-- The largest exponent that is still read digit by digit. -/
def exponentLimit : Nat := Nat.pow 2 31 - 1

/-- Further exponent digits; `none` once the exponent is past the limit. -/
def exponentDigits : Nat → Nat → Cursor → Option Nat × Cursor
  | 0, n, c => (some n, c)
  | fuel + 1, n, c =>
    match c.rest with
    | x :: _ =>
      if x.isDigit then
        let m := n * 10 + digitValue x
        if m ≤ exponentLimit then exponentDigits fuel m c.next else (none, c.next)
      else (some n, c)
    | [] => (some n, c)

/-- An exponent, from its letter on. -/
def readExponent (negative : Bool) (digits : Nat) (start : Int) (c : Cursor) :
    Except Failure (Data × Cursor) :=
  let c := c.next
  let (positive, c) :=
    match c.rest with
    | '+' :: _ => (true, c.next)
    | '-' :: _ => (false, c.next)
    | _ => (true, c)
  match c.rest with
  | [] => c.fail .endInValue
  | x :: _ =>
    if x.isDigit then
      match exponentDigits (c.rest.length + 1) (digitValue x) c.next with
      | (some e, c) =>
        let final := if positive then start + e else start - e
        finishFloat negative digits (max (-Nat.pow 2 31) (min exponentLimit final)) c
      | (none, c) =>
        if digits ≠ 0 ∧ positive then c.fail .numberOutOfRange
        else
          let zero := if negative then Double.zero.negate else Double.zero
          .ok (float zero, c.skipDigits)
    else c.failAhead .invalidNumber

def startsExponent (c : Cursor) : Bool :=
  match c.rest with
  | 'e' :: _ | 'E' :: _ => true
  | _ => false

/-- A fraction, from its point on. -/
def readFraction (negative : Bool) (digits : Nat) (start : Int) (c : Cursor) :
    Except Failure (Data × Cursor) :=
  let c := c.next
  let ((n, taken, full), c) := takeDigits (c.rest.length + 1) digits 0 c
  let exponent := start - taken
  if full then
    let c := c.skipDigits
    if startsExponent c then readExponent negative n exponent c
    else finishFloat negative n exponent c
  else if taken = 0 then
    if c.rest.isEmpty then c.failAhead .endInValue else c.failAhead .invalidNumber
  else if startsExponent c then readExponent negative n exponent c
  else finishFloat negative n exponent c

/-- What follows the whole digits. -/
def readTail (negative : Bool) (digits : Nat) (c : Cursor) : Except Failure (Data × Cursor) :=
  match c.rest with
  | '.' :: _ => readFraction negative digits 0 c
  | 'e' :: _ | 'E' :: _ => readExponent negative digits 0 c
  | _ =>
    if negative then
      if digits = 0 ∨ digits > Nat.pow 2 63 then .ok (float (Double.ofNat digits).negate, c)
      else .ok (int (-(digits : Int)), c)
    else .ok (int digits, c)

/-- What follows whole digits that do not fit: the further ones count as zeros. -/
def readLongTail (negative : Bool) (digits : Nat) (c : Cursor) : Except Failure (Data × Cursor) :=
  let d := c.skipDigits
  let dropped : Int := d.offset - c.offset
  match d.rest with
  | '.' :: _ => readFraction negative digits dropped d
  | 'e' :: _ | 'E' :: _ => readExponent negative digits dropped d
  | _ => finishFloat negative digits dropped d

/-- A number, from its first digit on. -/
def readNumber (negative : Bool) (c : Cursor) : Except Failure (Data × Cursor) :=
  match c.rest with
  | [] => c.fail .endInValue
  | x :: xs =>
    if x = '0' then
      if (xs.head?.map Char.isDigit).getD false then c.next.failAhead .invalidNumber
      else readTail negative 0 c.next
    else if x.isDigit then
      match takeDigits (c.rest.length + 1) 0 0 c with
      | ((n, _, true), c) => readLongTail negative n c
      | ((n, _, false), c) => readTail negative n c
    else c.failAhead .invalidNumber

mutual

/-- A value; `depth` is one more than the number of brackets that may still be opened. -/
def readValue : Nat → Nat → Cursor → Except Failure (Data × Cursor)
  | 0, _, c => c.fail .tooDeep
  | fuel + 1, depth, c =>
    let c := c.skipBlanks
    match c.rest with
    | [] => c.failAhead .endInValue
    | x :: _ =>
      match x with
      | 'n' => do return (null, ← word "ull".toList c.next)
      | 't' => do return (bool true, ← word "rue".toList c.next)
      | 'f' => do return (bool false, ← word "alse".toList c.next)
      | '"' => do
        let (s, c) ← readText c.next
        return (text s, c)
      | '-' => readNumber true c.next
      | '[' =>
        if depth ≤ 1 then c.failAhead .tooDeep
        else do
          let (items, c) ← readItems fuel (depth - 1) true [] c.next
          return (list items, c)
      | '\x7b' =>
        if depth ≤ 1 then c.failAhead .tooDeep
        else do
          let (entries, c) ← readEntries fuel (depth - 1) true [] c.next
          return (record entries, c)
      | _ => if x.isDigit then readNumber false c else c.failAhead .expectedValue

/-- The items up to the closing bracket, in reverse order after `done`. -/
def readItems : Nat → Nat → Bool → List Data → Cursor → Except Failure (List Data × Cursor)
  | 0, _, _, _, c => c.fail .tooDeep
  | fuel + 1, depth, first, done, c =>
    let c := c.skipBlanks
    match c.rest with
    | [] => c.failAhead .endInList
    | x :: _ =>
      if x = ']' then .ok (done.reverse, c.next)
      else if first then do
        let (d, c) ← readValue fuel depth c
        readItems fuel depth false (d :: done) c
      else if x = ',' then
        let c := c.next.skipBlanks
        match c.rest with
        | [] => c.failAhead .endInValue
        | y :: _ =>
          if y = ']' then c.failAhead .trailingComma
          else do
            let (d, c) ← readValue fuel depth c
            readItems fuel depth false (d :: done) c
      else c.failAhead .expectedListEnd

/-- The entries up to the closing brace, in reverse order after `done`. -/
def readEntries : Nat → Nat → Bool → List (String × Data) → Cursor →
    Except Failure (List (String × Data) × Cursor)
  | 0, _, _, _, c => c.fail .tooDeep
  | fuel + 1, depth, first, done, c =>
    let c := c.skipBlanks
    match c.rest with
    | [] => c.failAhead .endInObject
    | x :: _ =>
      if x = '\x7d' then .ok (done.reverse, c.next)
      else if first then
        if x = '"' then do
          let (e, c) ← readEntry fuel depth c
          readEntries fuel depth false (e :: done) c
        else c.failAhead .keyNotText
      else if x = ',' then
        let c := c.next.skipBlanks
        match c.rest with
        | [] => c.failAhead .endInValue
        | y :: _ =>
          if y = '"' then do
            let (e, c) ← readEntry fuel depth c
            readEntries fuel depth false (e :: done) c
          else if y = '\x7d' then c.failAhead .trailingComma
          else c.failAhead .keyNotText
      else c.failAhead .expectedObjectEnd

/-- A key, from its opening quote on, and its value. -/
def readEntry : Nat → Nat → Cursor → Except Failure ((String × Data) × Cursor)
  | 0, _, c => c.fail .tooDeep
  | fuel + 1, depth, c => do
    let (key, c) ← readText c.next
    let c := c.skipBlanks
    match c.rest with
    | [] => c.failAhead .endInObject
    | x :: _ =>
      if x = ':' then do
        let (d, c) ← readValue fuel depth c.next
        return ((key, d), c)
      else c.failAhead .expectedColon

end

def readAll (source : List Char) : Except Failure Data := do
  let (d, c) ← readValue (3 * source.length + 3) 128 ⟨source, 0⟩
  let c := c.skipBlanks
  if c.rest.isEmpty then return d else c.failAhead .trailingCharacters

/-- Line and column after the first `seen` bytes, lines counted from one. -/
def place (line column : Nat) : Nat → List Char → Nat × Nat
  | _, [] => (line, column)
  | seen, c :: cs =>
    if seen = 0 then (line, column)
    else if c = '\n' then place (line + 1) 0 (seen - 1) cs
    else place line (column + min seen c.utf8Size) (seen - c.utf8Size) cs

end Reader

/-- Reads a text as JSON; the error is a message that ends with line and column. -/
def ofJson (source : String) : Except String Data :=
  match Reader.readAll source.toList with
  | .ok d => .ok d
  | .error f =>
    let (line, column) := Reader.place 1 0 f.seen source.toList
    .error s!"{f.problem.message} at line {line} column {column}"

end MarkupTrace.Data
