import MarkupTrace.Text.Span

/-!
# Tokens

The tokens of a markup module are coarse: they separate the characters that decide structure and
lump the rest into identifiers, numbers and runs of punctuation. Every token keeps its text, so text
between tags and quoted strings are put together again from the tokens they consist of.

`tokenize` cuts a whole text. Tokens are taken greedily, and nothing is left out: a carriage return
without a line feed, which is no line break, becomes an unknown token of its own.
-/

namespace MarkupTrace.Source

open Text

inductive Kind
  | less
  | greater
  | slash
  | openBrace
  | closeBrace
  | openParen
  | closeParen
  | openBracket
  | closeBracket
  | comma
  | colon
  | semicolon
  | dot
  | ellipsis
  | equals
  | arrow
  | star
  | doubleQuote
  | singleQuote
  | backslash
  | identifier
  | number
  | blanks
  | newline
  | punctuation
  | unknown
  deriving DecidableEq, Repr

namespace Kind

/-- The name under which token listings and messages show a kind. -/
def label : Kind → String
  | less => "Lt"
  | greater => "Gt"
  | slash => "Slash"
  | openBrace => "LBrace"
  | closeBrace => "RBrace"
  | openParen => "LParen"
  | closeParen => "RParen"
  | openBracket => "LBracket"
  | closeBracket => "RBracket"
  | comma => "Comma"
  | colon => "Colon"
  | semicolon => "Semi"
  | dot => "Dot"
  | ellipsis => "Spread"
  | equals => "Eq"
  | arrow => "Arrow"
  | star => "Star"
  | doubleQuote => "DoubleQuote"
  | singleQuote => "SingleQuote"
  | backslash => "Backslash"
  | identifier => "Ident"
  | number => "Number"
  | blanks => "Whitespace"
  | newline => "Newline"
  | punctuation => "Punct"
  | unknown => "Unknown"

/-- Kinds whose tokens are told apart by their text. -/
def hasText : Kind → Bool
  | identifier | number | punctuation => true
  | _ => false

end Kind

structure Token where
  kind : Kind
  text : String
  span : Span
  deriving DecidableEq, Repr

namespace Token

/-- Blanks and line breaks. -/
def isBlank (t : Token) : Bool := t.kind == .blanks || t.kind == .newline

/-- Ends a run of text between tags. -/
def endsText (t : Token) : Bool :=
  t.kind == .less || t.kind == .openBrace || t.kind == .closeBrace

def isWord (word : String) (t : Token) : Bool := t.kind == .identifier && t.text == word

/-- How a message speaks of a token that should not be there. -/
def describe (t : Token) : String :=
  match t.kind with
  | .identifier => "identifier \x60" ++ t.text ++ "\x60"
  | .number => "number \x60" ++ t.text ++ "\x60"
  | .punctuation => "\x60" ++ t.text ++ "\x60"
  | .newline => "line break"
  | .blanks => "whitespace"
  | .unknown => "unrecognized character"
  | k => k.label

end Token

/-- Words with a fixed meaning, which bind nothing. -/
def reservedWords : List String :=
  ["import", "export", "from", "const", "let", "var", "return", "true", "false", "null", "this",
    "function"]

def isReserved (name : String) : Bool := reservedWords.contains name

def isIdentifierStart (c : Char) : Bool := c.isAlpha || c == '_' || c == '$'

def isIdentifierPart (c : Char) : Bool := isIdentifierStart c || c.isDigit

def isSpaceOrTab (c : Char) : Bool := c == ' ' || c == '\t'

/-- Characters of punctuation runs: those that no other token can hold. -/
def isPunctuation (c : Char) : Bool :=
  !(isIdentifierPart c || " \t\r\n<>/\x7b\x7d()[],:;.=*\"'\\".toList.contains c)

/-- How many characters after the first digit belong to a number. A point counts only before a
digit. -/
def numberLength (cs : List Char) : Nat :=
  let whole := (cs.takeWhile Char.isDigit).length
  match cs.drop whole with
  | '.' :: rest =>
    let fraction := (rest.takeWhile Char.isDigit).length
    if fraction = 0 then whole else whole + 1 + fraction
  | _ => whole

/-- The kind of the token that starts with `c`, and how many of the characters after it belong to
it. -/
def lexeme (c : Char) (cs : List Char) : Kind × Nat :=
  match c with
  | '<' => (.less, 0)
  | '>' => (.greater, 0)
  | '/' => (.slash, 0)
  | '\x7b' => (.openBrace, 0)
  | '\x7d' => (.closeBrace, 0)
  | '(' => (.openParen, 0)
  | ')' => (.closeParen, 0)
  | '[' => (.openBracket, 0)
  | ']' => (.closeBracket, 0)
  | ',' => (.comma, 0)
  | ':' => (.colon, 0)
  | ';' => (.semicolon, 0)
  | '.' => if cs.take 2 = ['.', '.'] then (.ellipsis, 2) else (.dot, 0)
  | '=' => if cs.take 1 = ['>'] then (.arrow, 1) else (.equals, 0)
  | '*' => (.star, 0)
  | '"' => (.doubleQuote, 0)
  | '\'' => (.singleQuote, 0)
  | '\\' => (.backslash, 0)
  | '\n' => (.newline, 0)
  | '\r' => if cs.take 1 = ['\n'] then (.newline, 1) else (.unknown, 0)
  | _ =>
    if isSpaceOrTab c then (.blanks, (cs.takeWhile isSpaceOrTab).length)
    else if isIdentifierStart c then (.identifier, (cs.takeWhile isIdentifierPart).length)
    else if c.isDigit then (.number, numberLength cs)
    else (.punctuation, (cs.takeWhile isPunctuation).length)

/-- The tokens of a text that starts at `offset`. -/
def tokensFrom (offset : Nat) : List Char → List Token
  | [] => []
  | c :: cs =>
    let (kind, more) := lexeme c cs
    let text := c :: cs.take more
    let stop := offset + byteLength text
    ⟨kind, String.ofList text, ⟨offset, stop⟩⟩ :: tokensFrom stop (cs.drop more)
termination_by cs => cs.length
decreasing_by simp only [List.length_drop, List.length_cons]; omega

/-- Nothing of the text is left out. -/
theorem flatMap_text_tokensFrom (offset : Nat) (cs : List Char) :
    (tokensFrom offset cs).flatMap (fun t => t.text.toList) = cs := by
  fun_induction tokensFrom offset cs with
  | case1 => rfl
  | case2 offset c cs kind more h text stop ih => simp [ih, text]

def tokenize (source : String) : List Token := tokensFrom 0 source.toList

end MarkupTrace.Source
