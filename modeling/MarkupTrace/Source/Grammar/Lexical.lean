import MarkupTrace.Source.Grammar.Outcome
import MarkupTrace.Number.Read

/-!
# Words, names and strings

Between the tokens of code stand blanks, line breaks and comments, called trivia. `mark`, `word`,
`name` and `anyName` skip trivia before the token they read; the other parsers of this module do
not.
-/

namespace MarkupTrace.Source.Grammar

open Text Grammar.Parser

def token (k : Kind) : Parser Token := satisfy fun t => t.kind == k

/-- Two slashes and the rest of the line. -/
def lineComment : Parser Unit :=
  ((token .slash).both (token .slash)).both (satisfy fun t => t.kind != .newline).many |>.map
    fun _ => ()

/-- A slash and a star, through the next star and slash. -/
def blockComment : Parser Unit :=
  ((token .slash).both (token .star)).both (through ((token .star).both (token .slash))) |>.map
    fun _ => ()

/-- One blank, line break or comment. -/
def triviaItem : Parser Unit :=
  (((satisfy Token.isBlank).map fun _ => ()).orElse lineComment).orElse blockComment

def trivia : Parser Unit := triviaItem.many.map fun _ => ()

def mark (k : Kind) : Parser Token := trivia.before (token k)

def word (w : String) : Parser Token := trivia.before (satisfy (Token.isWord w))

/-- An identifier that may be bound. -/
def name : Parser String := trivia.before <| single fun t =>
  if t.kind = .identifier ∧ ¬ isReserved t.text then some t.text else none

/-- Any identifier, reserved words included. -/
def anyName : Parser String := trivia.before <| single fun t =>
  if t.kind = .identifier then some t.text else none

def number : Parser Double := single fun t =>
  if t.kind = .number then Double.ofText? t.text else none

/-- What a character stands for behind a backslash. -/
def unescapeChar (c : Char) : Char :=
  match c with
  | 'n' => '\n'
  | 't' => '\t'
  | 'r' => '\r'
  | '0' => '\x00'
  | c => c

/-- A backslash changes the first character of the token behind it. -/
def unescape : List Char → List Char
  | [] => []
  | c :: cs => unescapeChar c :: cs

def escaped : Parser String :=
  (token .backslash).before (satisfy fun t => t.kind != .newline) |>.map
    fun t => String.ofList (unescape t.text.toList)

/-- A string on one line between two quotes of one kind, with its span. -/
def quotedBy (quote : Kind) : Parser (String × Span) :=
  let plain := (satisfy fun t => t.kind != quote && t.kind != .backslash && t.kind != .newline).map
    Token.text
  ((token quote).both (escaped.orElse plain).many).both (token quote) |>.map
    fun ((opening, parts), closing) => (String.join parts, ⟨opening.span.start, closing.span.stop⟩)

def string : Parser (String × Span) := (quotedBy .doubleQuote).orElse (quotedBy .singleQuote)

/-- The text between two quotes of one kind as it stands. -/
def rawBy (quote : Kind) : Parser String :=
  ((token quote).before (satisfy fun t => t.kind != quote).many).skip (token quote) |>.map
    fun ts => String.join (ts.map Token.text)

def rawString : Parser String := (rawBy .doubleQuote).orElse (rawBy .singleQuote)

/-- Names of elements and attributes: identifiers joined by points and hyphens. Numbers may follow
the first one. -/
def markupName : Parser String :=
  let head := single fun t => if t.kind = .identifier then some t.text else none
  let joint := single fun t =>
    if t.kind = .dot ∨ (t.kind = .punctuation ∧ t.text = "-") then some t.text else none
  let segment := single fun t =>
    if t.kind = .identifier ∨ t.kind = .number then some t.text else none
  head.both (joint.both segment).many |>.map
    fun (first, rest) => rest.foldl (fun done (j, s) => done ++ j ++ s) first

end MarkupTrace.Source.Grammar
