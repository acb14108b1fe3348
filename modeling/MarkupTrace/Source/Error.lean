import MarkupTrace.Source.Grammar.Module

/-!
# Reading modules

`Module.parse` and `Expr.parse` read a text, or else report a single failure: where it is, what
stood there, and in which construct. A failure over a token has the span of the token, and one over
no token the empty span at the end of the text.
-/

namespace MarkupTrace.Source

open Text Grammar

structure ParseError where
  message : String
  span : Span
  position : Position
  excerpt : String
  deriving Repr

namespace ParseError

/-- The whole message, with the lines around the failure. -/
def text (e : ParseError) : String :=
  "Syntax error at " ++ e.position.text ++ ": " ++ e.message ++ "\n\n" ++ e.excerpt

def ofBlame (source : String) (b : Blame) : ParseError :=
  let size := byteLength source.toList
  let span := match b.found with
    | some t => t.span
    | none => ⟨size, size⟩
  let found := match b.found with
    | some t => "unexpected " ++ t.describe
    | none => "unexpected end of input"
  let message := match b.charge with
    | .one construct => found ++ " in " ++ construct
    | _ => found
  let position := (LineIndex.ofText source).position (min span.start size)
  ⟨message, span, position, Text.excerpt source position.line⟩

end ParseError

/-- Runs a parser over a text. -/
def parseWith {α : Type} (p : Parser α) (source : String) : Except ParseError α :=
  match p (Input.ofTokens (tokenize source)) with
  | .done a _ _ => .ok a
  | .failed b => .error (ParseError.ofBlame source b)

def Module.parse (source : String) : Except ParseError Module := parseWith Grammar.module source

def Expr.parse (source : String) : Except ParseError Expr := parseWith wholeExpression source

end MarkupTrace.Source
