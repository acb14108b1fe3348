import MarkupTrace.Source.Grammar.Markup

/-!
# Expressions

Arrow functions come before parenthesised expressions, since both start with a parenthesis, and
markup before lists and objects. Members and calls follow an atom in a chain.
-/

namespace MarkupTrace.Source.Grammar

open Text Grammar.Parser

/-- Items between two marks with commas between them. -/
def listed {α : Type} (opening closing : Kind) (item : Parser α) : Parser (List α) :=
  ((mark opening).before (item.separated (mark .comma))).skip (mark closing)

def literal : Parser Expr :=
  let fixed := fun (w : String) (e : Expr) => (satisfy (Token.isWord w)).map fun _ => e
  trivia.before <| firstOf [
    string.map fun s => Expr.text s.1,
    number.map Expr.number,
    fixed "true" (.bool true),
    fixed "false" (.bool false),
    fixed "null" .null,
    fixed "this" .this]

def param : Parser Param :=
  (name.map Param.name).orElse <| (listed .openBrace .closeBrace name).map Param.properties

def params : Parser (List Param) :=
  (listed .openParen .closeParen param).orElse <| name.map fun n => [Param.name n]

def semicolon : Parser (Option Token) := (mark .semicolon).optional

def declaration (expr : Parser Expr) : Parser Statement :=
  let introducer := ((word "const").orElse (word "let")).orElse (word "var")
  ((((((word "export").optional.skip introducer).both name).skip (mark .equals)).both expr).skip
    semicolon).map (fun ((exported, name), value) => Statement.const exported.isSome name value)
    |>.charged "declaration"

def expressionStatement (expr : Parser Expr) : Parser Statement :=
  (expr.skip semicolon).map Statement.expr

def returnStatement (expr : Parser Expr) : Parser Statement :=
  (((word "return").before expr.optional).skip semicolon).map fun value =>
    match value with
    | some e => Statement.returns e
    | none => Statement.returnsNothing

def blockStatement (expr : Parser Expr) : Parser Statement :=
  ((declaration expr).orElse (returnStatement expr)).orElse (expressionStatement expr)

def body (expr : Parser Expr) : Parser Body :=
  ((((mark .openBrace).before (blockStatement expr).many).skip (mark .closeBrace)).map
    Body.block).orElse <| expr.map Body.result

def arrow (expr : Parser Expr) : Parser Expr :=
  (params.skip (mark .arrow)).both (body expr) |>.map fun (ps, b) => Expr.arrow ps b

def paren (expr : Parser Expr) : Parser Expr :=
  (((mark .openParen).before expr).skip (mark .closeParen)).map Expr.paren

def array (expr : Parser Expr) : Parser Expr :=
  (listed .openBracket .closeBracket expr).map Expr.array

def key : Parser String := anyName.orElse <| (trivia.before string).map (·.1)

def property (expr : Parser Expr) : Parser Property :=
  firstOf [
    ((mark .ellipsis).before expr).map Property.spread,
    ((key.skip (mark .colon)).both expr).map fun (k, e) => Property.entry k e,
    name.map Property.shorthand]

def object (expr : Parser Expr) : Parser Expr :=
  (listed .openBrace .closeBrace (property expr)).map Expr.object

def markup (expr : Parser Expr) : Parser Expr := (trivia.before (element expr)).map Expr.markup

def atom (expr : Parser Expr) : Parser Expr :=
  firstOf [arrow expr, paren expr, literal, markup expr, array expr, object expr,
    name.map Expr.name]

/-- What follows an atom, as a function of what stands before it. -/
def chainStep (expr : Parser Expr) : Parser (Expr → Expr) :=
  (((mark .dot).before anyName).map fun p e => Expr.member e p).orElse <|
    (listed .openParen .closeParen expr).map fun arguments e => Expr.call e arguments

/-- An expression, given a parser of the expressions inside it. -/
def expressionBody (expr : Parser Expr) : Parser Expr :=
  (atom expr).both (chainStep expr).many |>.map (fun (first, steps) =>
    steps.foldl (fun e step => step e) first) |>.charged "expression"

def expression : Parser Expr := recursive expressionBody

end MarkupTrace.Source.Grammar
