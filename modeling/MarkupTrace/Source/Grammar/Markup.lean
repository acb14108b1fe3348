import MarkupTrace.Source.Grammar.Lexical
import MarkupTrace.Source.Tree

/-!
# Elements

An element is a tag with attributes and, unless it closes itself, children and a closing tag of the
same name. Between the tags blanks are text. The parser of embedded expressions is a parameter.
-/

namespace MarkupTrace.Source.Grammar

open Text Grammar.Parser

/-- The value of an attribute, given its name. -/
def attributeValue (expr : Parser Expr) : Parser (String → Attribute) :=
  ((trivia.before rawString).map fun raw name => Attribute.text name raw).orElse <|
    (((mark .openBrace).before expr).skip (mark .closeBrace)).map fun e name =>
      Attribute.value name e

def tagAttribute (expr : Parser Expr) : Parser Attribute :=
  let spread := (((mark .openBrace).before (mark .ellipsis)).before expr).skip (mark .closeBrace)
  let named := (trivia.before markupName).both
    ((mark .equals).before (attributeValue expr)).optional
  (spread.map Attribute.spread).orElse <| named.map fun (name, value) =>
    match value with
    | some f => f name
    | none => Attribute.bare name

/-- From the start of the first token to the end of the last. -/
def spanOf (ts : List Token) : Span :=
  let start := (ts.head?.map (·.span.start)).getD 0
  ⟨start, (ts.getLast?.map (·.span.stop)).getD start⟩

def markupText : Parser Child :=
  (satisfy fun t => !t.endsText).many1.map fun ts =>
    Child.text ⟨String.join (ts.map Token.text), spanOf ts⟩

def container (expr : Parser Expr) : Parser Child :=
  ((token .openBrace).both expr.optional).both (mark .closeBrace) |>.map
    fun ((opening, value), closing) =>
      let span : Span := ⟨opening.span.start, closing.span.stop⟩
      match value with
      | some e => Child.container e span
      | none => Child.emptyContainer span

def child (expr : Parser Expr) (element : Parser Element) : Parser Child :=
  ((container expr).orElse (element.map Child.element)).orElse markupText

/-- The name in a closing tag and the token that ends it. -/
def closingTag : Parser (String × Token) :=
  (((token .less).both (mark .slash)).before (trivia.before markupName)).both (mark .greater)

/-- What follows the attributes. -/
inductive Tail where
  | selfClosing (last : Token)
  | children (children : List Child) (closing : String) (last : Token)

def tail (expr : Parser Expr) (element : Parser Element) : Parser Tail :=
  (((mark .slash).before (mark .greater)).map Tail.selfClosing).orElse <|
    (((mark .greater).before (child expr element).many).both closingTag).map
      fun (children, closing, last) => Tail.children children closing last

/-- An element whose closing tag, if any, has its name. -/
def assemble (first : Token) (name : String) (attributes : List Attribute) : Tail → Option Element
  | .selfClosing last => some ⟨name, attributes, .selfClosing, ⟨first.span.start, last.span.stop⟩⟩
  | .children children closing last =>
    if closing = name then
      some ⟨name, attributes, .children children, ⟨first.span.start, last.span.stop⟩⟩
    else none

/-- An element, given a parser of the elements inside it. -/
def elementBody (expr : Parser Expr) (element : Parser Element) : Parser Element :=
  (((token .less).both (trivia.before markupName)).both (tagAttribute expr).many).both
    (tail expr element) |>.refine (fun (((first, name), attributes), tail) =>
      assemble first name attributes tail) |>.charged "markup element"

def element (expr : Parser Expr) : Parser Element := recursive (elementBody expr)

end MarkupTrace.Source.Grammar
