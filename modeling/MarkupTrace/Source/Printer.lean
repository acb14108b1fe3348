import MarkupTrace.Number.Written
import MarkupTrace.Source.Tree
import MarkupTrace.Text.Escaped

/-!
# Printing modules

Every module tree can be printed, annotated or not. Statements stand on lines of their own, blocks
are indented by two spaces, strings are quoted as in JSON, and helpers print as the arrow functions
that they stand for.
-/

namespace MarkupTrace.Source

/-- A whole number below `10 ^ 15` is printed as an integer, so the sign of a zero is lost. -/
def printNumber (n : Double) : String :=
  if n.isWholeBelow (Nat.pow 10 15) then toString n.toInt64 else n.plain

/-- Two spaces per level. -/
def indentation (depth : Nat) : String := String.ofList (List.replicate (2 * depth) ' ')

def Param.print : Param → String
  | .name n => n
  | .properties ns => "\x7b " ++ ", ".intercalate ns ++ " \x7d"

def printParams (ps : List Param) : String := "(" ++ ", ".intercalate (ps.map Param.print) ++ ")"

def LocationLiteral.print (l : LocationLiteral) : String :=
  "\x7b fileName: " ++ l.file ++ ", lineNumber: " ++ toString l.line ++ ", pos: " ++
    toString l.pos ++ ", end: " ++ toString l.stop ++ " \x7d"

def Helper.print : Helper → String
  | .newStack => "[]"
  | .recordParent stack =>
    "(source) => \x7b " ++ stack ++ ".unshift(source); return source; \x7d"
  | .recordExpression stack =>
    "(location, value, isExpression, isLast) => \x7b const parent = " ++ stack ++
      "[0]; if (parent) \x7b (parent.expressions = parent.expressions || []).push(\x7b " ++
      "location, value, isExpression \x7d); if (isLast) " ++ stack ++
      ".shift(); \x7d return value; \x7d"

def Import.print (decl : Import) : String :=
  let plain := decl.bindings.filterMap fun b =>
    match b.imported with
    | .default => some b.name
    | .everything => some ("* as " ++ b.name)
    | .named _ => none
  let named := decl.bindings.filterMap fun b =>
    match b.imported with
    | .named n => some (if n = b.name then n else n ++ " as " ++ b.name)
    | _ => none
  let parts := if named.isEmpty then plain
    else plain ++ ["\x7b " ++ ", ".intercalate named ++ " \x7d"]
  "import " ++ (if parts.isEmpty then "" else ", ".intercalate parts ++ " from ") ++
    Text.quote decl.specifier

/-- A raw attribute text between double quotes, or single ones if it has a double quote. -/
def printRaw (raw : String) : String :=
  let quote := if raw.toList.contains '"' then "'" else "\""
  quote ++ raw ++ quote

def Expr.isArrow : Expr → Bool
  | .arrow _ _ => true
  | _ => false

def Expr.isObject : Expr → Bool
  | .object _ => true
  | _ => false

/-- In parentheses, if asked for. -/
def parenthesize (wanted : Bool) (s : String) : String := if wanted then "(" ++ s ++ ")" else s

mutual

def Expr.printAt (depth : Nat) : Expr → String
  | .text s => Text.quote s
  | .number n => printNumber n
  | .bool b => if b then "true" else "false"
  | .null => "null"
  | .this => "this"
  | .name n => n
  | .member object property => object.printAt depth ++ "." ++ property
  | .call callee arguments =>
    parenthesize callee.isArrow (callee.printAt depth) ++ "(" ++ printItems depth arguments ++ ")"
  | .arrow ps body => printParams ps ++ " => " ++ body.printAt depth
  | .object [] => "\x7b\x7d"
  | .object (p :: ps) => "\x7b " ++ printProperties depth (p :: ps) ++ " \x7d"
  | .array items => "[" ++ printItems depth items ++ "]"
  | .paren inner => "(" ++ inner.printAt depth ++ ")"
  | .markup element => element.printAt depth
  | .location l => l.print
  | .helper h => h.print

def printItems (depth : Nat) : List Expr → String
  | [] => ""
  | [e] => e.printAt depth
  | e :: es => e.printAt depth ++ ", " ++ printItems depth es

def Body.printAt (depth : Nat) : Body → String
  | .result value => parenthesize value.isObject (value.printAt depth)
  | .block statements =>
    "\x7b\n" ++ printStatements (depth + 1) statements ++ indentation depth ++ "\x7d"

def Property.printAt (depth : Nat) : Property → String
  | .entry key value => key ++ ": " ++ value.printAt depth
  | .shorthand name => name
  | .spread value => "..." ++ value.printAt depth

def printProperties (depth : Nat) : List Property → String
  | [] => ""
  | [p] => p.printAt depth
  | p :: ps => p.printAt depth ++ ", " ++ printProperties depth ps

def Element.printAt (depth : Nat) : Element → String
  | .mk name attributes content _ =>
    "<" ++ name ++ printAttributes depth attributes ++ content.printAt depth name

def Attribute.printAt (depth : Nat) : Attribute → String
  | .bare name => name
  | .text name raw => name ++ "=" ++ printRaw raw
  | .value name value => name ++ "=\x7b" ++ value.printAt depth ++ "\x7d"
  | .spread value => "\x7b..." ++ value.printAt depth ++ "\x7d"

def printAttributes (depth : Nat) : List Attribute → String
  | [] => ""
  | a :: as => " " ++ a.printAt depth ++ printAttributes depth as

/-- The end of the opening tag, the children and the closing tag. -/
def Content.printAt (depth : Nat) (name : String) : Content → String
  | .selfClosing => " />"
  | .children children => ">" ++ printChildren depth children ++ "</" ++ name ++ ">"

def Child.printAt (depth : Nat) : Child → String
  | .text t => t.raw
  | .container value _ => "\x7b" ++ value.printAt depth ++ "\x7d"
  | .emptyContainer _ => "\x7b\x7d"
  | .element e => e.printAt depth

def printChildren (depth : Nat) : List Child → String
  | [] => ""
  | c :: cs => c.printAt depth ++ printChildren depth cs

def Statement.printAt (depth : Nat) : Statement → String
  | .imports decl => indentation depth ++ decl.print ++ ";\n"
  | .const exported name value =>
    indentation depth ++ (if exported then "export " else "") ++ "const " ++ name ++ " = " ++
      value.printAt depth ++ ";\n"
  | .returns value => indentation depth ++ "return " ++ value.printAt depth ++ ";\n"
  | .returnsNothing => indentation depth ++ "return;\n"
  | .expr value => indentation depth ++ value.printAt depth ++ ";\n"

def printStatements (depth : Nat) : List Statement → String
  | [] => ""
  | s :: ss => s.printAt depth ++ printStatements depth ss

end

def Expr.print (e : Expr) : String := e.printAt 0

def Module.print (m : Module) : String := printStatements 0 m.body

end MarkupTrace.Source
