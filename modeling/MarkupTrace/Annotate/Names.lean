import MarkupTrace.Annotate.Options
import MarkupTrace.Source.Tree

/-!
# Fresh names

The names that annotation declares must not meet those of the module. A module's names are
everything it imports, declares or takes as a parameter, and every identifier it evaluates. A name
that is taken gets the first free number behind it.
-/

namespace MarkupTrace.Source

def Param.names : Param → List String
  | .name n => [n]
  | .properties ns => ns

def Import.names (decl : Import) : List String :=
  decl.bindings.flatMap fun b =>
    match b.imported with
    | .named n => [b.name, n]
    | _ => [b.name]

mutual

def Expr.names : Expr → List String
  | .text _ | .number _ | .bool _ | .null | .this | .helper _ => []
  | .name n => [n]
  | .member object _ => object.names
  | .call callee arguments => callee.names ++ namesOfItems arguments
  | .arrow ps body => ps.flatMap Param.names ++ body.names
  | .object properties => namesOfProperties properties
  | .array items => namesOfItems items
  | .paren inner => inner.names
  | .markup element => element.names
  | .location l => [l.file]

def namesOfItems : List Expr → List String
  | [] => []
  | e :: es => e.names ++ namesOfItems es

def Body.names : Body → List String
  | .result value => value.names
  | .block statements => namesOfStatements statements

def Property.names : Property → List String
  | .entry _ value => value.names
  | .shorthand _ => []
  | .spread value => value.names

def namesOfProperties : List Property → List String
  | [] => []
  | p :: ps => p.names ++ namesOfProperties ps

def Element.names : Element → List String
  | .mk _ attributes content _ => namesOfAttributes attributes ++ content.names

def Attribute.names : Attribute → List String
  | .bare _ | .text _ _ => []
  | .value _ value => value.names
  | .spread value => value.names

def namesOfAttributes : List Attribute → List String
  | [] => []
  | a :: as => a.names ++ namesOfAttributes as

def Content.names : Content → List String
  | .selfClosing => []
  | .children children => namesOfChildren children

def Child.names : Child → List String
  | .text _ | .emptyContainer _ => []
  | .container value _ => value.names
  | .element e => e.names

def namesOfChildren : List Child → List String
  | [] => []
  | c :: cs => c.names ++ namesOfChildren cs

def Statement.names : Statement → List String
  | .imports decl => decl.names
  | .const _ name value => name :: value.names
  | .returns value => value.names
  | .returnsNothing => []
  | .expr value => value.names

def namesOfStatements : List Statement → List String
  | [] => []
  | s :: ss => s.names ++ namesOfStatements ss

end

def Module.names (m : Module) : List String := namesOfStatements m.body

end MarkupTrace.Source

namespace MarkupTrace.Annotate

open Source

def numbered (base : String) (n : Nat) : String := base ++ "_" ++ toString n

/-- The base itself, or the base with the least number from one on, so that it is not taken. One of
the first `taken.length + 1` numbers is free. -/
def uniqueName (base : String) (taken : List String) : String :=
  if taken.contains base then
    (((List.range (taken.length + 1)).map fun n => numbered base (n + 1)).find? fun candidate =>
      !taken.contains candidate).getD base
  else base

/-- The names one annotated module declares. -/
structure Names where
  fileName : String
  stack : String
  recordParent : String
  recordExpression : String
  deriving DecidableEq, Repr

namespace Names

/-- One name after the other, none of them taken by then. -/
def avoiding (taken : List String) (o : Options) : Names :=
  let fileName := uniqueName o.fileName taken
  let taken := fileName :: taken
  let stack := uniqueName o.stack taken
  let taken := stack :: taken
  let recordParent := uniqueName o.recordParent taken
  let taken := recordParent :: taken
  let recordExpression := uniqueName o.recordExpression taken
  ⟨fileName, stack, recordParent, recordExpression⟩

def ofModule (m : Module) (o : Options) : Names := avoiding m.names o

def toList (n : Names) : List String := [n.fileName, n.stack, n.recordParent, n.recordExpression]

end Names

end MarkupTrace.Annotate
