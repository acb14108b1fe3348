import MarkupTrace.Annotate.Module

/-!
# The report of an annotation

Annotation counts what it does to a module. Whether anything was annotated or wrapped also decides
which declarations are put in.
-/

namespace MarkupTrace.Annotate

open Source Text

/-- What was done to a part of a module. -/
structure Tally where
  annotated : Nat
  texts : Nat
  expressions : Nat
  kept : Nat
  deriving DecidableEq, Repr

namespace Tally

def none : Tally := ⟨0, 0, 0, 0⟩

def add (a b : Tally) : Tally :=
  ⟨a.annotated + b.annotated, a.texts + b.texts, a.expressions + b.expressions, a.kept + b.kept⟩

instance : Add Tally := ⟨add⟩

/-- The children that became recording calls. -/
def wrapped (t : Tally) : Nat := t.texts + t.expressions

/-- What is done to an element itself, its attributes and children aside. -/
def ofElement (e : Element) : Tally :=
  let userSelf := e.hasAttribute selfAttribute
  let userSource := e.hasAttribute sourceAttribute
  ⟨if userSource then 0 else 1, 0, 0,
    (if userSelf then 1 else 0) + (if userSource then 1 else 0)⟩

/-- What is done to a child in place. -/
def ofChild (records : Bool) : Child → Tally
  | .text t => if records && t.isSignificant then ⟨0, 1, 0, 0⟩ else none
  | .container _ _ => if records then ⟨0, 0, 1, 0⟩ else none
  | _ => none

end Tally

mutual

def tallyExpr : Expr → Tally
  | .member object _ => tallyExpr object
  | .call callee arguments => tallyExpr callee + tallyExprs arguments
  | .arrow _ b => tallyBody b
  | .object ps => tallyProperties ps
  | .array items => tallyExprs items
  | .paren inner => tallyExpr inner
  | .markup e => tallyElement e
  | .text _ | .number _ | .bool _ | .null | .this | .name _ | .location _ | .helper _ => Tally.none

def tallyExprs : List Expr → Tally
  | [] => Tally.none
  | e :: es => tallyExpr e + tallyExprs es

def tallyBody : Body → Tally
  | .result value => tallyExpr value
  | .block ss => tallyStatements ss

def tallyProperty : Property → Tally
  | .entry _ value => tallyExpr value
  | .shorthand _ => Tally.none
  | .spread value => tallyExpr value

def tallyProperties : List Property → Tally
  | [] => Tally.none
  | p :: ps => tallyProperty p + tallyProperties ps

def tallyElement : Element → Tally
  | .mk name as c span =>
    let e := Element.mk name as c span
    tallyAttrs as + tallyContent (recordsChildren e) c + Tally.ofElement e

def tallyAttr : Attribute → Tally
  | .bare _ | .text _ _ => Tally.none
  | .value _ value => tallyExpr value
  | .spread value => tallyExpr value

def tallyAttrs : List Attribute → Tally
  | [] => Tally.none
  | a :: as => tallyAttr a + tallyAttrs as

def tallyContent (records : Bool) : Content → Tally
  | .selfClosing => Tally.none
  | .children cs => tallyChildren records cs

def tallyChildren (records : Bool) : List Child → Tally
  | [] => Tally.none
  | c :: cs => Tally.ofChild records c + tallyChild c + tallyChildren records cs

/-- What is done inside a child. -/
def tallyChild : Child → Tally
  | .text _ | .emptyContainer _ => Tally.none
  | .container value _ => tallyExpr value
  | .element e => tallyElement e

def tallyStatement : Statement → Tally
  | .imports _ | .returnsNothing => Tally.none
  | .const _ _ value => tallyExpr value
  | .returns value => tallyExpr value
  | .expr value => tallyExpr value

def tallyStatements : List Statement → Tally
  | [] => Tally.none
  | s :: ss => tallyStatement s + tallyStatements ss

end

structure Report where
  tally : Tally
  fileConstantInserted : Bool
  helpersInserted : Bool
  deriving DecidableEq, Repr

def declare (name : String) (value : Expr) : Statement := .const false name value

/-- The declarations that annotations refer to. -/
def declarations (names : Names) (fileName : String) (t : Tally) : List Statement :=
  (if t.annotated > 0 then [declare names.fileName (.text fileName)] else []) ++
    if t.wrapped > 0 then
      [declare names.stack (.helper .newStack),
        declare names.recordParent (.helper (.recordParent names.stack)),
        declare names.recordExpression (.helper (.recordExpression names.stack))]
    else []

/-- Statements put behind the leading imports. -/
def insertBehindImports (added : List Statement) (m : Module) : Module :=
  ⟨m.body.take m.leadingImports ++ added ++ m.body.drop m.leadingImports⟩

structure Annotated where
  module : Module
  names : Names
  report : Report

/-- Annotates a module read from `source`, whose spans are those of that text. -/
def annotate (m : Module) (source fileName : String) (o : Options) : Annotated :=
  let names := Names.ofModule m o
  let site : Site := ⟨LineIndex.ofText source, o.normalizeLineEndings, names⟩
  let tally := tallyStatements m.body
  let marked : Module := ⟨statements site m.body⟩
  { module := insertBehindImports (declarations names fileName tally) marked
    names
    report := ⟨tally, tally.annotated > 0, tally.wrapped > 0⟩ }

end MarkupTrace.Annotate
