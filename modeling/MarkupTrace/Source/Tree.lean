import MarkupTrace.Number.Double
import MarkupTrace.Text.Blank
import MarkupTrace.Text.Lines
import MarkupTrace.Text.Span

/-!
# Module trees

A module is a list of statements; expressions embed markup elements and elements embed expressions.
Imports, elements, texts and containers keep the span they were read from. Location literals and
helper functions are never read from a text: annotation puts them in.
-/

namespace MarkupTrace.Source

open Text

/-- What an import binding takes from the other module. -/
inductive Imported
  | default
  | everything
  | named (name : String)
  deriving DecidableEq, Repr

structure Binding where
  imported : Imported
  name : String
  deriving DecidableEq, Repr

structure Import where
  specifier : String
  bindings : List Binding
  span : Span
  deriving DecidableEq, Repr

/-- A parameter takes a whole argument or some of its properties. -/
inductive Param
  | name (name : String)
  | properties (names : List String)
  deriving DecidableEq, Repr

/-- A place in the source file whose name is bound to `file`. -/
structure LocationLiteral where
  file : String
  line : Nat
  pos : Nat
  stop : Nat
  deriving DecidableEq, Repr

/-- Functions that annotated modules declare for themselves. -/
inductive Helper
  | newStack
  | recordParent (stack : String)
  | recordExpression (stack : String)
  deriving DecidableEq, Repr

/-- Text between tags. -/
structure MarkupText where
  raw : String
  span : Span
  deriving DecidableEq, Repr

mutual

inductive Expr where
  | text (value : String)
  | number (value : Double)
  | bool (value : Bool)
  | null
  | this
  | name (name : String)
  | member (object : Expr) (property : String)
  | call (callee : Expr) (arguments : List Expr)
  | arrow (params : List Param) (body : Body)
  | object (properties : List Property)
  | array (items : List Expr)
  | paren (inner : Expr)
  | markup (element : Element)
  | location (literal : LocationLiteral)
  | helper (helper : Helper)

inductive Body where
  | result (value : Expr)
  | block (statements : List Statement)

inductive Property where
  | entry (key : String) (value : Expr)
  | shorthand (name : String)
  | spread (value : Expr)

inductive Element where
  | mk (name : String) (attributes : List Attribute) (content : Content) (span : Span)

inductive Attribute where
  | bare (name : String)
  | text (name : String) (raw : String)
  | value (name : String) (value : Expr)
  | spread (value : Expr)

/-- What stands between the tags of an element, if it has a closing tag. -/
inductive Content where
  | selfClosing
  | children (children : List Child)

inductive Child where
  | text (text : MarkupText)
  | container (value : Expr) (span : Span)
  | emptyContainer (span : Span)
  | element (element : Element)

inductive Statement where
  | imports (decl : Import)
  | const (exported : Bool) (name : String) (value : Expr)
  | returns (value : Expr)
  | returnsNothing
  | expr (value : Expr)

end

instance : Inhabited Expr := ⟨.null⟩

structure Module where
  body : List Statement

namespace Statement

def isImport : Statement → Bool
  | imports _ => true
  | _ => false

/-- The names a statement binds. -/
def declared : Statement → List String
  | imports decl => decl.bindings.map (·.name)
  | const _ name _ => [name]
  | _ => []

/-- The name a statement exports. -/
def exported : Statement → Option String
  | const true name _ => some name
  | _ => none

end Statement

namespace Module

/-- The number of imports before the first other statement. -/
def leadingImports (m : Module) : Nat := (m.body.takeWhile Statement.isImport).length

def declaredNames (m : Module) : List String := m.body.flatMap Statement.declared

def exportedNames (m : Module) : List String := m.body.filterMap Statement.exported

end Module

/-- Host tags start with a small letter or have a hyphen. A name with a dot names a component. -/
def isHostTag (name : String) : Bool :=
  let cs := name.toList
  !cs.contains '.' && (cs.contains '-' || (cs.head?.map Char.isLower).getD false)

namespace Element

def name : Element → String
  | mk name _ _ _ => name

def attributes : Element → List Attribute
  | mk _ attributes _ _ => attributes

def content : Element → Content
  | mk _ _ content _ => content

def span : Element → Span
  | mk _ _ _ span => span

end Element

/-- The children of an element; a self-closing one has none. -/
def Content.toList : Content → List Child
  | .selfClosing => []
  | .children cs => cs

def Attribute.name? : Attribute → Option String
  | .bare name | .text name _ | .value name _ => some name
  | .spread _ => none

def Element.hasAttribute (e : Element) (name : String) : Bool :=
  e.attributes.any fun a => a.name? == some name

namespace MarkupText

/-- There is something else than blanks in it. -/
def isSignificant (t : MarkupText) : Bool := t.raw.toList.any fun c => !isBlank c

/-- One line of a text as it is shown: tabs are spaces, and leading spaces go from every line but
the first, trailing ones from every line but the last. -/
def cookLine (first last : Bool) (line : List Char) : List Char :=
  let isSpace := fun (c : Char) => c == ' '
  let spaced := (dropEnd (· == '\r') line).map fun c => if c = '\t' then ' ' else c
  let spaced := if first then spaced else dropStart isSpace spaced
  if last then spaced else dropEnd isSpace spaced

/-- A line holds something besides spaces and tabs. -/
def isFilled (line : List Char) : Bool :=
  (dropEnd (· == '\r') line).any fun c => c != ' ' && c != '\t'

/-- The number of the last filled line. -/
def lastFilled (lines : List (List Char)) : Option Nat :=
  (lines.zipIdx.filter fun (line, _) => isFilled line).getLast?.map (·.2)

/-- Lines joined by a space after each one that is not empty, the last filled line excepted. -/
def cookLines (lines : List (List Char)) : List Char :=
  let last := lines.length - 1
  let filled := lastFilled lines
  lines.zipIdx.flatMap fun (line, i) =>
    let cooked := cookLine (i == 0) (i == last) line
    if cooked.isEmpty then []
    else if filled = some i then cooked
    else cooked ++ [' ']

/-- The string that a text is shown as. -/
def cooked (t : MarkupText) : String := String.ofList (cookLines (splitAt '\n' t.raw.toList))

/-- The span without the blanks at both ends. -/
def trimmedSpan (t : MarkupText) : Span :=
  let cs := t.raw.toList
  let leading := byteLength cs - byteLength (dropStart isBlank cs)
  let trailing := byteLength cs - byteLength (dropEnd isBlank cs)
  let start := t.span.start + leading
  ⟨start, max (t.span.stop - trailing) start⟩

end MarkupText

end MarkupTrace.Source
