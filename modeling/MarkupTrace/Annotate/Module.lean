import MarkupTrace.Annotate.Names
import MarkupTrace.Text.Lines

/-!
# Annotating modules

Every element gets `__self={this}` and a `__source` attribute that says where it was written, unless
the author wrote them. Where an element has text that shows or a container with an expression, its
location goes through the helper that pushes it onto the attribution stack, and each of these
children becomes a call that records its value against the top of the stack. The last of them is
flagged, so that it pops what the attribute pushed.

An element with a `__source` of the author's pushes nothing. Its children are left alone: recorded,
they would count as another element's.

The declarations that the annotations refer to are put behind the leading imports.
-/

namespace MarkupTrace.Source

/-- Shown text and containers with an expression. -/
def Child.isWrappable : Child → Bool
  | .text t => t.isSignificant
  | .container _ _ => true
  | .emptyContainer _ => false
  | .element _ => false

end MarkupTrace.Source

namespace MarkupTrace.Annotate

open Source Text

/-- What annotation has to know of the file. -/
structure Site where
  index : LineIndex
  normalize : Bool
  names : Names

namespace Site

def offset (s : Site) (byte : Nat) : Nat := if s.normalize then s.index.normalized byte else byte

def location (s : Site) (span : Span) : LocationLiteral :=
  ⟨s.names.fileName, s.index.lineNumber span.start, s.offset span.start, s.offset span.stop⟩

/-- The value of the `__source` attribute. -/
def source (s : Site) (span : Span) (records : Bool) : Expr :=
  let place := Expr.location (s.location span)
  if records then .call (.name s.names.recordParent) [place] else place

/-- The call that records the value of a child. -/
def record (s : Site) (span : Span) (value : Expr) (isExpression isLast : Bool) : Expr :=
  .call (.name s.names.recordExpression)
    [.location (s.location span), value, .bool isExpression, .bool isLast]

end Site

/-- The children of an element are recorded. -/
def recordsChildren (e : Element) : Bool :=
  !e.hasAttribute sourceAttribute && e.content.toList.any Child.isWrappable

/-- The attributes an element gets in addition. -/
def addedAttributes (s : Site) (e : Element) : List Attribute :=
  (if e.hasAttribute selfAttribute then [] else [.value selfAttribute .this]) ++
    if e.hasAttribute sourceAttribute then []
    else [.value sourceAttribute (s.source e.span (recordsChildren e))]

mutual

def expr (s : Site) : Expr → Expr
  | .text v => .text v
  | .number n => .number n
  | .bool b => .bool b
  | .null => .null
  | .this => .this
  | .name n => .name n
  | .member object property => .member (expr s object) property
  | .call callee arguments => .call (expr s callee) (exprs s arguments)
  | .arrow ps b => .arrow ps (body s b)
  | .object ps => .object (properties s ps)
  | .array items => .array (exprs s items)
  | .paren inner => .paren (expr s inner)
  | .markup e => .markup (element s e)
  | .location l => .location l
  | .helper h => .helper h

def exprs (s : Site) : List Expr → List Expr
  | [] => []
  | e :: es => expr s e :: exprs s es

def body (s : Site) : Body → Body
  | .result value => .result (expr s value)
  | .block ss => .block (statements s ss)

def property (s : Site) : Property → Property
  | .entry key value => .entry key (expr s value)
  | .shorthand name => .shorthand name
  | .spread value => .spread (expr s value)

def properties (s : Site) : List Property → List Property
  | [] => []
  | p :: ps => property s p :: properties s ps

def element (s : Site) : Element → Element
  | .mk name as c span =>
    let e := Element.mk name as c span
    .mk name (attrs s as ++ addedAttributes s e) (content s (recordsChildren e) c) span

def attr (s : Site) : Attribute → Attribute
  | .bare name => .bare name
  | .text name raw => .text name raw
  | .value name value => .value name (expr s value)
  | .spread value => .spread (expr s value)

def attrs (s : Site) : List Attribute → List Attribute
  | [] => []
  | a :: as => attr s a :: attrs s as

def content (s : Site) (records : Bool) : Content → Content
  | .selfClosing => .selfClosing
  | .children cs => .children (children s records cs)

/-- Children in order. When they are recorded, a child is the last one if none that can be recorded
follows it. -/
def children (s : Site) (records : Bool) : List Child → List Child
  | [] => []
  | c :: cs => child s records (!cs.any Child.isWrappable) c :: children s records cs

def child (s : Site) (records isLast : Bool) : Child → Child
  | .text t =>
    if records && t.isSignificant then
      .container (s.record t.trimmedSpan (.text t.cooked) false isLast) t.span
    else .text t
  | .container value span =>
    if records then .container (s.record span (expr s value) true isLast) span
    else .container (expr s value) span
  | .emptyContainer span => .emptyContainer span
  | .element e => .element (element s e)

def statement (s : Site) : Statement → Statement
  | .imports decl => .imports decl
  | .const exported name value => .const exported name (expr s value)
  | .returns value => .returns (expr s value)
  | .returnsNothing => .returnsNothing
  | .expr value => .expr (expr s value)

def statements (s : Site) : List Statement → List Statement
  | [] => []
  | x :: xs => statement s x :: statements s xs

end

end MarkupTrace.Annotate
