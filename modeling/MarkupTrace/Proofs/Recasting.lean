import MarkupTrace.Source.Tree

/-!
# Trees with other spans and raw texts

A tree can be recast: every span and every raw text, of a markup text or of an attribute, is replaced
by another one, and so are expressions in parentheses. Names, strings and location literals stay.
-/

namespace MarkupTrace.Source

open Text

/-- What is put for spans, raw texts and expressions in parentheses. -/
structure Recasting where
  span : Span → Span
  raw : String → String
  paren : Expr → Expr

def MarkupText.recast (c : Recasting) (t : MarkupText) : MarkupText := ⟨c.raw t.raw, c.span t.span⟩

def Import.recast (c : Recasting) (decl : Import) : Import := { decl with span := c.span decl.span }

mutual

def Expr.recast (c : Recasting) : Expr → Expr
  | .text v => .text v
  | .number n => .number n
  | .bool b => .bool b
  | .null => .null
  | .this => .this
  | .name n => .name n
  | .member object property => .member (object.recast c) property
  | .call callee arguments => .call (callee.recast c) (recastItems c arguments)
  | .arrow ps b => .arrow ps (b.recast c)
  | .object ps => .object (recastProperties c ps)
  | .array items => .array (recastItems c items)
  | .paren inner => c.paren (inner.recast c)
  | .markup e => .markup (e.recast c)
  | .location l => .location l
  | .helper h => .helper h

def recastItems (c : Recasting) : List Expr → List Expr
  | [] => []
  | e :: es => e.recast c :: recastItems c es

def Body.recast (c : Recasting) : Body → Body
  | .result value => .result (value.recast c)
  | .block statements => .block (recastStatements c statements)

def Property.recast (c : Recasting) : Property → Property
  | .entry key value => .entry key (value.recast c)
  | .shorthand name => .shorthand name
  | .spread value => .spread (value.recast c)

def recastProperties (c : Recasting) : List Property → List Property
  | [] => []
  | p :: ps => p.recast c :: recastProperties c ps

def Element.recast (c : Recasting) : Element → Element
  | .mk name attributes content span =>
    .mk name (recastAttributes c attributes) (content.recast c) (c.span span)

def Attribute.recast (c : Recasting) : Attribute → Attribute
  | .bare name => .bare name
  | .text name raw => .text name (c.raw raw)
  | .value name value => .value name (value.recast c)
  | .spread value => .spread (value.recast c)

def recastAttributes (c : Recasting) : List Attribute → List Attribute
  | [] => []
  | a :: as => a.recast c :: recastAttributes c as

def Content.recast (c : Recasting) : Content → Content
  | .selfClosing => .selfClosing
  | .children children => .children (recastChildren c children)

def Child.recast (c : Recasting) : Child → Child
  | .text t => .text (t.recast c)
  | .container value span => .container (value.recast c) (c.span span)
  | .emptyContainer span => .emptyContainer (c.span span)
  | .element e => .element (e.recast c)

def recastChildren (c : Recasting) : List Child → List Child
  | [] => []
  | x :: xs => x.recast c :: recastChildren c xs

def Statement.recast (c : Recasting) : Statement → Statement
  | .imports decl => .imports (decl.recast c)
  | .const exported name value => .const exported name (value.recast c)
  | .returns value => .returns (value.recast c)
  | .returnsNothing => .returnsNothing
  | .expr value => .expr (value.recast c)

def recastStatements (c : Recasting) : List Statement → List Statement
  | [] => []
  | s :: ss => s.recast c :: recastStatements c ss

end

def Module.recast (c : Recasting) (m : Module) : Module := ⟨recastStatements c m.body⟩

variable (c : Recasting)

theorem recastItems_eq (es : List Expr) : recastItems c es = es.map (Expr.recast c) := by
  induction es with
  | nil => rw [recastItems, List.map_nil]
  | cons e es ih => rw [recastItems, List.map_cons, ih]

theorem recastProperties_eq (ps : List Property) :
    recastProperties c ps = ps.map (Property.recast c) := by
  induction ps with
  | nil => rw [recastProperties, List.map_nil]
  | cons p ps ih => rw [recastProperties, List.map_cons, ih]

theorem recastAttributes_eq (as : List Attribute) :
    recastAttributes c as = as.map (Attribute.recast c) := by
  induction as with
  | nil => rw [recastAttributes, List.map_nil]
  | cons a as ih => rw [recastAttributes, List.map_cons, ih]

theorem recastChildren_eq (xs : List Child) : recastChildren c xs = xs.map (Child.recast c) := by
  induction xs with
  | nil => rw [recastChildren, List.map_nil]
  | cons x xs ih => rw [recastChildren, List.map_cons, ih]

theorem recastStatements_eq (ss : List Statement) :
    recastStatements c ss = ss.map (Statement.recast c) := by
  induction ss with
  | nil => rw [recastStatements, List.map_nil]
  | cons s ss ih => rw [recastStatements, List.map_cons, ih]

end MarkupTrace.Source
