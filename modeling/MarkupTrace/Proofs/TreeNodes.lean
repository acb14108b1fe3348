import MarkupTrace.Source.Printer
import MarkupTrace.Source.Token
import Mathlib.Data.List.Chain

/-!
# The nodes of a module tree

The nodes of a tree, at any depth, are collected. Two things are said of them: what must hold for a
printed module to read as the same module again, and what holds anyway of every node that was read
from a text.
-/

namespace MarkupTrace.Source

/-- A part of a module tree, of any sort. -/
inductive Node
  | expr (e : Expr)
  | body (b : Body)
  | property (p : Property)
  | element (e : Element)
  | attribute (a : Attribute)
  | content (c : Content)
  | child (c : Child)
  | statement (s : Statement)

mutual

def Expr.nodes : Expr → List Node
  | .text v => [.expr (.text v)]
  | .number n => [.expr (.number n)]
  | .bool b => [.expr (.bool b)]
  | .null => [.expr .null]
  | .this => [.expr .this]
  | .name n => [.expr (.name n)]
  | .member object property => .expr (.member object property) :: object.nodes
  | .call callee arguments =>
    .expr (.call callee arguments) :: (callee.nodes ++ nodesOfItems arguments)
  | .arrow ps b => .expr (.arrow ps b) :: b.nodes
  | .object ps => .expr (.object ps) :: nodesOfProperties ps
  | .array items => .expr (.array items) :: nodesOfItems items
  | .paren inner => .expr (.paren inner) :: inner.nodes
  | .markup e => .expr (.markup e) :: e.nodes
  | .location l => [.expr (.location l)]
  | .helper h => [.expr (.helper h)]

def nodesOfItems : List Expr → List Node
  | [] => []
  | e :: es => e.nodes ++ nodesOfItems es

def Body.nodes : Body → List Node
  | .result value => .body (.result value) :: value.nodes
  | .block statements => .body (.block statements) :: nodesOfStatements statements

def Property.nodes : Property → List Node
  | .entry key value => .property (.entry key value) :: value.nodes
  | .shorthand name => [.property (.shorthand name)]
  | .spread value => .property (.spread value) :: value.nodes

def nodesOfProperties : List Property → List Node
  | [] => []
  | p :: ps => p.nodes ++ nodesOfProperties ps

def Element.nodes : Element → List Node
  | .mk name attributes content span =>
    .element (.mk name attributes content span) :: (nodesOfAttributes attributes ++ content.nodes)

def Attribute.nodes : Attribute → List Node
  | .bare name => [.attribute (.bare name)]
  | .text name raw => [.attribute (.text name raw)]
  | .value name value => .attribute (.value name value) :: value.nodes
  | .spread value => .attribute (.spread value) :: value.nodes

def nodesOfAttributes : List Attribute → List Node
  | [] => []
  | a :: as => a.nodes ++ nodesOfAttributes as

def Content.nodes : Content → List Node
  | .selfClosing => [.content .selfClosing]
  | .children children => .content (.children children) :: nodesOfChildren children

def Child.nodes : Child → List Node
  | .text t => [.child (.text t)]
  | .container value span => .child (.container value span) :: value.nodes
  | .emptyContainer span => [.child (.emptyContainer span)]
  | .element e => .child (.element e) :: e.nodes

def nodesOfChildren : List Child → List Node
  | [] => []
  | c :: cs => c.nodes ++ nodesOfChildren cs

def Statement.nodes : Statement → List Node
  | .imports decl => [.statement (.imports decl)]
  | .const exported name value => .statement (.const exported name value) :: value.nodes
  | .returns value => .statement (.returns value) :: value.nodes
  | .returnsNothing => [.statement .returnsNothing]
  | .expr value => .statement (.expr value) :: value.nodes

def nodesOfStatements : List Statement → List Node
  | [] => []
  | s :: ss => s.nodes ++ nodesOfStatements ss

end

def Module.nodes (m : Module) : List Node := nodesOfStatements m.body

theorem nodesOfItems_eq (es : List Expr) : nodesOfItems es = es.flatMap Expr.nodes := by
  induction es with
  | nil => rw [nodesOfItems, List.flatMap_nil]
  | cons e es ih => rw [nodesOfItems, List.flatMap_cons, ih]

theorem nodesOfProperties_eq (ps : List Property) :
    nodesOfProperties ps = ps.flatMap Property.nodes := by
  induction ps with
  | nil => rw [nodesOfProperties, List.flatMap_nil]
  | cons p ps ih => rw [nodesOfProperties, List.flatMap_cons, ih]

theorem nodesOfAttributes_eq (as : List Attribute) :
    nodesOfAttributes as = as.flatMap Attribute.nodes := by
  induction as with
  | nil => rw [nodesOfAttributes, List.flatMap_nil]
  | cons a as ih => rw [nodesOfAttributes, List.flatMap_cons, ih]

theorem nodesOfChildren_eq (cs : List Child) : nodesOfChildren cs = cs.flatMap Child.nodes := by
  induction cs with
  | nil => rw [nodesOfChildren, List.flatMap_nil]
  | cons c cs ih => rw [nodesOfChildren, List.flatMap_cons, ih]

theorem nodesOfStatements_eq (ss : List Statement) :
    nodesOfStatements ss = ss.flatMap Statement.nodes := by
  induction ss with
  | nil => rw [nodesOfStatements, List.flatMap_nil]
  | cons s ss ih => rw [nodesOfStatements, List.flatMap_cons, ih]

/-! ## Names -/

def IsIdentifier (s : String) : Prop :=
  ∃ c cs, s.toList = c :: cs ∧ isIdentifierStart c = true ∧ ∀ x ∈ cs, isIdentifierPart x = true

/-- An identifier that may be bound. -/
def IsName (s : String) : Prop := IsIdentifier s ∧ isReserved s = false

/-- What can stand behind the name of an element or attribute. -/
def EndsName (cs : List Char) : Prop := ∃ c rest, cs = c :: rest ∧ c ∈ [' ', '>', '=']

/-- Further parts of the name of an element or attribute, each behind a point or a hyphen. Each part
is one token, whatever stands behind the name. -/
inductive Segments : List Char → Prop
  | nil : Segments []
  | cons {j c : Char} {text rest : List Char} {k : Kind} (hj : j = '.' ∨ j = '-')
      (hc : isIdentifierPart c = true) (hk : k = .identifier ∨ k = .number)
      (h : ∀ behind, EndsName behind → lexeme c (text ++ (rest ++ behind)) = (k, text.length))
      (hrest : Segments rest) : Segments (j :: c :: (text ++ rest))

def IsMarkupName (s : String) : Prop :=
  ∃ c text rest, s.toList = c :: (text ++ rest) ∧ isIdentifierStart c = true ∧
    (∀ x ∈ text, isIdentifierPart x = true) ∧ Segments rest

/-! ## Forms of expressions -/

/-- What an expression begins with: the atom at the start of its members and calls. -/
def Expr.head : Expr → Expr
  | .member inner _ => inner.head
  | .call callee _ => callee.head
  | e => e

/-- An arrow function whose body is an expression, so that what stands behind it belongs to the
body. -/
def Expr.isOpen : Expr → Bool
  | .arrow _ (.result _) => true
  | _ => false

def Child.isText : Child → Bool
  | .text _ => true
  | _ => false

def Statement.isReturn : Statement → Bool
  | .returns _ | .returnsNothing => true
  | _ => false

/-- There are no controls besides tabs, line feeds and carriage returns. -/
def Quotable (s : String) : Prop :=
  ∀ c ∈ s.toList, c.toNat < 0x20 → c = '\t' ∨ c = '\n' ∨ c = '\r'

/-! ## Printable modules -/

/-- What must hold of a node for its print to read as the same again. Other controls are printed with
codes that are read as letters, keys are printed without quotes, infinities as words, and an arrow
function before a brace with a single name reads it as a block. -/
def Node.Printable : Node → Prop
  | .expr (.text s) => Quotable s
  | .expr (.number n) => ∃ negative rank, n = .finite negative rank
  | .property (.entry key _) => IsIdentifier key
  | .body (.result value) => ∀ n, value.head = .object [.shorthand n] → value.isObject = true
  | .statement (.imports decl) => Quotable decl.specifier
  | _ => True

def Module.Printable (m : Module) : Prop := ∀ x ∈ m.nodes, x.Printable

instance (s : String) : Decidable (IsIdentifier s) :=
  match h : s.toList with
  | [] => isFalse fun ⟨_, _, hs, _⟩ => nomatch h.symm.trans hs
  | c :: cs =>
    decidable_of_iff (isIdentifierStart c = true ∧ cs.all isIdentifierPart = true)
      ⟨fun ⟨hc, hcs⟩ => ⟨c, cs, h, hc, List.all_eq_true.mp hcs⟩, fun ⟨_, _, hs, hc, hcs⟩ => by
        cases h.symm.trans hs
        exact ⟨hc, List.all_eq_true.mpr hcs⟩⟩

instance (s : String) : Decidable (Quotable s) := List.decidableBAll _ s.toList

/-- The name of an object that has nothing but this name. -/
def Expr.soleShorthand : Expr → Option String
  | .object [.shorthand n] => some n
  | _ => none

theorem Expr.soleShorthand_eq_some {e : Expr} {n : String} :
    e.soleShorthand = some n ↔ e = .object [.shorthand n] := by
  constructor
  · intro h
    unfold soleShorthand at h
    split at h
    · cases h
      rfl
    · cases h
  · rintro rfl
    rfl

instance : DecidablePred Node.Printable
  | .expr (.text s) => inferInstanceAs (Decidable (Quotable s))
  | .expr (.number (.finite negative rank)) => isTrue ⟨negative, rank, rfl⟩
  | .expr (.number .nan) | .expr (.number (.infinite _)) => isFalse nofun
  | .property (.entry key _) => inferInstanceAs (Decidable (IsIdentifier key))
  | .body (.result value) =>
    decidable_of_iff (∀ n ∈ value.head.soleShorthand, value.isObject = true)
      (forall_congr' fun _ => imp_congr_left Expr.soleShorthand_eq_some)
  | .statement (.imports decl) => inferInstanceAs (Decidable (Quotable decl.specifier))
  | .expr (.bool _) | .expr .null | .expr .this | .expr (.name _) | .expr (.member ..)
  | .expr (.call ..) | .expr (.arrow ..) | .expr (.object _) | .expr (.array _) | .expr (.paren _)
  | .expr (.markup _) | .expr (.location _) | .expr (.helper _) | .body (.block _)
  | .property (.shorthand _) | .property (.spread _) | .element _ | .attribute _ | .content _
  | .child _ | .statement (.const ..) | .statement (.returns _) | .statement .returnsNothing
  | .statement (.expr _) => isTrue trivial

instance (m : Module) : Decidable m.Printable := List.decidableBAll _ m.nodes

/-! ## What is read -/

def Param.Readable : Param → Prop
  | .name n => IsName n
  | .properties ns => ∀ n ∈ ns, IsName n

/-- A default binding, if any, and then named ones or the whole module. -/
def Import.Readable (decl : Import) : Prop :=
  ∃ first rest, decl.bindings = first ++ rest ∧
    (first = [] ∨ ∃ n, first = [⟨.default, n⟩] ∧ IsName n) ∧
    ((∀ b ∈ rest, ∃ n, b.imported = .named n ∧ IsIdentifier n ∧ (b.name = n ∨ IsName b.name)) ∨
      ∃ n, rest = [⟨.everything, n⟩] ∧ IsName n)

def Attribute.Readable : Attribute → Prop
  | .bare name | .value name _ => IsMarkupName name
  | .text name raw => IsMarkupName name ∧ ('"' ∉ raw.toList ∨ '\'' ∉ raw.toList)
  | .spread _ => True

/-- What holds of a node that was read from a text. -/
def Node.Readable : Node → Prop
  | .expr (.number n) => ∀ rank, n ≠ .finite true rank
  | .expr (.name n) => IsName n
  | .expr (.member inner p) => IsIdentifier p ∧ inner.isOpen = false
  | .expr (.arrow ps _) => ∀ p ∈ ps, p.Readable
  | .expr (.location _) | .expr (.helper _) => False
  | .body (.result value) => value.head ≠ .object []
  | .body (.block statements) => ∀ s ∈ statements, s.isImport = false
  | .property (.shorthand n) => IsName n
  | .element e => IsMarkupName e.name
  | .attribute a => a.Readable
  | .content (.children children) =>
    children.IsChain fun c d => c.isText = true → d.isText = false
  | .child (.text t) => t.raw ≠ "" ∧ ∀ c ∈ t.raw.toList, c ∉ ['<', '\x7b', '\x7d']
  | .statement (.imports decl) => decl.Readable
  | .statement (.const _ n _) => IsName n
  | _ => True

/-- A module that was read has no return statements of its own. -/
structure Module.Readable (m : Module) : Prop where
  statements : ∀ s ∈ m.body, s.isReturn = false
  nodes : ∀ x ∈ m.nodes, x.Readable

end MarkupTrace.Source
