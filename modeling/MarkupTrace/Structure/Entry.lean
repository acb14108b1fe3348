import MarkupTrace.Render.Fiber
import MarkupTrace.Value.Written

/-!
# Structures

A structure is a forest of entries, one for each node that is found behind the fibers of a tree. An
entry names its contributors: everything in the source that had a part in the node. An entry without
a node stands for a component that rendered nothing.
-/

namespace MarkupTrace.Structure

open Render

/-- What a contributor is. Expressions and texts are not components themselves and count as pseudo
components. -/
inductive Component
  | tag (name : String)
  | function (name : String)
  /-- Roots, texts and fragments. -/
  | anonymous
  | expression
  | text
  deriving DecidableEq, Repr

namespace Component

def ofType : Option ElementType → Component
  | some (.host name) => tag name
  | some (.component f) => function f.displayName
  | none => anonymous

/-- A child that is recorded as an expression or as a text. -/
def pseudo (isExpression : Bool) : Component := if isExpression then expression else text

def isPseudo : Component → Bool
  | expression | text => true
  | _ => false

def name? : Component → Option String
  | tag name | function name => some name
  | anonymous => none
  | expression => some "expression-node"
  | text => some "text-node"

def display : Component → String
  | tag name => "<" ++ name ++ ">"
  | anonymous => "(anonymous)"
  | c => c.name?.getD ""

end Component

structure Contributor where
  component : Component
  location : Location
  props : Value

namespace Contributor

/-- Without a source the location is unknown. -/
def ofFiber (f : Fiber) : Contributor :=
  ⟨.ofType f.type, (f.source.map (·.place)).getD .unknown, f.props⟩

def pseudo (isExpression : Bool) (location : Location) (value : Value) : Contributor :=
  ⟨.pseudo isExpression, location, .plain [("value", value)]⟩

/-- How a recorded child contributes. -/
def ofRecorded (x : Recorded) : Contributor := pseudo x.isExpression x.location x.value

end Contributor

inductive Entry where
  | mk (node : Option NodeId) (contributors : List Contributor) (children : List Entry)

namespace Entry

def node : Entry → Option NodeId
  | mk node _ _ => node

def contributors : Entry → List Contributor
  | mk _ contributors _ => contributors

def children : Entry → List Entry
  | mk _ _ children => children

/-- Of a node that has no fiber. -/
def leaf (node : NodeId) (contributors : List Contributor) : Entry := mk (some node) contributors []

/-- Of something that rendered nothing. -/
def placeholder : Entry := mk none [] []

/-- Nothing at all is known of the entry. -/
def isPlaceholder : Entry → Bool
  | mk none [] [] => true
  | _ => false

/-- Puts further contributors behind those of an entry. -/
def extend (added : List Contributor) : Entry → Entry
  | mk node contributors children => mk node (contributors ++ added) children

end Entry

def Contributor.toData (s : Store) (c : Contributor) : Data :=
  .record [("component", (c.component.name?.map Data.text).getD .null),
    ("location", c.location.toData), ("props", c.props.toData s)]

mutual

/-- An entry as data; without a node there is no member for it. -/
def Entry.toData (s : Store) : Entry → Data
  | .mk node contributors children =>
    .record ((match node with
      | some id => [("node", .int id.index)]
      | none => []) ++
      [("components", .list (contributors.map (Contributor.toData s))),
        ("children", .list (entriesToData s children))])

def entriesToData (s : Store) : List Entry → List Data
  | [] => []
  | e :: es => e.toData s :: entriesToData s es

end

end MarkupTrace.Structure
