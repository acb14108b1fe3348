import MarkupTrace.Keyed
import MarkupTrace.Text.Escaped

/-!
# Documents

What rendering produces. A document holds containers, elements and texts, each under its number;
nodes are only ever added, and clearing a node detaches its children without taking them out. A node
is visual if it is an element or a text.
-/

namespace MarkupTrace.Render

/-- Refers to a node of a document. -/
structure NodeId where
  index : Nat
  deriving DecidableEq, Repr

inductive NodeKind
  | container
  | element
  | text
  deriving DecidableEq, Repr

structure Node where
  kind : NodeKind
  /-- The tag of an element or the content of a text. -/
  name : String
  attributes : Keyed String
  parent : Option NodeId
  children : List NodeId
  deriving DecidableEq, Repr

/-- The name that containers have. -/
def containerName : String := "#container"

namespace Node

def new (kind : NodeKind) (name : String) : Node := ⟨kind, name, [], none, []⟩

def isVisual (n : Node) : Bool := n.kind != .container

end Node

structure Document where
  nodes : Array Node
  deriving DecidableEq, Repr

namespace Document

def empty : Document := ⟨#[]⟩

def get? (id : NodeId) (d : Document) : Option Node := d.nodes[id.index]?

def size (d : Document) : Nat := d.nodes.size

/-- Adds a node that is not attached. -/
def add (n : Node) (d : Document) : NodeId × Document := (⟨d.nodes.size⟩, ⟨d.nodes.push n⟩)

@[simp] theorem size_add (n : Node) (d : Document) : (d.add n).2.size = d.size + 1 := by
  simp [add, size]

theorem get?_add_self (n : Node) (d : Document) : (d.add n).2.get? (d.add n).1 = some n := by
  simp [add, get?]

/-- Adding leaves the nodes that are there as they are. -/
theorem get?_add_of_lt {id : NodeId} {d : Document} (h : id.index < d.size) (n : Node) :
    (d.add n).2.get? id = d.get? id := by
  have h : id.index ≠ d.nodes.size := Nat.ne_of_lt h
  simp [add, get?, Array.getElem?_push, h]

def createContainer (d : Document) : NodeId × Document := d.add (.new .container containerName)

def createElement (tag : String) (d : Document) : NodeId × Document := d.add (.new .element tag)

def createText (content : String) (d : Document) : NodeId × Document := d.add (.new .text content)

def modify (id : NodeId) (f : Node → Node) (d : Document) : Document := ⟨d.nodes.modify id.index f⟩

@[simp] theorem size_modify (id : NodeId) (f : Node → Node) (d : Document) :
    (d.modify id f).size = d.size := by
  simp [modify, size]

theorem get?_modify (id other : NodeId) (f : Node → Node) (d : Document) :
    (d.modify id f).get? other = if id = other then (d.get? other).map f else d.get? other := by
  obtain ⟨i⟩ := id
  obtain ⟨j⟩ := other
  by_cases h : i = j <;> simp [modify, get?, Array.getElem?_modify, h]

def setAttribute (id : NodeId) (name value : String) (d : Document) : Document :=
  d.modify id fun n => { n with attributes := n.attributes.insert name value }

/-- Puts a node behind the children of another. It is not taken from where it was. -/
def appendChild (parent child : NodeId) (d : Document) : Document :=
  (d.modify child fun n => { n with parent := some parent }).modify parent fun n =>
    { n with children := n.children ++ [child] }

def children (id : NodeId) (d : Document) : List NodeId := ((d.get? id).map (·.children)).getD []

theorem children_of_get? {id : NodeId} {d : Document} {n : Node} (h : d.get? id = some n) :
    d.children id = n.children := by
  simp [children, h]

/-- Detaches the children of a node. -/
def clearChildren (id : NodeId) (d : Document) : Document :=
  (d.children id).foldl (fun d child => d.modify child fun n => { n with parent := none })
    (d.modify id fun n => { n with children := [] })

def isVisual (id : NodeId) (d : Document) : Bool := ((d.get? id).map Node.isVisual).getD false

/-- The texts below a node, going down at most `depth` nodes. -/
def textTo (d : Document) : (depth : Nat) → NodeId → String
  | 0, _ => ""
  | depth + 1, id =>
    match d.get? id with
    | none => ""
    | some n =>
      match n.kind with
      | .text => n.name
      | _ => String.join (n.children.map (textTo d depth))

/-- The texts at and below a node. No way down is longer than there are nodes. -/
def text (id : NodeId) (d : Document) : String := d.textTo d.size id

/-- Quotes in an attribute are written as an entity. -/
def escapeAttribute (value : String) : String :=
  String.join (value.toList.map fun c => if c = '"' then "&quot;" else c.toString)

def attributesHtml (attributes : Keyed String) : String :=
  String.join (attributes.map fun (name, value) =>
    " " ++ name ++ "=\"" ++ escapeAttribute value ++ "\"")

/-- The markup of a node, going down at most `depth` nodes. -/
def htmlTo (d : Document) : (depth : Nat) → NodeId → String
  | 0, _ => ""
  | depth + 1, id =>
    match d.get? id with
    | none => ""
    | some n =>
      let inner := String.join (n.children.map (htmlTo d depth))
      match n.kind with
      | .text => n.name
      | .container => inner
      | .element =>
        "<" ++ n.name ++ attributesHtml n.attributes ++ ">" ++ inner ++ "</" ++ n.name ++ ">"

/-- The markup of a node; that of a container is the markup of its children. Texts are written as
they are. -/
def html (id : NodeId) (d : Document) : String := d.htmlTo d.size id

/-- A short label of a node. -/
def describe (id : NodeId) (d : Document) : String :=
  match d.get? id with
  | none => s!"#missing({id.index})"
  | some n =>
    match n.kind with
    | .text => "#text " ++ Text.inspectText n.name
    | .element => "<" ++ n.name ++ ">"
    | .container => containerName

end Document

end MarkupTrace.Render
