import MarkupTrace.Render.Document
import MarkupTrace.Value.Store

/-!
# Fibers

A fiber tree tells how a document came about: one fiber for every rendered element, call of a
component and text among other children, linked to its parent, its first child and its next sibling.
A fiber is visual if a node of the document is behind it; the others are virtual.
-/

namespace MarkupTrace.Render

/-- Refers to a fiber of a tree. -/
structure FiberId where
  index : Nat
  deriving DecidableEq, Repr

inductive FiberKind
  | root
  | element
  | text
  | component
  | fragment
  deriving DecidableEq, Repr

structure Fiber where
  kind : FiberKind
  /-- What was rendered; roots, texts and fragments have no type. -/
  type : Option ElementType
  /-- The node behind a visual fiber. -/
  node : Option NodeId
  /-- The props of an element or component; the rendered value of the others. -/
  props : Value
  /-- The record of the place an element was written at. -/
  source : Option RecordRef
  parent : Option FiberId
  child : Option FiberId
  sibling : Option FiberId

namespace Fiber

/-- A fiber without a type and a source, not linked. -/
def new (kind : FiberKind) (node : Option NodeId) (props : Value) : Fiber :=
  ⟨kind, none, node, props, none, none, none, none⟩

def isVisual (f : Fiber) : Bool := f.node.isSome

end Fiber

/-- The record that an element's `__source` stands for: a record is shared, and any other value that
describes a location gets a record of its own. -/
def sourceRecord (source : Option Value) (s : Store) : Option RecordRef × Store :=
  match source with
  | some (.location r) => (some r, s)
  | some v =>
    match v.location? with
    | some place =>
      let (r, s) := s.newRecord place
      (some r, s)
    | none => (none, s)
  | none => (none, s)

/-- Fibers under their numbers; the root is the first. -/
structure FiberTree where
  fibers : Array Fiber

namespace FiberTree

def empty : FiberTree := ⟨#[]⟩

def rootId : FiberId := ⟨0⟩

def get? (id : FiberId) (t : FiberTree) : Option Fiber := t.fibers[id.index]?

def size (t : FiberTree) : Nat := t.fibers.size

def root? (t : FiberTree) : Option FiberId := if t.fibers.isEmpty then none else some rootId

def add (f : Fiber) (t : FiberTree) : FiberId × FiberTree :=
  (⟨t.fibers.size⟩, ⟨t.fibers.push f⟩)

def modify (id : FiberId) (f : Fiber → Fiber) (t : FiberTree) : FiberTree :=
  ⟨t.fibers.modify id.index f⟩

@[simp] theorem size_add (f : Fiber) (t : FiberTree) : (t.add f).2.size = t.size + 1 := by
  simp [add, size]

theorem get?_add_self (f : Fiber) (t : FiberTree) : (t.add f).2.get? (t.add f).1 = some f := by
  simp [add, get?]

/-- Adding leaves the fibers that are there as they are. -/
theorem get?_add_of_lt {id : FiberId} {t : FiberTree} (h : id.index < t.size) (f : Fiber) :
    (t.add f).2.get? id = t.get? id := by
  have h : id.index ≠ t.fibers.size := Nat.ne_of_lt h
  simp [add, get?, Array.getElem?_push, h]

@[simp] theorem size_modify (id : FiberId) (f : Fiber → Fiber) (t : FiberTree) :
    (t.modify id f).size = t.size := by
  simp [modify, size]

theorem get?_modify (id other : FiberId) (f : Fiber → Fiber) (t : FiberTree) :
    (t.modify id f).get? other = if id = other then (t.get? other).map f else t.get? other := by
  obtain ⟨i⟩ := id
  obtain ⟨j⟩ := other
  by_cases h : i = j <;> simp [modify, get?, Array.getElem?_modify, h]

/-- Links each of the siblings to its parent and to the one behind it. -/
def linkSiblings (parent : FiberId) : List FiberId → FiberTree → FiberTree
  | [], t => t
  | id :: ids, t =>
    linkSiblings parent ids
      (t.modify id fun f => { f with parent := some parent, sibling := ids.head? })

/-- Makes fibers the children of another, in order. -/
def link (parent : FiberId) (children : List FiberId) (t : FiberTree) : FiberTree :=
  (t.linkSiblings parent children).modify parent fun f => { f with child := children.head? }

/-- The fiber and those behind it, at most `count`. -/
def chainTo (t : FiberTree) : (count : Nat) → Option FiberId → List FiberId
  | 0, _ => []
  | _, none => []
  | count + 1, some id => id :: chainTo t count ((t.get? id).bind (·.sibling))

/-- A fiber and its following siblings. A chain holds no more fibers than the tree. -/
def chain (first : FiberId) (t : FiberTree) : List FiberId := t.chainTo (t.size + 1) (some first)

def children (parent : FiberId) (t : FiberTree) : List FiberId :=
  t.chainTo t.size ((t.get? parent).bind (·.child))

end FiberTree

end MarkupTrace.Render
