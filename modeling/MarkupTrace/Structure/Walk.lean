import MarkupTrace.Structure.Reconcile

/-!
# Walking fibers

A visual fiber gives one entry: itself as the first contributor, below it the entries of its
children, and these get the groups that its `children` prop and its recorded children give, by
position. Where there are more groups than entries, the nodes of the document at these positions get
one.

A virtual fiber adds what was recorded for it to the map of everything below it, and itself to the
first entry that its children give. So components come together at the nearest visual node, the
innermost first. Siblings all see the map of their parent.
-/

namespace MarkupTrace.Structure

open Render

/-- Gives groups to entries by position, and to nodes where there are no more entries. -/
def attach : List Entry → List NodeId → List (List Contributor) → List Entry
  | entries, _, [] => entries
  | e :: entries, nodes, g :: groups => e.extend g :: attach entries nodes.tail groups
  | [], n :: nodes, g :: groups => .leaf n g :: attach [] nodes groups
  | [], [], _ :: _ => []

/-- Adds a contributor to the first entry, or to a placeholder if there is none. -/
def contribute (c : Contributor) : List Entry → List Entry
  | [] => [Entry.placeholder.extend [c]]
  | e :: entries => e.extend [c] :: entries

section

variable (store : Store) (document : Document) (tree : FiberTree)

/-- What was recorded for a fiber. -/
def recordedFor (f : Fiber) : List Recorded := (f.source.map store.recorded).getD []

/-- The `children` prop of a fiber. -/
def childrenProp (f : Fiber) : Value := (f.props.get? "children").getD .undefined

/-- The entry of a visual fiber, given those of its children. -/
def visualEntry (f : Fiber) (node : NodeId) (children : List Entry) (map : ExpressionMap) : Entry :=
  let groups := reconcile (childrenProp f) (recordedFor store f) map
  .mk (some node) [.ofFiber f] (attach children (document.children node) groups)

/-- The entries of one fiber, its siblings aside, going down at most `depth` fibers. -/
def walkTo : (depth : Nat) → FiberId → ExpressionMap → List Entry
  | 0, _, _ => []
  | depth + 1, id, map =>
    match tree.get? id with
    | none => []
    | some f =>
      let below := fun map => (tree.children id).flatMap fun child => walkTo depth child map
      match f.node with
      | some node => [visualEntry store document f node (below map) map]
      | none =>
        if f.child.isNone then [.placeholder]
        else contribute (.ofFiber f) (below (map.insertAll (recordedFor store f)))

/-- The entries of one fiber. No way down is longer than there are fibers. -/
def walk (id : FiberId) (map : ExpressionMap) : List Entry :=
  walkTo store document tree tree.size id map

/-- The entries of a fiber and its following siblings. -/
def walkChain (first : FiberId) (map : ExpressionMap) : List Entry :=
  (tree.chain first).flatMap fun id => walk store document tree id map

/-- The structure of a whole tree; there is none if the root has no child. -/
def ofTree? : Option (List Entry) := do
  let root ← tree.root?
  let _ ← (← tree.get? root).child
  return walk store document tree root .empty

end

end MarkupTrace.Structure
