import MarkupTrace.Eval.Expression
import MarkupTrace.Render.Fiber

/-!
# Mounting

Mounting a value puts the nodes it stands for behind the children of a node and makes their fibers.
What is absent, truth values and the empty text stand for nothing; texts and numbers for a text;
arrays for their items one after the other; host elements for an element with its children in it;
components for what they return. An array inside an array gets a fiber of its own, a fragment. A
single text or number inside a host element is put there without a fiber.

As with evaluation, `mountStep` mounts one value, given how the values inside it are mounted, and
`mount n` does so to a depth of `n`.
-/

namespace MarkupTrace.Render

inductive RenderError
  | eval (e : EvalError)
  | invalidChild (found : String)
  deriving DecidableEq, Repr

def RenderError.message : RenderError → String
  | eval e => e.message
  | invalidChild found => "objects are not valid as a child (found " ++ found ++ ")"

/-- What mounting changes. -/
structure Mounting where
  store : Store
  document : Document
  tree : FiberTree

abbrev Mount (α : Type) := Attempt Mounting (Stop RenderError) α

namespace Mount

variable {α : Type}

def ofDocument (f : Document → α × Document) : Mount α := fun ⟨store, document, tree⟩ =>
  let (a, document) := f document
  (.ok a, ⟨store, document, tree⟩)

def changeDocument (f : Document → Document) : Mount Unit := fun ⟨store, document, tree⟩ =>
  (.ok (), ⟨store, f document, tree⟩)

def addFiber (f : Fiber) : Mount FiberId := fun ⟨store, document, tree⟩ =>
  let (id, tree) := tree.add f
  (.ok id, ⟨store, document, tree⟩)

def link (parent : FiberId) (children : List FiberId) : Mount Unit :=
  fun ⟨store, document, tree⟩ => (.ok (), ⟨store, document, tree.link parent children⟩)

def source (v : Option Value) : Mount (Option RecordRef) := fun ⟨store, document, tree⟩ =>
  let (r, store) := sourceRecord v store
  (.ok r, ⟨store, document, tree⟩)

/-- Runs an evaluation while mounting. -/
def ofRun (x : Run α) : Mount α :=
  Attempt.within (fun m => m.store) (fun s m => { m with store := s }) (Stop.map RenderError.eval) x

/-- Puts a new text behind the children of a node. -/
def appendText (parent : NodeId) (content : String) : Mount NodeId := do
  let node ← ofDocument (Document.createText content)
  changeDocument (Document.appendChild parent node)
  return node

/-- Puts a new element behind the children of a node. -/
def appendElement (parent : NodeId) (tag : String) (attributes : Keyed String) : Mount NodeId := do
  let node ← ofDocument (Document.createElement tag)
  changeDocument fun d => attributes.foldl (fun d a => d.setAttribute node a.1 a.2) d
  changeDocument (Document.appendChild parent node)
  return node

end Mount

/-- The props that become attributes: all texts and numbers but the children. -/
def attributesOf (props : Fields) : Keyed String :=
  props.filterMap fun (name, value) =>
    if name = "children" then none else value.shown?.map fun shown => (name, shown)

/-- How values are mounted into a node. -/
abbrev Mounter := Value → NodeId → Mount (List FiberId)

section

variable (mounter : Mounter)

/-- A text with a fiber. -/
def mountText (v : Value) (content : String) (parent : NodeId) : Mount (List FiberId) := do
  let node ← Mount.appendText parent content
  return [← Mount.addFiber (.new .text (some node) v)]

def mountItem (item : Value) (parent : NodeId) : Mount (List FiberId) :=
  match item with
  | .array _ _ => do
    let fragment ← Mount.addFiber (.new .fragment none item)
    Mount.link fragment (← mounter item parent)
    return [fragment]
  | _ => mounter item parent

def mountItems (parent : NodeId) : List Value → Mount (List FiberId)
  | [] => return []
  | item :: items => do
    let fibers ← mountItem mounter item parent
    return fibers ++ (← mountItems parent items)

/-- The children of a host element. -/
def mountContent (fiber : FiberId) (node : NodeId) (content : Option Value) : Mount Unit :=
  match content with
  | none => pure ()
  | some v =>
    match v.shown? with
    | some shown => do
      if shown = "" then pure ()
      else do
        let _ ← Mount.appendText node shown
    | none => do Mount.link fiber (← mounter v node)

def mountHost (e : CreatedElement Value) (tag : String) (parent : NodeId) :
    Mount (List FiberId) := do
  let node ← Mount.appendElement parent tag (attributesOf e.props)
  let source ← Mount.source e.source
  let fiber ← Mount.addFiber
    { Fiber.new .element (some node) (Value.props e) with type := some e.type, source }
  mountContent mounter fiber node (Keyed.get? "children" e.props)
  return [fiber]

/-- Calls a component with its props and mounts what it returns. -/
def mountComponent (depth : Nat) (e : CreatedElement Value) (f : Function) (parent : NodeId) :
    Mount (List FiberId) := do
  let source ← Mount.source e.source
  let fiber ← Mount.addFiber
    { Fiber.new .component none (Value.props e) with type := some e.type, source }
  let rendered ← Mount.ofRun (Eval.call depth (.function f) [Value.props e])
  Mount.link fiber (← mounter rendered parent)
  return [fiber]

def mountStep (depth : Nat) : Mounter := fun v parent =>
  match v with
  | .undefined | .null | .bool _ => return []
  | .text s => if s = "" then return [] else mountText v s parent
  | .number n => mountText v (Source.printNumber n) parent
  | .array _ items => mountItems mounter parent items
  | .element e =>
    match e.type with
    | .host tag => mountHost mounter e tag parent
    | .component f => mountComponent mounter depth e f parent
  | other => Attempt.fail (.error (.invalidChild other.typeName))

end

/-- Mounts to a depth; calls of components are evaluated to another one. -/
def mount (depth : Nat) : Nat → Mounter
  | 0 => fun _ _ => Attempt.fail .exhausted
  | n + 1 => mountStep (mount depth n) depth

/-- Mounts a value as the children of a container, under a root fiber. -/
def mountRoot (depth : Nat) (container : NodeId) (v : Value) : Mount Unit := do
  let root ← Mount.addFiber (.new .root none (.plain [("children", v)]))
  Mount.link root (← mount depth depth v container)

/-- Replaces what a container holds by a value, and gives the fibers of it. The container is cleared
before anything is mounted. -/
def renderInto (depth : Nat) (container : NodeId) (v : Value) (s : Store) (d : Document) :
    Except (Stop RenderError) FiberTree × Store × Document :=
  let (result, m) := mountRoot depth container v ⟨s, d.clearChildren container, .empty⟩
  (result.map fun _ => m.tree, m.store, m.document)

end MarkupTrace.Render
