import MarkupTrace.Eval.Module
import MarkupTrace.Render.Mount
import MarkupTrace.Structure.Walk

/-!
# Sessions

A session has renderers, each with a document, roots that they render into, and bridges that watch
them. Renderers are numbered from one; a bridge watches the one that was added last. It learns of
renderers and of commits through a queue of events. Once it has handled the event of a renderer, it
and no other bridge is told of that renderer's commits.

Modules of a session are loaded onto one attribution stack.
-/

namespace MarkupTrace.Live

open Render

/-- Refers to a renderer by its number. -/
structure RendererId where
  number : Nat
  deriving DecidableEq, Repr

structure RootId where
  index : Nat
  deriving DecidableEq, Repr

structure BridgeId where
  index : Nat
  deriving DecidableEq, Repr

/-- What is called when something changed. A listener is known by its name. -/
structure Listener where
  name : String
  fails : Bool
  deriving DecidableEq, Repr

inductive Event
  | registered (renderer : RendererId)
  | committed
  deriving DecidableEq, Repr

structure Bridge where
  isOpen : Bool
  /-- The renderer it watches. -/
  active : Option RendererId
  listeners : List Listener
  queue : List Event
  /-- The event that is being handled. -/
  taken : Option Event
  deriving DecidableEq, Repr

structure Renderer where
  document : Document
  /-- The bridge that is told of commits. -/
  watcher : Option BridgeId
  deriving DecidableEq, Repr

structure Root where
  owner : RendererId
  container : NodeId
  /-- The tree that was committed last. -/
  tree : Option FiberTree

/-- One call of a listener. -/
structure Call where
  bridge : BridgeId
  listener : Listener
  deriving DecidableEq, Repr

structure Session where
  store : Store
  stack : StackId
  renderers : List Renderer
  roots : List Root
  /-- Which roots a renderer committed, in the order of the first times. -/
  commits : List (RendererId × RootId)
  bridges : List Bridge
  /-- All calls of listeners so far. -/
  calls : List Call

/-- A listener failed, so that no further ones were called. -/
structure ListenerFailure where
  listener : Listener
  deriving DecidableEq, Repr

namespace Session

/-- A session with nothing in it yet. -/
def ofStore (s : Store) : Session :=
  let (stack, store) := s.newStack
  ⟨store, stack, [], [], [], [], []⟩

def depth (s : Session) : Nat := s.store.depth s.stack

/-! ## Renderers and roots -/

def renderer? (id : RendererId) (s : Session) : Option Renderer :=
  if id.number = 0 then none else s.renderers[id.number - 1]?

def modifyRenderer (id : RendererId) (f : Renderer → Renderer) (s : Session) : Session :=
  if id.number = 0 then s else { s with renderers := s.renderers.modify (id.number - 1) f }

def document (id : RendererId) (s : Session) : Document :=
  ((s.renderer? id).map (·.document)).getD .empty

def root? (id : RootId) (s : Session) : Option Root := s.roots[id.index]?

/-- The roots that a renderer committed. -/
def rootsOf (id : RendererId) (s : Session) : List RootId :=
  (s.commits.filter fun c => c.1 = id).map (·.2)

/-- Adds a root with a new container. -/
def createRoot (id : RendererId) (s : Session) : RootId × Session :=
  let (container, document) := (s.document id).createContainer
  let s := s.modifyRenderer id fun r => { r with document }
  (⟨s.roots.length⟩, { s with roots := s.roots ++ [⟨id, container, none⟩] })

/-- The markup of a root in the document of its renderer. -/
def html (id : RootId) (s : Session) : String :=
  ((s.root? id).map fun r => (s.document r.owner).html r.container).getD ""

/-! ## Bridges -/

def bridge? (id : BridgeId) (s : Session) : Option Bridge := s.bridges[id.index]?

def modifyBridge (id : BridgeId) (f : Bridge → Bridge) (s : Session) : Session :=
  { s with bridges := s.bridges.modify id.index f }

end Session

namespace Bridge

/-- A closed bridge gets no more events. -/
def notify (e : Event) (b : Bridge) : Bridge :=
  if b.isOpen then { b with queue := b.queue ++ [e] } else b

def register (id : RendererId) (b : Bridge) : Bridge :=
  { b with active := some id }.notify (.registered id)

/-- A listener that is there already is not added again. -/
def subscribe (l : Listener) (b : Bridge) : Bridge :=
  if b.listeners.contains l then b else { b with listeners := b.listeners ++ [l] }

def unsubscribe (l : Listener) (b : Bridge) : Bridge :=
  { b with listeners := b.listeners.filter fun other => other != l }

/-- Takes the first event, unless one is being handled. -/
def take (b : Bridge) : Bridge :=
  match b.taken, b.queue with
  | none, e :: rest => { b with taken := some e, queue := rest }
  | _, _ => b

end Bridge

namespace Session

/-- Adds a renderer and lets all bridges know. -/
def addRenderer (s : Session) : RendererId × Session :=
  let id : RendererId := ⟨s.renderers.length + 1⟩
  (id, { s with
    renderers := s.renderers ++ [⟨.empty, none⟩]
    bridges := s.bridges.map (Bridge.register id) })

/-- Adds a bridge, which gets to know all renderers. -/
def attach (s : Session) : BridgeId × Session :=
  let known := (List.range s.renderers.length).map fun i => RendererId.mk (i + 1)
  let b := known.foldl (fun b id => b.register id) ⟨true, none, [], [], none⟩
  (⟨s.bridges.length⟩, { s with bridges := s.bridges ++ [b] })

/-- Makes a tree the current one of a root, and tells the bridge that watches. -/
def commit (id : RendererId) (root : RootId) (tree : FiberTree) (s : Session) : Session :=
  let s := { s with
    roots := s.roots.modify root.index fun r => { r with tree := some tree }
    commits := if s.commits.contains (id, root) then s.commits else s.commits ++ [(id, root)] }
  match (s.renderer? id).bind (·.watcher) with
  | some bridge => s.modifyBridge bridge (Bridge.notify .committed)
  | none => s

/-- Renders a value into the container of a root and commits the result. If that fails, the tree of
the root stays, though the container has lost what it held. -/
def render (depth : Nat) (id : RendererId) (root : RootId) (v : Value) :
    Attempt Session (Stop RenderError) Unit := fun s =>
  match s.root? root with
  | none => (.ok (), s)
  | some r =>
    let (result, store, document) := Render.renderInto depth r.container v s.store (s.document id)
    let s := { s.modifyRenderer id fun r => { r with document } with store }
    match result with
    | .ok tree => (.ok (), s.commit id root tree)
    | .error e => (.error e, s)

/-- A root of the renderer that a bridge watches: the one with that position, or else the one that
was the last to be committed for a first time. -/
def selected? (id : BridgeId) (position : Option Nat) (s : Session) : Option Root := do
  let roots := s.rootsOf (← (← s.bridge? id).active)
  s.root? (← match position with
    | some i => roots[i]?
    | none => roots.getLast?)

/-- The structure of the selected root. -/
def structure? (id : BridgeId) (position : Option Nat) (s : Session) :
    Option (List Structure.Entry) := do
  let r ← s.selected? id position
  Structure.ofTree? s.store (s.document r.owner) (← r.tree)

/-! ## Handling events -/

/-- Calls listeners up to the first that fails. -/
def callListeners (id : BridgeId) : List Listener → Attempt Session ListenerFailure Unit
  | [] => pure ()
  | l :: ls => do
    Attempt.modify fun s => { s with calls := s.calls ++ [⟨id, l⟩] }
    if l.fails then Attempt.fail ⟨l⟩ else callListeners id ls

/-- What an event changes before listeners are called. -/
def accept (id : BridgeId) (e : Event) (s : Session) : Session :=
  let s := s.modifyBridge id fun b => { b with taken := none }
  match e with
  | .registered renderer => s.modifyRenderer renderer fun r => { r with watcher := some id }
  | .committed => s

/-- Handles the event that was taken. -/
def finish (id : BridgeId) : Attempt Session ListenerFailure Unit := fun s =>
  match s.bridge? id with
  | none => (.ok (), s)
  | some b =>
    match b.taken with
    | none => (.ok (), s)
    | some e => callListeners id b.listeners (s.accept id e)

/-- Takes and handles so many events. -/
def handle (id : BridgeId) : Nat → Attempt Session ListenerFailure Unit
  | 0 => pure ()
  | n + 1 => do
    Attempt.modify fun s => s.modifyBridge id Bridge.take
    finish id
    handle id n

/-- Handles all events of a bridge and gives their number. -/
def drain (id : BridgeId) : Attempt Session ListenerFailure Nat := do
  let waiting ← Attempt.gets fun s => ((s.bridge? id).map fun b => b.queue.length).getD 0
  handle id waiting
  return waiting

/-- Closes a bridge, which then handles what it was told before. -/
def close (id : BridgeId) : Attempt Session ListenerFailure Unit := do
  Attempt.modify fun s => s.modifyBridge id fun b => { b with isOpen := false }
  let _ ← drain id

/-- Loads a module onto the stack of the session. -/
def load (depth : Nat) (modules : Eval.Importable) (m : Source.Module) :
    Attempt Session (Stop EvalError) Fields := fun s =>
  let (result, store) := Eval.load depth modules s.stack m s.store
  (result, { s with store })

end Session

end MarkupTrace.Live
