import MarkupTrace.Annotate.Compile
import MarkupTrace.Live.Session

/-!
# Inspecting modules

Inspection compiles and loads a module, renders one of its exports into a fresh document and finds
the structure of what came out.
-/

namespace MarkupTrace

open Annotate Structure

inductive Failure
  | compile (e : CompileError)
  | eval (e : EvalError)
  | missingExport (name : String)
  | render (e : Render.RenderError)

def Failure.message : Failure → String
  | compile e => e.message
  | eval e => "evaluation failed: " ++ e.message
  | missingExport name => "module has no export named '" ++ name ++ "'"
  | render e => "render failed: " ++ e.message

/-- How deep evaluation and mounting may go unless something else is asked for. -/
def defaultDepth : Nat := 1000000

/-- What to render for an export: functions are components and get the props, if these are an
object; anything else stands for itself. -/
def elementFor (exported props : Value) : Run Value :=
  match exported with
  | .function f =>
    let fields := match props with
      | .object _ fields => fields
      | _ => []
    Run.element (.component f) fields none none
  | v => return v

namespace Live.Session

/-- Compiles a module, loads it, and renders one of its exports into a root. -/
def renderExport (depth : Nat) (renderer : RendererId) (root : RootId) (source fileName : String)
    (name : String) (props : Value) (o : Options) : Attempt Session (Stop Failure) Unit := do
  let compiled ← match compile source fileName o with
    | .ok compiled => pure compiled
    | .error e => Attempt.fail (.error (.compile e))
  let exports ← Attempt.within id (fun s _ => s) (Stop.map Failure.eval)
    (load depth [] compiled.module)
  let exported ← Attempt.ofOption (.error (.missingExport name)) (Keyed.get? name exports)
  let element ← Attempt.within (fun s => s.store) (fun store s => { s with store })
    (Stop.map Failure.eval) (elementFor exported props)
  Attempt.within id (fun s _ => s) (Stop.map Failure.render) (render depth renderer root element)

end Live.Session

/-- What was found out. -/
structure Inspection where
  entries : List Entry
  document : Render.Document
  container : Render.NodeId
  store : Store

def Inspection.html (i : Inspection) : String := i.document.html i.container

/-- A session with one bridge, one renderer and one root. -/
def Live.Session.single (s : Store) :
    Live.BridgeId × Live.RendererId × Live.RootId × Live.Session :=
  let (bridge, s) := (Live.Session.ofStore s).attach
  let (renderer, s) := s.addRenderer
  let (root, s) := s.createRoot renderer
  (bridge, renderer, root, s)

def inspect (depth : Nat) (source fileName name : String) (props : Data) (o : Options) :
    Except (Stop Failure) Inspection :=
  let (props, store) := Value.ofData props .empty
  let (bridge, renderer, root, s) := Live.Session.single store
  match s.renderExport depth renderer root source fileName name props o with
  | (.error e, _) => .error e
  | (.ok (), s) =>
    .ok {
      entries := (s.structure? bridge none).getD []
      document := s.document renderer
      container := ((s.root? root).map (·.container)).getD ⟨0⟩
      store := s.store }

end MarkupTrace
