import MarkupTrace.Eval.Expression

/-!
# Loading modules

A module is loaded into a scope of its own, which belongs to an attribution stack. Other modules can
be imported under their specifier; what an import does not find is undefined. The exports are the
values of exported declarations.
-/

namespace MarkupTrace.Eval

open Source

/-- The exports of other modules by specifier. -/
abbrev Importable := List (String × Fields)

/-- What a binding gets from a module, if there is one. -/
def importedValue (found : Option Fields) : Imported → Run Value
  | .everything =>
    match found with
    | some exports => Run.object exports
    | none => return .undefined
  | .default => return (found.bind (Keyed.get? "default")).getD .undefined
  | .named name => return (found.bind (Keyed.get? name)).getD .undefined

def bindImports (scope : ScopeId) (found : Option Fields) : List Binding → Run Unit
  | [] => pure ()
  | b :: bs => do
    Run.declare scope b.name (← importedValue found b.imported)
    bindImports scope found bs

/-- Statements in order, with the exports so far. -/
def topLevel (ev : Evaluator) (modules : Importable) (scope : ScopeId) (exports : Fields) :
    List Statement → Run Fields
  | [] => return exports
  | .imports decl :: rest => do
    let found := (modules.find? fun m => m.1 == decl.specifier).map (·.2)
    bindImports scope found decl.bindings
    topLevel ev modules scope exports rest
  | .const exported name value :: rest => do
    let v ← named ev name scope value
    Run.declare scope name v
    topLevel ev modules scope (if exported then exports.insert name v else exports) rest
  | .expr value :: rest => do
    let _ ← ev scope value
    topLevel ev modules scope exports rest
  | .returns _ :: _ => Run.throw .returnOutsideFunction
  | .returnsNothing :: _ => Run.throw .returnOutsideFunction

/-- Loads a module onto a stack and gives its exports. -/
def load (depth : Nat) (modules : Importable) (stack : StackId) (m : Module) : Run Fields := do
  let scope ← Attempt.update (Store.newScope none stack)
  topLevel (eval depth) modules scope [] m.body

end MarkupTrace.Eval
