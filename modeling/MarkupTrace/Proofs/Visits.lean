import MarkupTrace.Eval.Module
import MarkupTrace.Proofs.NameUses

/-!
# What an evaluation visits

The expressions that an evaluation comes to are told in order, each with the scope and the store it
is evaluated in, whether the evaluation ends well or not. Shorthand keys and the first segments of
tags are looked up without being expressions of their own; they are told as the names that they are.
Only the callees of helper calls are left out, since no author wrote them.
-/

namespace MarkupTrace.Eval

open Source

structure Visit where
  scope : ScopeId
  code : Expr
  store : Store

/-- What is visited from a store on. -/
abbrev Visits := Store → List Visit

def silent : Visits := fun _ => []

/-- What a run visits and then, if it succeeds, what the next one does. -/
def along {α : Type} (x : Run α) (first : Visits) (next : α → Visits) : Visits := fun s =>
  first s ++
    match x s with
    | (.ok a, s₁) => next a s₁
    | (.error _, _) => []

theorem along_bind {α β : Type} (x : Run α) (f : α → Run β) (first : Visits)
    (second : α → Visits) (next : β → Visits) :
    along (x >>= f) (along x first second) next =
      along x first fun a => along (f a) (second a) next := by
  funext s
  unfold along
  rw [Attempt.bind_apply]
  rcases x s with ⟨e | a, s₁⟩
  · simp
  · simp only [List.append_assoc]

namespace Visit

/-- A name is looked up. -/
def name (scope : ScopeId) (n : String) : Visits := fun s => [⟨scope, .name n, s⟩]

/-- The first segment of a tag is looked up, unless it is a host tag. -/
def tag (scope : ScopeId) (name : String) : Visits := fun s =>
  if isHostTag name then []
  else ((segments name).take 1).map fun first => ⟨scope, .name first, s⟩

section

variable (ev : Evaluator) (up : ScopeId → Expr → Visits)

def all (scope : ScopeId) : List Expr → Visits
  | [] => silent
  | e :: es => along (ev scope e) (up scope e) fun _ => all scope es

def named (scope : ScopeId) : Expr → Visits
  | .arrow _ _ => silent
  | e => up scope e

def block (scope : ScopeId) : List Statement → Visits
  | [] => silent
  | .const _ name e :: rest =>
    along (Eval.named ev name scope e) (named up scope e) fun v =>
      along (Run.declare scope name v) silent fun _ => block scope rest
  | .expr e :: rest => along (ev scope e) (up scope e) fun _ => block scope rest
  | .returns e :: _ => up scope e
  | .returnsNothing :: _ => silent
  | .imports _ :: _ => silent

def bodyOf (scope : ScopeId) : Body → Visits
  | .result e => up scope e
  | .block ss => block ev up scope ss

def callFunction (f : Function) (arguments : List Value) : Visits :=
  along (Attempt.gets (Store.stackOf f.scope)) silent fun stack =>
    along (Attempt.update (Store.newScope (some f.scope) stack)) silent fun scope =>
      along (bindParams scope f.params arguments) silent fun _ => bodyOf ev up scope f.body

def callWith (callee : Value) (arguments : List Value) : Visits :=
  match callee with
  | .function f => callFunction ev up f arguments
  | _ => silent

/-- The callee of a helper call is not visited. -/
def callee (scope : ScopeId) (e : Expr) (arguments : List Expr) : Visits :=
  if isHelperCall e arguments then silent else up scope e

def objectFields (scope : ScopeId) (fields : Fields) : List Property → Visits
  | [] => silent
  | .entry key e :: rest =>
    along (ev scope e) (up scope e) fun v => objectFields scope (fields.insert key v) rest
  | .shorthand n :: rest =>
    along (nameValue scope n) (name scope n) fun v => objectFields scope (fields.insert n v) rest
  | .spread e :: rest =>
    along (ev scope e) (up scope e) fun v =>
      along (Run.spread fields v) silent fun added => objectFields scope added rest

def attributes (scope : ScopeId) (g : Given) : List Attribute → Visits
  | [] => silent
  | .bare name :: rest => attributes scope (g.take name (.bool true)) rest
  | .text name raw :: rest => attributes scope (g.take name (.text raw)) rest
  | .value name e :: rest =>
    along (ev scope e) (up scope e) fun v => attributes scope (g.take name v) rest
  | .spread e :: rest =>
    along (ev scope e) (up scope e) fun v =>
      along (Run.spread g.props v) silent fun props => attributes scope { g with props } rest

def childValues (scope : ScopeId) : List Child → Visits
  | [] => silent
  | .text _ :: rest => childValues scope rest
  | .emptyContainer _ :: rest => childValues scope rest
  | .container e _ :: rest => along (ev scope e) (up scope e) fun _ => childValues scope rest
  | .element e :: rest =>
    along (ev scope (.markup e)) (up scope (.markup e)) fun _ => childValues scope rest

def createElement (scope : ScopeId) (e : Element) : Visits :=
  along (elementType scope e.name) (tag scope e.name) fun _ =>
    along (Eval.attributes ev scope ⟨[], none, none⟩ e.attributes)
      (attributes ev up scope ⟨[], none, none⟩ e.attributes) fun _ =>
        childValues ev up scope e.content.toList

/-- What is visited inside an expression. -/
def step (scope : ScopeId) : Expr → Visits
  | .member e _ => up scope e
  | .call e arguments =>
    along (ev scope e) (callee up scope e arguments) fun f =>
      along (Eval.all ev scope arguments) (all ev up scope arguments) fun vs =>
        callWith ev up f vs
  | .object ps => objectFields ev up scope [] ps
  | .array es => all ev up scope es
  | .paren e => up scope e
  | .markup e => createElement ev up scope e
  | _ => silent

def topLevel (modules : Importable) (scope : ScopeId) : List Statement → Visits
  | [] => silent
  | .imports decl :: rest =>
    along (bindImports scope ((modules.find? fun m => m.1 == decl.specifier).map (·.2))
      decl.bindings) silent fun _ => topLevel modules scope rest
  | .const _ name e :: rest =>
    along (Eval.named ev name scope e) (named up scope e) fun v =>
      along (Run.declare scope name v) silent fun _ => topLevel modules scope rest
  | .expr e :: rest => along (ev scope e) (up scope e) fun _ => topLevel modules scope rest
  | .returns _ :: _ => silent
  | .returnsNothing :: _ => silent

theorem topLevel_append (modules : Importable) (scope : ScopeId) (exports : Fields)
    (ss ts : List Statement) : topLevel ev up modules scope (ss ++ ts) =
      along (Eval.topLevel ev modules scope exports ss) (topLevel ev up modules scope ss) fun _ =>
        topLevel ev up modules scope ts := by
  induction ss generalizing exports with
  | nil => rfl
  | cons st ss ih =>
    cases st with
    | imports decl =>
      rw [List.cons_append, topLevel, topLevel, Eval.topLevel, along_bind]
      congr 1
      funext u
      exact ih _
    | const exported name e =>
      rw [List.cons_append, topLevel, topLevel, Eval.topLevel, along_bind]
      congr 1
      funext v
      rw [along_bind]
      congr 1
      funext u
      exact ih _
    | expr e =>
      rw [List.cons_append, topLevel, topLevel, Eval.topLevel, along_bind]
      congr 1
      funext v
      exact ih _
    | returns e => rfl
    | returnsNothing => rfl

end

/-- What evaluation to a depth visits, the expression itself first. -/
def eval : Nat → ScopeId → Expr → Visits
  | 0 => fun _ _ => silent
  | n + 1 => fun scope e s => ⟨scope, e, s⟩ :: step (Eval.eval n) (eval n) scope e s

/-- What a call visits. -/
def call (depth : Nat) (callee : Value) (arguments : List Value) : Visits :=
  callWith (Eval.eval depth) (eval depth) callee arguments

/-- What loading a module visits. -/
def load (depth : Nat) (modules : Importable) (stack : StackId) (m : Module) : Visits :=
  along (Attempt.update (Store.newScope none stack)) silent fun scope =>
    topLevel (Eval.eval depth) (eval depth) modules scope m.body

end Visit

end MarkupTrace.Eval
