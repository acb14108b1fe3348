import MarkupTrace.Proofs.FailedSteps

/-!
# Unfinished elements

An evaluation that fails may do so inside the children of an element, which then is never created.
The elements it was inside of are told along the evaluation, from the state before it: the innermost
one is the first. What succeeded before the failure is run, only to learn where it led.

Such an element may leave its record on a stack, namely if one of its children was still to be
recorded. Failures leave nothing else there.
-/

namespace MarkupTrace

open Source Annotate Eval Store

/-- The expression that is evaluated for a child, if there is one. -/
def Source.Child.evaluated? : Child → Option Expr
  | .text _ => none
  | .emptyContainer _ => none
  | .container e _ => some e
  | .element e => some (.markup e)

namespace Eval

/-- An element that was given up in one of its children: what its attributes gave as its source, and
the children that were left, beginning with the one that failed. -/
structure Unfinished where
  scope : ScopeId
  element : Element
  source : Option Value
  left : List Child

/-- The elements that an evaluation in a scope leaves unfinished if it fails. -/
abbrev Trace := ScopeId → Expr → Store → List Unfinished

/-- What one run leaves unfinished, or if it succeeds, what the next one does. -/
def behind {α : Type} (x : Run α) (first : Store → List Unfinished)
    (next : α → Store → List Unfinished) (s : Store) : List Unfinished :=
  match x s with
  | (.ok a, s₁) => next a s₁
  | (.error _, _) => first s

theorem behind_bind {α β : Type} (x : Run α) (f : α → Run β) (first : Store → List Unfinished)
    (second : α → Store → List Unfinished) (next : β → Store → List Unfinished) :
    behind (x >>= f) (behind x first second) next =
      behind x first fun a => behind (f a) (second a) next := by
  funext s
  unfold behind
  rw [Attempt.bind_apply]
  rcases x s with ⟨e | a, s₁⟩ <;> rfl

namespace Unfinished

section

variable (ev : Evaluator) (up : Trace)

def all (scope : ScopeId) : List Expr → Store → List Unfinished
  | [] => fun _ => []
  | e :: es => behind (ev scope e) (up scope e) fun _ => all scope es

def named (scope : ScopeId) : Expr → Store → List Unfinished
  | .arrow _ _ => fun _ => []
  | e => up scope e

def block (scope : ScopeId) : List Statement → Store → List Unfinished
  | [] => fun _ => []
  | .const _ name e :: rest =>
    behind (Eval.named ev name scope e) (named up scope e) fun v s =>
      block scope rest (s.declare scope name v)
  | .expr e :: rest => behind (ev scope e) (up scope e) fun _ => block scope rest
  | .returns e :: _ => up scope e
  | .returnsNothing :: _ => fun _ => []
  | .imports _ :: _ => fun _ => []

def bodyOf (scope : ScopeId) : Body → Store → List Unfinished
  | .result e => up scope e
  | .block ss => block ev up scope ss

/-- Parameters are bound in a new scope, in which nothing is created. -/
def callFunction (f : Function) (arguments : List Value) (s : Store) : List Unfinished :=
  behind (bindParams ⟨s.scopes.size⟩ f.params arguments) (fun _ => [])
    (fun _ => bodyOf ev up ⟨s.scopes.size⟩ f.body) (s.newScope (some f.scope) (s.stackOf f.scope)).2

def callWith (callee : Value) (arguments : List Value) : Store → List Unfinished :=
  match callee with
  | .function f => callFunction ev up f arguments
  | _ => fun _ => []

def objectFields (scope : ScopeId) (fields : Fields) : List Property → Store → List Unfinished
  | [] => fun _ => []
  | .entry key e :: rest =>
    behind (ev scope e) (up scope e) fun v => objectFields scope (fields.insert key v) rest
  | .shorthand name :: rest =>
    behind (nameValue scope name) (fun _ => []) fun v =>
      objectFields scope (fields.insert name v) rest
  | .spread e :: rest =>
    behind (ev scope e) (up scope e) fun v =>
      behind (Run.spread fields v) (fun _ => []) fun added => objectFields scope added rest

def attributes (scope : ScopeId) (g : Given) : List Attribute → Store → List Unfinished
  | [] => fun _ => []
  | .bare name :: rest => attributes scope (g.take name (.bool true)) rest
  | .text name raw :: rest => attributes scope (g.take name (.text raw)) rest
  | .value name e :: rest =>
    behind (ev scope e) (up scope e) fun v => attributes scope (g.take name v) rest
  | .spread e :: rest =>
    behind (ev scope e) (up scope e) fun v =>
      behind (Run.spread g.props v) (fun _ => []) fun props =>
        attributes scope { g with props } rest

/-- The element whose children these are is unfinished if one of them fails. -/
def childValues (scope : ScopeId) (e : Element) (source : Option Value) :
    List Child → Store → List Unfinished
  | [] => fun _ => []
  | c :: cs =>
    match c.evaluated? with
    | none => childValues scope e source cs
    | some x =>
      behind (ev scope x) (fun s => up scope x s ++ [⟨scope, e, source, c :: cs⟩]) fun _ =>
        childValues scope e source cs

def createElement (scope : ScopeId) (e : Element) : Store → List Unfinished :=
  behind (elementType scope e.name) (fun _ => []) fun _ =>
    behind (Eval.attributes ev scope ⟨[], none, none⟩ e.attributes)
      (attributes ev up scope ⟨[], none, none⟩ e.attributes) fun g =>
        childValues ev up scope e g.source e.content.toList

def step : Trace := fun scope e =>
  match e with
  | .member e _ => behind (ev scope e) (up scope e) fun _ _ => []
  | .call callee arguments =>
    behind (ev scope callee) (up scope callee) fun f =>
      behind (Eval.all ev scope arguments) (all ev up scope arguments) fun vs =>
        callWith ev up f vs
  | .object ps => objectFields ev up scope [] ps
  | .array es => all ev up scope es
  | .paren e => up scope e
  | .markup e => createElement ev up scope e
  | _ => fun _ => []

def topLevel (modules : Importable) (scope : ScopeId) : List Statement → Store → List Unfinished
  | [] => fun _ => []
  | .imports decl :: rest =>
    behind (bindImports scope ((modules.find? fun m => m.1 == decl.specifier).map (·.2))
      decl.bindings) (fun _ => []) fun _ => topLevel modules scope rest
  | .const _ name e :: rest =>
    behind (Eval.named ev name scope e) (named up scope e) fun v s =>
      topLevel modules scope rest (s.declare scope name v)
  | .expr e :: rest => behind (ev scope e) (up scope e) fun _ => topLevel modules scope rest
  | .returns _ :: _ => fun _ => []
  | .returnsNothing :: _ => fun _ => []

theorem attributes_append (scope : ScopeId) (g : Given) (as bs : List Attribute) :
    attributes ev up scope g (as ++ bs) =
      behind (Eval.attributes ev scope g as) (attributes ev up scope g as) fun g₁ =>
        attributes ev up scope g₁ bs := by
  induction as generalizing g with
  | nil => rfl
  | cons a as ih =>
    cases a with
    | bare name => exact ih _
    | text name raw => exact ih _
    | value name e =>
      rw [List.cons_append, attributes, attributes, Eval.attributes, behind_bind]
      congr 1
      funext v
      exact ih _
    | spread e =>
      rw [List.cons_append, attributes, attributes, Eval.attributes, behind_bind]
      congr 1
      funext v
      rw [behind_bind]
      congr 1
      funext props
      exact ih _

theorem topLevel_append (modules : Importable) (scope : ScopeId) (exports : Fields)
    (ss ts : List Statement) : topLevel ev up modules scope (ss ++ ts) =
      behind (Eval.topLevel ev modules scope exports ss) (topLevel ev up modules scope ss) fun _ =>
        topLevel ev up modules scope ts := by
  induction ss generalizing exports with
  | nil => rfl
  | cons st ss ih =>
    cases st with
    | imports decl =>
      rw [List.cons_append, topLevel, topLevel, Eval.topLevel, behind_bind]
      congr 1
      funext u
      exact ih _
    | const exported name e =>
      rw [List.cons_append, topLevel, topLevel, Eval.topLevel, behind_bind]
      congr 1
      funext v s
      rw [ih]
      rfl
    | expr e =>
      rw [List.cons_append, topLevel, topLevel, Eval.topLevel, behind_bind]
      congr 1
      funext v
      exact ih _
    | returns e => rfl
    | returnsNothing => rfl

end

/-- What evaluation to a depth leaves unfinished. -/
def eval : Nat → Trace
  | 0 => fun _ _ _ => []
  | n + 1 => step (Eval.eval n) (eval n)

/-- What loading a module leaves unfinished. -/
def load (depth : Nat) (modules : Importable) (stack : StackId) (m : Module) (s : Store) :
    List Unfinished :=
  topLevel (Eval.eval depth) (eval depth) modules ⟨s.scopes.size⟩ m.body (s.newScope none stack).2

/-- What a call leaves unfinished. -/
def call (depth : Nat) (callee : Value) (arguments : List Value) : Store → List Unfinished :=
  callWith (Eval.eval depth) (eval depth) callee arguments

end Unfinished

end Eval

end MarkupTrace
