import MarkupTrace.Annotate.Options
import MarkupTrace.Eval.Error
import MarkupTrace.Value.Written

/-!
# Evaluating expressions

Evaluation goes from left to right. An element evaluates its type first, then its attributes in
order, then its children; `__self` and `__source` are lifted out of the props onto the element.

`step` evaluates one expression, given how the expressions inside it and the bodies of called
functions are evaluated. `eval n` does so to a depth of `n`. A function may call itself without end,
so evaluation is allowed a depth and says when it was exhausted; a depth that was enough once stays
enough.
-/

namespace MarkupTrace

open Source

abbrev Run (α : Type) := Attempt Store (Stop EvalError) α

namespace Run

variable {α : Type}

def throw (e : EvalError) : Run α := Attempt.fail (.error e)

def exhausted : Run α := Attempt.fail .exhausted

def array (items : List Value) : Run Value := do
  return .array (← Attempt.update Store.identity) items

def object (fields : Fields) : Run Value := do
  return .object (← Attempt.update Store.identity) fields

/-- An arrow function as a value. -/
def closure (name : Option String) (params : List Param) (body : Body) (scope : ScopeId) :
    Run Value := do
  return .function ⟨← Attempt.update Store.identity, name, params, body, scope⟩

/-- A new element; its props get an identity of their own. -/
def element (type : ElementType) (props : Fields) (owner source : Option Value) : Run Value := do
  let propsIdentity ← Attempt.update Store.identity
  return .element ⟨← Attempt.update Store.identity, type, propsIdentity, props, owner, source⟩

/-- A new record for a place. -/
def record (place : Location) : Run Value := do
  return .location (← Attempt.update (Store.newRecord place))

def lookup (name : String) (scope : ScopeId) : Run Value := do
  match ← Attempt.gets (Store.lookup name scope) with
  | some v => return v
  | none => throw (.undefinedVariable name)

/-- Reads a property. -/
def property (name : String) (target : Value) : Run Value :=
  match target.get? name with
  | some v => return v
  | none => throw (.propertyOfNullish name target.typeName)

def declare (scope : ScopeId) (name : String) (value : Value) : Run Unit :=
  Attempt.modify (Store.declare scope name value)

/-- Takes over the fields of an object; nothing is taken from what is absent. -/
def spread (fields : Fields) (value : Value) : Run Fields :=
  match value with
  | .object _ added => return fields.extend added
  | .undefined | .null => return fields
  | other => throw (.spreadOf other.typeName)

end Run

namespace Eval

/-- How expressions are evaluated in a scope. -/
abbrev Evaluator := ScopeId → Expr → Run Value

/-- The location that a literal denotes; without a file name in scope the file is unknown. -/
def locationOf (l : LocationLiteral) (scope : ScopeId) (s : Store) : Location :=
  let fileName := ((s.lookup l.file scope).bind Value.text?).getD Location.unknownFile
  ⟨fileName, l.pos, l.stop, some l.line⟩

/-- The stack that a name is bound to. -/
def boundStack (name : String) (scope : ScopeId) : Run StackId := do
  match ← Attempt.gets (Store.lookup name scope) with
  | some (.stack id) => return id
  | some other => Run.throw (.notAStack name other.typeName)
  | none => Run.throw (.undefinedVariable name)

def helper (scope : ScopeId) : Helper → Run Value
  | .newStack => do return .stack (← Attempt.gets (Store.stackOf scope))
  | .recordParent stack => do return .builtin (.recordParent (← boundStack stack scope))
  | .recordExpression stack => do return .builtin (.recordExpression (← boundStack stack scope))

/-- What a builtin does with its arguments. -/
def callBuiltin (b : Builtin) (arguments : List Value) : Run Value :=
  match b with
  | .recordParent id =>
    match arguments.headD .undefined with
    | .location r => do
      Attempt.modify (Store.push id r)
      return .location r
    | other =>
      match other.location? with
      | some place => do
        let r ← Attempt.update (Store.newRecord place)
        Attempt.modify (Store.push id r)
        return .location r
      | none => return other
  | .recordExpression id => do
    let place := ((arguments[0]?).bind Value.location?).getD .unknown
    let value := (arguments[1]?).getD .undefined
    let isExpression := ((arguments[2]?).map Value.isTruthy).getD false
    let isLast := ((arguments[3]?).map Value.isTruthy).getD false
    Attempt.modify (Store.record id ⟨value, place, isExpression⟩ isLast)
    return value

/-- Binds the names of a destructured parameter. -/
def bindProperties (scope : ScopeId) (argument : Value) : List String → Run Unit
  | [] => pure ()
  | name :: names => do
    Run.declare scope name (← Run.property name argument)
    bindProperties scope argument names

/-- Binds parameters to arguments; missing arguments are undefined and further ones are dropped. -/
def bindParams (scope : ScopeId) : List Param → List Value → Run Unit
  | [], _ => pure ()
  | p :: ps, arguments => do
    let argument := arguments.headD .undefined
    match p with
    | .name name => Run.declare scope name argument
    | .properties names => bindProperties scope argument names
    bindParams scope ps arguments.tail

section

variable (ev : Evaluator)

/-- Functions that a declaration binds take its name. -/
def named (name : String) (scope : ScopeId) : Expr → Run Value
  | .arrow params body => Run.closure (some name) params body scope
  | e => ev scope e

/-- The statements of a function up to the first return. -/
def block (scope : ScopeId) : List Statement → Run Value
  | [] => return .undefined
  | .const _ name value :: rest => do
    Run.declare scope name (← named ev name scope value)
    block scope rest
  | .expr value :: rest => do
    let _ ← ev scope value
    block scope rest
  | .returns value :: _ => ev scope value
  | .returnsNothing :: _ => return .undefined
  | .imports _ :: _ => Run.throw .importInsideFunction

def bodyOf (scope : ScopeId) : Body → Run Value
  | .result value => ev scope value
  | .block statements => block ev scope statements

/-- Calls a function in a new scope inside the one it was made in. -/
def callFunction (f : Function) (arguments : List Value) : Run Value := do
  let stack ← Attempt.gets (Store.stackOf f.scope)
  let scope ← Attempt.update (Store.newScope (some f.scope) stack)
  bindParams scope f.params arguments
  bodyOf ev scope f.body

def callWith (callee : Value) (arguments : List Value) : Run Value :=
  match callee with
  | .function f => callFunction ev f arguments
  | .builtin b => callBuiltin b arguments
  | other => do Run.throw (.notCallable (← Attempt.gets fun s => other.inspect s))

def all (scope : ScopeId) : List Expr → Run (List Value)
  | [] => return []
  | e :: es => do
    let v ← ev scope e
    return v :: (← all scope es)

/-- The value of a name. The name `undefined` has a fixed one. -/
def nameValue (scope : ScopeId) (name : String) : Run Value :=
  if name = "undefined" then return .undefined else Run.lookup name scope

/-- The fields of an object literal; later entries replace earlier ones. -/
def objectFields (scope : ScopeId) (fields : Fields) : List Property → Run Fields
  | [] => return fields
  | .entry key value :: rest => do
    objectFields scope (fields.insert key (← ev scope value)) rest
  | .shorthand name :: rest => do
    objectFields scope (fields.insert name (← nameValue scope name)) rest
  | .spread value :: rest => do
    objectFields scope (← Run.spread fields (← ev scope value)) rest

/-- Reads one property after the other. -/
def follow (target : Value) : List String → Run Value
  | [] => return target
  | name :: names => do follow (← Run.property name target) names

/-- The segments of a dotted name. -/
def segments (name : String) : List String := (Text.splitAt '.' name.toList).map String.ofList

/-- Host tags stand for themselves; other names must lead to a function. -/
def elementType (scope : ScopeId) (name : String) : Run ElementType :=
  if isHostTag name then return .host name
  else
    match segments name with
    | [] => Run.throw (.undefinedVariable name)
    | first :: rest => do
      match ← follow (← Run.lookup first scope) rest with
      | .function f => return .component f
      | other => Run.throw (.invalidComponent name other.typeName)

/-- What the attributes of an element give. -/
structure Given where
  props : Fields
  owner : Option Value
  source : Option Value

/-- Takes one named attribute. -/
def Given.take (g : Given) (name : String) (value : Value) : Given :=
  if name = Annotate.selfAttribute then { g with owner := some value }
  else if name = Annotate.sourceAttribute then { g with source := some value }
  else { g with props := g.props.insert name value }

def attributes (scope : ScopeId) (g : Given) : List Attribute → Run Given
  | [] => return g
  | .bare name :: rest => attributes scope (g.take name (.bool true)) rest
  | .text name raw :: rest => attributes scope (g.take name (.text raw)) rest
  | .value name value :: rest => do
    attributes scope (g.take name (← ev scope value)) rest
  | .spread value :: rest => do
    let props ← Run.spread g.props (← ev scope value)
    attributes scope { g with props } rest

/-- The values of children: text where it shows anything, containers and elements. -/
def childValues (scope : ScopeId) : List Child → Run (List Value)
  | [] => return []
  | .text t :: rest => do
    let cooked := t.cooked
    let values ← childValues scope rest
    return if cooked = "" then values else .text cooked :: values
  | .emptyContainer _ :: rest => childValues scope rest
  | .container value _ :: rest => do
    let v ← ev scope value
    return v :: (← childValues scope rest)
  | .element e :: rest => do
    let v ← ev scope (.markup e)
    return v :: (← childValues scope rest)

/-- A single child is the `children` prop itself; several make an array. -/
def withChildren (props : Fields) : List Value → Run Fields
  | [] => return props
  | [v] => return props.insert "children" v
  | vs => do return props.insert "children" (← Run.array vs)

def createElement (scope : ScopeId) (e : Element) : Run Value := do
  let type ← elementType scope e.name
  let given ← attributes ev scope ⟨[], none, none⟩ e.attributes
  let values ← childValues ev scope e.content.toList
  Run.element type (← withChildren given.props values) given.owner given.source

def step : Evaluator := fun scope e =>
  match e with
  | .text s => return .text s
  | .number n => return .number n
  | .bool b => return .bool b
  | .null => return .null
  | .this => return .undefined
  | .name name => nameValue scope name
  | .member object name => do Run.property name (← ev scope object)
  | .call callee arguments => do
    let f ← ev scope callee
    callWith ev f (← all ev scope arguments)
  | .arrow params body => Run.closure none params body scope
  | .object properties => do Run.object (← objectFields ev scope [] properties)
  | .array items => do Run.array (← all ev scope items)
  | .paren inner => ev scope inner
  | .markup e => createElement ev scope e
  | .location l => do Run.record (← Attempt.gets (locationOf l scope))
  | .helper h => helper scope h

end

/-- Evaluates to a depth. -/
def eval : Nat → Evaluator
  | 0 => fun _ _ => Run.exhausted
  | n + 1 => step (eval n)

/-- Calls a value, its body being evaluated to a depth. -/
def call (depth : Nat) (callee : Value) (arguments : List Value) : Run Value :=
  callWith (eval depth) callee arguments

theorem eval_zero (scope : ScopeId) (e : Expr) : eval 0 scope e = Run.exhausted := rfl

theorem eval_succ (n : Nat) : eval (n + 1) = step (eval n) := rfl

end Eval

end MarkupTrace
