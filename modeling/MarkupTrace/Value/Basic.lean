import MarkupTrace.Keyed
import MarkupTrace.Number.Written
import MarkupTrace.Source.Printer
import MarkupTrace.Value.Location

/-!
# Values

What a markup module evaluates to. Arrays, objects, elements and functions carry an identity, a
number that no other of them has, and are equal only to themselves; their contents never change.
Location records and attribution stacks change over time, so a value only refers to them; the place
that a record was made for is fixed and is kept with the reference.

The fields of an object are in the order of their keys.
-/

namespace MarkupTrace

/-- Refers to an attribution stack. -/
structure StackId where
  index : Nat
  deriving DecidableEq, Repr

/-- Refers to a scope. -/
structure ScopeId where
  index : Nat
  deriving DecidableEq, Repr

/-- Refers to a location record, made for a place. -/
structure RecordRef where
  index : Nat
  place : Location
  deriving DecidableEq, Repr

/-- Functions bound to an attribution stack. -/
inductive Builtin
  | recordParent (stack : StackId)
  | recordExpression (stack : StackId)
  deriving DecidableEq, Repr

/-- An arrow function together with the scope it was made in. -/
structure Function where
  identity : Nat
  name : Option String
  params : List Source.Param
  body : Source.Body
  scope : ScopeId

def Function.displayName (f : Function) : String := f.name.getD "anonymous"

inductive ElementType
  | host (tag : String)
  | component (function : Function)

def ElementType.name : ElementType → String
  | host tag => tag
  | component f => f.displayName

/-- An element that was created but not yet rendered. Its props, children included, are an object of
their own identity; owner and source are what `__self` and `__source` were given. -/
structure CreatedElement (V : Type) where
  identity : Nat
  type : ElementType
  propsIdentity : Nat
  props : List (String × V)
  owner : Option V
  source : Option V

inductive Value where
  | undefined
  | null
  | bool (value : Bool)
  | number (value : Double)
  | text (value : String)
  | array (identity : Nat) (items : List Value)
  | object (identity : Nat) (fields : List (String × Value))
  | element (element : CreatedElement Value)
  | function (function : Function)
  | builtin (builtin : Builtin)
  | stack (stack : StackId)
  | location (record : RecordRef)

abbrev Fields := Keyed Value

namespace Value

instance : Inhabited Value := ⟨.undefined⟩

def typeName : Value → String
  | undefined => "undefined"
  | null => "null"
  | bool _ => "boolean"
  | number _ => "number"
  | text _ => "string"
  | array _ _ => "array"
  | object _ _ => "object"
  | element _ => "element"
  | function _ | builtin _ => "function"
  | stack _ => "stack"
  | location _ => "location"

def isNullish : Value → Bool
  | undefined | null => true
  | _ => false

/-- False for what is absent, for false, zeros, NaN and the empty text. -/
def isTruthy : Value → Bool
  | undefined | null => false
  | bool b => b
  | number n => !(n.isZero || n.isNaN)
  | text s => s != ""
  | _ => true

/-- Strict equality: numbers as numbers, texts by content, everything with an identity by that. -/
def strictEq : Value → Value → Bool
  | undefined, undefined => true
  | null, null => true
  | bool a, bool b => a == b
  | number a, number b => a.equal b
  | text a, text b => a == b
  | array a _, array b _ => a == b
  | object a _, object b _ => a == b
  | element a, element b => a.identity == b.identity
  | function a, function b => a.identity == b.identity
  | builtin a, builtin b => a == b
  | stack a, stack b => a == b
  | location a, location b => a.index == b.index
  | _, _ => false

/-- The props of an element as an object. -/
def props (e : CreatedElement Value) : Value := object e.propsIdentity e.props

/-- An object whose identity nothing asks for. -/
def plain (fields : Fields) : Value := object 0 fields

/-- The position that a property name stands for: digits, perhaps behind a plus sign. -/
def indexOf? (property : String) : Option Nat :=
  let cs := property.toList
  let digits := match cs with
    | '+' :: rest => rest
    | _ => cs
  if !digits.isEmpty && digits.all Char.isDigit then
    some (digits.foldl (fun n c => n * 10 + (c.toNat - '0'.toNat)) 0)
  else none

/-- Reads a property; `none` when there is nothing to read from. A missing property is undefined. -/
def get? (property : String) : Value → Option Value
  | undefined | null => none
  | object _ fields => some ((Keyed.get? property fields).getD undefined)
  | array _ items =>
    if property = "length" then some (number (Double.ofNat items.length))
    else some (((indexOf? property).bind fun i => items[i]?).getD undefined)
  | text s =>
    if property = "length" then some (number (Double.ofNat s.length)) else some undefined
  | element e =>
    match property with
    | "props" => some (props e)
    | "type" =>
      match e.type with
      | .host tag => some (text tag)
      | .component f => some (function f)
    | "_self" => some (e.owner.getD undefined)
    | "_source" => some (e.source.getD undefined)
    | _ => some undefined
  | location r =>
    match property with
    | "fileName" => some (text r.place.fileName)
    | "pos" => some (number (Double.ofInt r.place.pos))
    | "end" => some (number (Double.ofInt r.place.stop))
    | "lineNumber" => some ((r.place.line.map fun n => number (Double.ofNat n)).getD undefined)
    | _ => some undefined
  | _ => some undefined

def text? : Value → Option String
  | text s => some s
  | _ => none

def number? : Value → Option Double
  | number n => some n
  | _ => none

/-- The location that a value describes: a record's place, or an object with a file name and two
offsets, and perhaps a line. -/
def location? : Value → Option Location
  | location r => some r.place
  | object _ fields => do
    let fileName ← (← Keyed.get? "fileName" fields).text?
    let pos ← (← Keyed.get? "pos" fields).number?
    let stop ← (← Keyed.get? "end" fields).number?
    let line := ((Keyed.get? "lineNumber" fields).bind number?).map Double.toNat32
    return ⟨fileName, pos.toInt64, stop.toInt64, line⟩
  | _ => none

/-- What a text or a number is shown as. -/
def shown? : Value → Option String
  | text s => some s
  | number n => some (Source.printNumber n)
  | _ => none

end Value

end MarkupTrace
