import MarkupTrace.Attempt
import MarkupTrace.Value.Basic

/-!
# The store

What evaluation changes: scopes, into which declarations are put, location records, against which
expressions are recorded, and attribution stacks. Scopes, records and stacks are numbered in the
order in which they were made, and identities are handed out from a counter. Zero is no value's
identity.
-/

namespace MarkupTrace

/-- One recorded child of an element: its value and where it was written. -/
structure Recorded where
  value : Value
  location : Location
  isExpression : Bool

structure Scope where
  bindings : Keyed Value
  parent : Option ScopeId
  stack : StackId

structure Store where
  /-- The next identity. -/
  next : Nat
  scopes : Array Scope
  /-- What was recorded against each record; `none` until the first time. -/
  records : Array (Option (List Recorded))
  /-- The stacks, the top of each first. -/
  stackEntries : List (List RecordRef)

namespace Store

def empty : Store := ⟨1, #[], #[], []⟩

/-- A new identity. -/
def identity (s : Store) : Nat × Store := (s.next, { s with next := s.next + 1 })

/-- A new, empty attribution stack. -/
def newStack (s : Store) : StackId × Store :=
  (⟨s.stackEntries.length⟩, { s with stackEntries := s.stackEntries ++ [[]] })

/-- A new record, against which nothing is recorded. -/
def newRecord (place : Location) (s : Store) : RecordRef × Store :=
  (⟨s.records.size, place⟩, { s with records := s.records.push none })

def newScope (parent : Option ScopeId) (stack : StackId) (s : Store) : ScopeId × Store :=
  (⟨s.scopes.size⟩, { s with scopes := s.scopes.push ⟨[], parent, stack⟩ })

def scope? (id : ScopeId) (s : Store) : Option Scope := s.scopes[id.index]?

/-- The stack that a scope belongs to. -/
def stackOf (id : ScopeId) (s : Store) : StackId := ((s.scope? id).map (·.stack)).getD ⟨0⟩

/-- The innermost binding of a name. A scope's parent was made before it. -/
def lookupFrom (s : Store) (name : String) (index : Nat) : Option Value :=
  match s.scopes[index]? with
  | none => none
  | some scope =>
    match scope.bindings.get? name with
    | some v => some v
    | none =>
      match scope.parent with
      | none => none
      | some p => if p.index < index then lookupFrom s name p.index else none
termination_by index

def lookup (name : String) (id : ScopeId) (s : Store) : Option Value := s.lookupFrom name id.index

/-- Binds a name in a scope, in place of an earlier binding there. -/
def declare (id : ScopeId) (name : String) (value : Value) (s : Store) : Store :=
  { s with scopes := s.scopes.modify id.index fun scope =>
      { scope with bindings := scope.bindings.insert name value } }

/-- The entries of a stack, the top first. -/
def entries (id : StackId) (s : Store) : List RecordRef := (s.stackEntries[id.index]?).getD []

def depth (id : StackId) (s : Store) : Nat := (s.entries id).length

/-- What was recorded against a record, in order. -/
def recorded? (r : RecordRef) (s : Store) : Option (List Recorded) :=
  (s.records[r.index]?).getD none

def recorded (r : RecordRef) (s : Store) : List Recorded := (s.recorded? r).getD []

def push (id : StackId) (r : RecordRef) (s : Store) : Store :=
  { s with stackEntries := s.stackEntries.modify id.index fun entries => r :: entries }

def pop (id : StackId) (s : Store) : Store :=
  { s with stackEntries := s.stackEntries.modify id.index List.tail }

theorem entries_push_self {id : StackId} {s : Store} (h : id.index < s.stackEntries.length)
    (r : RecordRef) : (s.push id r).entries id = r :: s.entries id := by
  simp [push, entries, h]

theorem entries_pop_self (id : StackId) (s : Store) :
    (s.pop id).entries id = (s.entries id).tail := by
  cases h : s.stackEntries[id.index]? <;> simp [pop, entries, h]

/-- A pop takes back a push. -/
theorem pop_push (id : StackId) (r : RecordRef) (s : Store) : (s.push id r).pop id = s := by
  have h : s.stackEntries.modify id.index (List.tail ∘ fun entries => r :: entries) =
      s.stackEntries := List.modify_id ..
  simp only [push, pop, List.modify_modify_eq, h]

/-- Adds to what was recorded against a record. -/
def append (r : RecordRef) (x : Recorded) (s : Store) : Store :=
  { s with records := s.records.modify r.index fun done => some (done.getD [] ++ [x]) }

/-- Records a child against the top of a stack, and pops it if the child is the last one. With
nothing on the stack nothing happens. -/
def record (id : StackId) (x : Recorded) (isLast : Bool) (s : Store) : Store :=
  match s.entries id with
  | [] => s
  | top :: _ =>
    let s := s.append top x
    if isLast then s.pop id else s

end Store

end MarkupTrace
