import MarkupTrace.Data.Basic
import MarkupTrace.Text.Escaped
import MarkupTrace.Value.Store

/-!
# Written values

`inspect` shows a value for diagnosis, `display` as text where text is wanted, and `toData` as data.
Records are shown with what was recorded against them. That may contain other records; since a
record inside itself could be unfolded for ever, no more records are unfolded inside each other than
there are.
-/

namespace MarkupTrace

open Text

def inspectStack (s : Store) (id : StackId) : String := s!"StackHandle(depth={s.depth id})"

def Builtin.inspect (s : Store) : Builtin → String
  | recordParent id => "RecordAsParent(" ++ inspectStack s id ++ ")"
  | recordExpression id => "RecordExpression(" ++ inspectStack s id ++ ")"

/-- The members of a record in diagnostic form. -/
def inspectMembers (name : String) (members : List (String × String)) : String :=
  name ++ " \x7b " ++ ", ".intercalate (members.map fun m => m.1 ++ ": " ++ m.2) ++ " \x7d"

def inspectBool (b : Bool) : String := if b then "true" else "false"

def Location.inspect (l : Location) : String :=
  inspectMembers "SourceLocation" [
    ("file_name", inspectText l.fileName),
    ("pos", toString l.pos),
    ("end", toString l.stop),
    ("line_number", match l.line with
      | some n => "Some(" ++ toString n ++ ")"
      | none => "None")]

namespace Value

mutual

/-- A value in diagnostic form, given that of records. -/
def inspectWith (record : RecordRef → String) (s : Store) : Value → String
  | undefined => "undefined"
  | null => "null"
  | bool b => inspectBool b
  | number n => n.plain
  | text t => inspectText t
  | array _ items => "[" ++ inspectItems record s items ++ "]"
  | object _ fields => "\x7b" ++ inspectFields record s fields ++ "\x7d"
  | element e => "<" ++ e.type.name ++ ">"
  | function f => "[Function " ++ f.displayName ++ "]"
  | builtin b => "[Builtin " ++ b.inspect s ++ "]"
  | stack id => s!"[Stack depth={s.depth id}]"
  | location r => record r

def inspectItems (record : RecordRef → String) (s : Store) : List Value → String
  | [] => ""
  | [v] => inspectWith record s v
  | v :: vs => inspectWith record s v ++ ", " ++ inspectItems record s vs

def inspectFields (record : RecordRef → String) (s : Store) : List (String × Value) → String
  | [] => ""
  | [(k, v)] => inspectText k ++ ": " ++ inspectWith record s v
  | (k, v) :: es =>
    inspectText k ++ ": " ++ inspectWith record s v ++ ", " ++ inspectFields record s es

end

/-- A record in diagnostic form, unfolding at most that many records inside each other. -/
def inspectRecord (s : Store) : Nat → RecordRef → String
  | 0, _ => ""
  | n + 1, r =>
    let one := fun (x : Recorded) => inspectMembers "ExpressionLocation" [
      ("value", inspectWith (inspectRecord s n) s x.value),
      ("location", x.location.inspect),
      ("is_expression", inspectBool x.isExpression)]
    let expressions := match s.recorded? r with
      | none => "None"
      | some xs => "Some([" ++ ", ".intercalate (xs.map one) ++ "])"
    "SourceRecord(" ++ inspectMembers "LocationWithExpressions" [
      ("location", r.place.inspect), ("expressions", expressions)] ++ ")"

def inspect (s : Store) (v : Value) : String :=
  inspectWith (inspectRecord s (s.records.size + 1)) s v

/-- Texts as they are and numbers as they are shown; the rest in diagnostic form. -/
def display (s : Store) (v : Value) : String := v.shown?.getD (v.inspect s)

end Value

/-- The members of a location. -/
def Location.entries (l : Location) : List (String × Data) :=
  [("fileName", .text l.fileName), ("pos", .int l.pos), ("end", .int l.stop)] ++
    match l.line with
    | some n => [("lineNumber", .int n)]
    | none => []

def Location.toData (l : Location) : Data := .record l.entries

/-- Whole numbers below `9 * 10 ^ 15` are integers. -/
def Double.toData (n : Double) : Data :=
  if n.isWholeBelow (9 * Nat.pow 10 15) then .int n.toInt64 else .float n

namespace Value

mutual

/-- A value as data, given that of records. -/
def toDataWith (record : RecordRef → Data) (s : Store) : Value → Data
  | undefined | null => .null
  | bool b => .bool b
  | number n => n.toData
  | text t => .text t
  | array _ items => .list (itemsToData record s items)
  | object _ fields => .record (fieldsToData record s fields)
  | element ⟨_, type, _, props, _, _⟩ =>
    .record [("type", .text type.name), ("props", .record (fieldsToData record s props))]
  | function f => .text ("[Function " ++ f.displayName ++ "]")
  | builtin b => .text ("[Builtin " ++ b.inspect s ++ "]")
  | stack id => .text s!"[Stack depth={s.depth id}]"
  | location r => record r

def itemsToData (record : RecordRef → Data) (s : Store) : List Value → List Data
  | [] => []
  | v :: vs => toDataWith record s v :: itemsToData record s vs

def fieldsToData (record : RecordRef → Data) (s : Store) :
    List (String × Value) → List (String × Data)
  | [] => []
  | (k, v) :: es => (k, toDataWith record s v) :: fieldsToData record s es

end

/-- A record as data, unfolding at most that many records inside each other. -/
def recordToData (s : Store) : Nat → RecordRef → Data
  | 0, r => r.place.toData
  | n + 1, r =>
    let one := fun (x : Recorded) => Data.record [
      ("value", toDataWith (recordToData s n) s x.value),
      ("location", x.location.toData),
      ("isExpression", .bool x.isExpression)]
    .record (r.place.entries ++
      match s.recorded? r with
      | none => []
      | some xs => [("expressions", .list (xs.map one))])

def toData (s : Store) (v : Value) : Data :=
  toDataWith (recordToData s (s.records.size + 1)) s v

mutual

/-- Data as a value, its parts getting identities from `next` on. -/
def ofDataFrom (next : Nat) : Data → Value × Nat
  | .null => (null, next)
  | .bool b => (bool b, next)
  | .int i => (number (Double.ofInt i), next)
  | .float d => (number d, next)
  | .text t => (text t, next)
  | .list items =>
    let (vs, n) := itemsOfData next items
    (array n vs, n + 1)
  | .record entries =>
    let (es, n) := entriesOfData next entries
    (object n (Keyed.ofList es), n + 1)

def itemsOfData (next : Nat) : List Data → List Value × Nat
  | [] => ([], next)
  | d :: ds =>
    let (v, n) := ofDataFrom next d
    let (vs, n) := itemsOfData n ds
    (v :: vs, n)

def entriesOfData (next : Nat) : List (String × Data) → List (String × Value) × Nat
  | [] => ([], next)
  | (k, d) :: es =>
    let (v, n) := ofDataFrom next d
    let (vs, n) := entriesOfData n es
    ((k, v) :: vs, n)

end

/-- Data as a value with new identities. -/
def ofData (d : Data) (s : Store) : Value × Store :=
  let (v, n) := ofDataFrom s.next d
  (v, { s with next := n })

end Value

end MarkupTrace
