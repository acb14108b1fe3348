import MarkupTrace.Number.Double

/-!
# Data trees

What can be written as JSON or YAML. The entries of a record keep their order. Whole numbers and
doubles are told apart because they are written differently.
-/

namespace MarkupTrace

inductive Data where
  | null
  | bool (value : Bool)
  | int (value : Int)
  | float (value : Double)
  | text (value : String)
  | list (items : List Data)
  | record (entries : List (String × Data))
  deriving Inhabited

namespace Data

/-- The entry with that key that stands last. -/
def field? (key : String) : Data → Option Data
  | record entries => (entries.reverse.find? fun e => e.1 == key).map (·.2)
  | _ => none

def text? : Data → Option String
  | text s => some s
  | _ => none

def double? : Data → Option Double
  | int i => some (Double.ofInt i)
  | float d => some d
  | _ => none

end Data

end MarkupTrace
