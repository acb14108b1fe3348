/-!
# Evaluation errors

What can go wrong while an expression is evaluated. That evaluation went too deep is not one of
these errors: it says nothing about the module, only about what it was allowed.
-/

namespace MarkupTrace

inductive EvalError
  | undefinedVariable (name : String)
  | propertyOfNullish (property target : String)
  | notCallable (shown : String)
  | invalidComponent (name found : String)
  | spreadOf (found : String)
  | returnOutsideFunction
  | importInsideFunction
  | notAStack (name found : String)
  deriving DecidableEq, Repr

namespace EvalError

/-- What cannot be done at all, as opposed to what fails on these values. -/
def unsupported? : EvalError → Option String
  | spreadOf found => some ("spreading a " ++ found)
  | returnOutsideFunction => some "return outside of a function"
  | importInsideFunction => some "import inside a function"
  | notAStack name found => some ("'" ++ name ++ "' is a " ++ found ++ ", not an attribution stack")
  | _ => none

def message : EvalError → String
  | undefinedVariable name => name ++ " is not defined"
  | propertyOfNullish property target => "cannot read property '" ++ property ++ "' of " ++ target
  | notCallable shown => shown ++ " is not a function"
  | invalidComponent name found =>
    "element type '" ++ name ++ "' is not a component (found " ++ found ++ ")"
  | e => "unsupported: " ++ e.unsupported?.getD ""

end EvalError

/-- Why something that may run without end ended without a result. -/
inductive Stop (ε : Type)
  | error (e : ε)
  /-- It went deeper than it was allowed to. -/
  | exhausted
  deriving DecidableEq, Repr

def Stop.map {ε δ : Type} (f : ε → δ) : Stop ε → Stop δ
  | error e => .error (f e)
  | exhausted => .exhausted

end MarkupTrace
