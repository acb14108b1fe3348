import MarkupTrace.Source.Token

/-!
# Annotation options

Annotated modules declare up to four names of their own. The options give the names to start from
and say whether offsets count a carriage return before a line feed. Options are accepted when the
four are identifiers, none of them reserved, and no two alike.
-/

namespace MarkupTrace.Annotate

open Source

/-- The attribute that holds what `this` was where an element was written. -/
def selfAttribute : String := "__self"

/-- The attribute that holds where an element was written. -/
def sourceAttribute : String := "__source"

/-- The declared names. -/
inductive Role
  | fileName
  | stack
  | recordParent
  | recordExpression
  deriving DecidableEq, Repr

/-- The option that sets a name. -/
def Role.option : Role → String
  | fileName => "file_name_binding"
  | stack => "stack_binding"
  | recordParent => "record_as_parent_binding"
  | recordExpression => "record_expression_binding"

structure Options where
  fileName : String := "__jsxFileName"
  stack : String := "wcs_expression_stack"
  recordParent : String := "wcs_wrap_source"
  recordExpression : String := "wcs_wrap_expression"
  normalizeLineEndings : Bool := true
  deriving DecidableEq, Repr

inductive OptionsError
  | invalidIdentifier (role : Role) (value : String)
  | duplicateName (first second : Role) (value : String)
  deriving DecidableEq, Repr

def OptionsError.message : OptionsError → String
  | invalidIdentifier role value =>
    "\x60" ++ value ++ "\x60 is not a valid identifier for " ++ role.option
  | duplicateName first second value =>
    first.option ++ " and " ++ second.option ++ " must use different names (both are \x60" ++
      value ++ "\x60)"

/-- A letter, an underscore or a dollar sign, and then also digits. -/
def isIdentifier (s : String) : Bool :=
  match s.toList with
  | [] => false
  | c :: cs => isIdentifierStart c && cs.all isIdentifierPart

/-- May be declared by an annotated module. -/
def isBindable (s : String) : Bool := isIdentifier s && !isReserved s

/-- The first entry that repeats further on, with its repetition. -/
def firstRepeated : List (Role × String) → Option (Role × Role × String)
  | [] => none
  | (role, value) :: rest =>
    match rest.find? fun e => e.2 == value with
    | some (other, _) => some (role, other, value)
    | none => firstRepeated rest

namespace Options

def names (o : Options) : List (Role × String) :=
  [(.fileName, o.fileName), (.stack, o.stack), (.recordParent, o.recordParent),
    (.recordExpression, o.recordExpression)]

/-- The first name that cannot be declared, or else the first that repeats. -/
def problem? (o : Options) : Option OptionsError :=
  match o.names.find? fun e => !isBindable e.2 with
  | some (role, value) => some (.invalidIdentifier role value)
  | none => (firstRepeated o.names).map fun (first, second, value) =>
    .duplicateName first second value

def validate (o : Options) : Except OptionsError Unit :=
  match o.problem? with
  | some e => .error e
  | none => .ok ()

end Options

end MarkupTrace.Annotate
