import MarkupTrace.Annotate.Options
import MarkupTrace.Number.Written
import MarkupTrace.Settings.KeyPath
import MarkupTrace.Settings.Toml.Reader

/-!
# Settings

Settings come in layers: what is built in, then files in order, then single overrides. Later layers
replace what earlier ones say, entry by entry, and entries that nothing asks for do not matter.

Where a text is wanted any scalar will do, and where a truth value is wanted numbers and a few
words.
-/

namespace MarkupTrace

structure Settings where
  options : Annotate.Options
  format : String
  component : String
  deriving DecidableEq, Repr

namespace Settings

/-- A file of settings. A file that is not there matters only if it is required. -/
structure File where
  path : String
  text : Option String
  required : Bool

inductive Error
  | missingFile (path : String)
  | malformedFile (path : String)
  | malformedKey (key : String)
  | wrongType (key : String)
  deriving DecidableEq, Repr

def Error.message : Error → String
  | missingFile path => "configuration file \"" ++ path ++ "\" not found"
  | malformedFile path => "configuration file \"" ++ path ++ "\" is not well formed"
  | malformedKey key => "invalid key \"" ++ key ++ "\""
  | wrongType key => "invalid type for key \x60" ++ key ++ "\x60"

/-! ## Layers -/

/-- Lays the entries of a file over what is there. A key that is no path stands for itself. -/
def layOver (target : Data) (entries : List (String × Data)) : Data :=
  entries.foldl (fun target e =>
    putAt e.2 ((KeyPath.ofKey? e.1).getD [.entry e.1]) (some target)) target

def layFile (target : Data) (f : File) : Except Error Data :=
  match f.text with
  | none => if f.required then .error (.missingFile f.path) else .ok target
  | some text =>
    match readToml text with
    | some entries => .ok (layOver target entries)
    | none => .error (.malformedFile f.path)

def override (target : Data) (e : String × Data) : Except Error Data :=
  match KeyPath.ofKey? e.1 with
  | some path => .ok (putAt e.2 path (some target))
  | none => .error (.malformedKey e.1)

/-! ## Reading entries -/

def textFor : Data → Option String
  | .text s => some s
  | .bool b => some (if b then "true" else "false")
  | .int i => some (toString i)
  | .float d => some d.plain
  | _ => none

def truthFor : Data → Option Bool
  | .bool b => some b
  | .int i => some (i != 0)
  | .float d => some (!d.isZero)
  | .text s =>
    let word := String.ofList (s.toList.map Char.toLower)
    if ["1", "true", "on", "yes"].contains word then some true
    else if ["0", "false", "off", "no"].contains word then some false
    else none
  | _ => none

/-- A table of settings and its keys in order. -/
structure Section where
  name : String
  keys : List String

/-- The value of a key. A list counts as a table when its items stand in the order of the keys. -/
def Section.value? (table : Section) (key : String) (d : Data) : Option Data :=
  match d.field? table.name with
  | some (.list items) => (table.keys.zip items).lookup key
  | some d => d.field? key
  | none => none

def Section.ask {α : Type} (table : Section) (read : Data → Option α) (key : String) (d : Data) :
    Except Error α :=
  match (table.value? key d).bind read with
  | some a => .ok a
  | none => .error (.wrongType (table.name ++ "." ++ key))

def instrumentSection : Section :=
  ⟨"instrument", [Annotate.Role.fileName.option, Annotate.Role.stack.option,
    Annotate.Role.recordParent.option, Annotate.Role.recordExpression.option,
    "normalize_line_endings"]⟩

def inspectSection : Section := ⟨"inspect", ["format", "component"]⟩

/-- What the data say. -/
def ofData (d : Data) : Except Error Settings := do
  let fileName ← instrumentSection.ask textFor Annotate.Role.fileName.option d
  let stack ← instrumentSection.ask textFor Annotate.Role.stack.option d
  let recordParent ← instrumentSection.ask textFor Annotate.Role.recordParent.option d
  let recordExpression ← instrumentSection.ask textFor Annotate.Role.recordExpression.option d
  let normalizeLineEndings ← instrumentSection.ask truthFor "normalize_line_endings" d
  let format ← inspectSection.ask textFor "format" d
  let component ← inspectSection.ask textFor "component" d
  let options := ⟨fileName, stack, recordParent, recordExpression, normalizeLineEndings⟩
  return ⟨options, format, component⟩

/-- What holds if nothing else is said. -/
def default : Settings := ⟨{}, "treeviz", "App"⟩

/-- Settings as data. -/
def toData (s : Settings) : Data :=
  .record [
    ("instrument", .record (s.options.names.map (fun (role, name) => (role.option, .text name)) ++
      [("normalize_line_endings", .bool s.options.normalizeLineEndings)])),
    ("inspect", .record [("format", .text s.format), ("component", .text s.component)])]

/-- The settings of files and overrides over those that are built in. -/
def load (files : List File) (overrides : List (String × Data)) : Except Error Settings := do
  let d ← files.foldlM layFile default.toData
  let d ← overrides.foldlM override d
  ofData d

end Settings

end MarkupTrace
