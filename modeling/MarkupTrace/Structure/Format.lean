import MarkupTrace.Data.Json
import MarkupTrace.Data.Yaml
import MarkupTrace.Structure.Drawing

/-!
# Output formats

A structure can be written as JSON, as YAML or as a drawing. Formats are found by their name.
-/

namespace MarkupTrace.Structure

open Render

/-- The ways to write a structure. -/
inductive Format
  | json
  | treeviz
  | yaml
  deriving DecidableEq, Repr

namespace Format

/-- All formats in the order of their names. -/
def all : List Format := [json, treeviz, yaml]

def name : Format → String
  | json => "json"
  | treeviz => "treeviz"
  | yaml => "yaml"

def names : List String := all.map name

def description : Format → String
  | treeviz => "Visual tree of rendered nodes and their source contributors"
  | _ => ""

def ofName? (name : String) : Option Format := all.find? fun f => f.name == name

def write (s : Store) (document : Document) (entries : List Entry) : Format → String
  | json => (Data.list (entriesToData s entries)).pretty
  | treeviz => draw document entries
  | yaml => (Data.list (entriesToData s entries)).yaml

end Format

/-- There is no format of that name. -/
structure UnknownFormat where
  name : String
  deriving DecidableEq, Repr

def UnknownFormat.message (e : UnknownFormat) : String := "Format '" ++ e.name ++ "' not found"

def Format.find (name : String) : Except UnknownFormat Format :=
  match ofName? name with
  | some f => .ok f
  | none => .error ⟨name⟩

end MarkupTrace.Structure
