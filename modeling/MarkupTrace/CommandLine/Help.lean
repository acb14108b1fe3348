import MarkupTrace.CommandLine.Arguments

/-!
# Help

What the program says about itself, and about each of its commands: what it is for, how it is
called, and what its paths and options mean.
-/

namespace MarkupTrace.CommandLine

def Action.about : Action → String
  | instrument => "Print the instrumented module"
  | inspect => "Render an export and print the reconstructed structure"
  | tokens => "Print the token stream as JSON"

def Setting.about : Setting → String
  | config => "Configuration file layered over the built-in defaults"
  | component => "Export to render (default from configuration)"
  | props => "Props passed to the export, as a JSON object [default: \x7b\x7d]"
  | format => "Output format: treeviz, json or yaml (default from configuration)"

/-- A letter, if there is one, before the name behind two hyphens. -/
def optionLabel (short? : Option Char) (long : String) : String :=
  (match short? with
    | some c => "-" ++ c.toString ++ ", "
    | none => "    ") ++ "--" ++ long

def Setting.label (k : Setting) : String :=
  optionLabel k.short? k.long ++ " <" ++ k.long ++ ">"

/-- A heading and rows under it, the second column aligned. -/
def table (heading : String) (rows : List (String × String)) : String :=
  let width := rows.foldl (fun width row => max width row.1.length) 0
  heading ++ ":\n" ++ String.join (rows.map fun (label, text) =>
    "  " ++ label ++ String.ofList (List.replicate (width - label.length + 2) ' ') ++ text ++ "\n")

def helpAbout : String := "Print this message or the help of the given subcommand(s)"

/-- The options that a level of arguments knows. The version is that of the whole program. -/
def optionRows (action : Option Action) : List (String × String) :=
  (Setting.known action).map (fun k => (k.label, k.about)) ++
    [(optionLabel (some 'h') "help", "Print help")] ++
    (if action.isNone then [(optionLabel (some 'V') "version", "Print version")] else [])

/-- What it is for, how it is called, and tables of what may be said. -/
def page (about usage : String) (tables : List String) : String :=
  about ++ "\n\nUsage: fiber-spy " ++ usage ++ "\n\n" ++ "\n".intercalate tables

def Subject.text : Subject → String
  | .program =>
    page "Map rendered markup trees back to the source that produced them" "[OPTIONS] <COMMAND>" [
      table "Commands" (Action.all.map (fun a => (a.name, a.about)) ++ [("help", helpAbout)]),
      table "Options" (optionRows none)]
  | .command a =>
    page a.about (a.name ++ " [OPTIONS] <path>") [
      table "Arguments" [("<path>", "Path to the markup module")],
      table "Options" (optionRows (some a))]
  | .help =>
    page helpAbout "help [COMMAND]..." [
      table "Arguments" [("[COMMAND]...", "Print help for the subcommand(s)")]]

end MarkupTrace.CommandLine
