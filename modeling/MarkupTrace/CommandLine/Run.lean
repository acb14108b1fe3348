import MarkupTrace.CommandLine.Arguments
import MarkupTrace.CommandLine.Directory
import MarkupTrace.CommandLine.Help
import MarkupTrace.Data.Reader
import MarkupTrace.Inspect
import MarkupTrace.Settings.Layers
import MarkupTrace.Structure.Format

/-!
# Running commands

What a command prints and the status it ends with, given a way to read files: zero on success, one
if the command fails, and two if the arguments make no command. A failing command prints nothing but
its message.
-/

namespace MarkupTrace.CommandLine

open Structure

structure Outcome where
  status : Nat
  stdout : String
  stderr : String
  deriving DecidableEq, Repr

namespace Outcome

def printed (text : String) : Outcome := ⟨0, text, ""⟩

def failed (message : String) : Outcome := ⟨1, "", message ++ "\n"⟩

end Outcome

def Refusal.outcome : Refusal → Outcome
  | .usage => ⟨2, "", Subject.program.text⟩
  | .help subject => .printed subject.text
  | .version => .printed "fiber-spy 0.1.0\n"

/-- A token in listings: its label, and with it its text where that is not clear from the label. -/
def tokenData (t : Source.Token) : Data :=
  if t.kind.hasText then .record [(t.kind.label, .text t.text)] else .text t.kind.label

/-- All tokens of a text with their spans. -/
def tokensData (source : String) : Data :=
  .list ((Source.tokenize source).map fun t =>
    .list [tokenData t, .record [("start", .int t.span.start), ("end", .int t.span.stop)]])

/-- The message of an inspection that failed. -/
def stopMessage : Stop Failure → String
  | .error e => e.message
  | .exhausted => "recursion is too deep"

def withNewline (text : String) : String := if text.endsWith "\n" then text else text ++ "\n"

section

variable {m : Type → Type} [Monad m] (read : FileReader m)

/-- The text behind a configuration path. The extension can be left out. -/
def configText (path : String) : m (Option String) := do
  match ← read path with
  | .ok text => return some text
  | .error _ =>
    match withExtension? ".toml" path with
    | none => return none
    | some path => return (← read path).toOption

/-- The settings, which a configuration may change. -/
def settings (config : Option String) : m (Except Settings.Error Settings) := do
  match config with
  | none => return Settings.load [] []
  | some path => return Settings.load [⟨path, ← configText read path, true⟩] []

/-- Reads the file of a path and goes on with it. -/
def withSource (describe : String → String) (path : String) (go : String → Outcome) :
    m Outcome := do
  match ← read path with
  | .ok source => return go source
  | .error e => return .failed (describe ("failed to read " ++ path ++ ": " ++ e.message))

def instrument (s : Settings) (path : String) : m Outcome :=
  let describe := fun message => "Instrumentation error: " ++ message
  withSource read describe path fun source =>
    match Annotate.compile source path s.options with
    | .ok compiled => .printed compiled.code
    | .error e => .failed (describe e.message)

def inspectSource (s : Settings) (path component : String) (props : Data) (format : Format)
    (source : String) : Outcome :=
  match MarkupTrace.inspect defaultDepth source path component props s.options with
  | .ok found => .printed (withNewline (format.write found.store found.document found.entries))
  | .error e => .failed ("Inspection error: " ++ stopMessage e)

/-- The format is looked up first, then the props are read, then the file. -/
def inspect (s : Settings) (path component props format : String) : m Outcome :=
  match Format.ofName? format with
  | none =>
    return .failed ("Format '" ++ format ++ "' not supported\nAvailable formats: " ++
      ", ".intercalate Format.names)
  | some format =>
    match Data.ofJson props with
    | .error e => return .failed ("Invalid --props JSON: " ++ e)
    | .ok props => withSource read (fun message => message) path
        (inspectSource s path component props format)

def tokens (path : String) : m Outcome :=
  withSource read (fun message => message) path fun source =>
    .printed ((tokensData source).pretty ++ "\n")

def Command.run (s : Settings) : Command → m Outcome
  | .instrument path => CommandLine.instrument read s path
  | .inspect path component props format =>
    CommandLine.inspect read s path (component.getD s.component) props (format.getD s.format)
  | .tokens path => CommandLine.tokens read path

def run (arguments : List String) : m Outcome := do
  match Invocation.ofArguments arguments with
  | .error refusal => return refusal.outcome
  | .ok invocation =>
    match ← settings read invocation.config with
    | .error e => return .failed ("Configuration error: " ++ e.message)
    | .ok s => invocation.command.run read s

end

end MarkupTrace.CommandLine
