import MarkupTrace.Text.Lines

/-!
# Command line arguments

An invocation names one command, its path and options. Options have a long name behind two hyphens
and perhaps a letter behind one; their value follows, in the same argument or as the next one. The
configuration can be given before the command too. Behind `--` there are only paths.
-/

namespace MarkupTrace.CommandLine

inductive Action
  | instrument
  | inspect
  | tokens
  deriving DecidableEq, Repr

namespace Action

def all : List Action := [instrument, inspect, tokens]

def name : Action → String
  | instrument => "instrument"
  | inspect => "inspect"
  | tokens => "tokens"

def ofName? (name : String) : Option Action := all.find? fun a => a.name == name

end Action

/-- Options with a value. -/
inductive Setting
  | config
  | component
  | props
  | format
  deriving DecidableEq, Repr

namespace Setting

def long : Setting → String
  | config => "config"
  | component => "component"
  | props => "props"
  | format => "format"

def short? : Setting → Option Char
  | config => some 'c'
  | format => some 'f'
  | _ => none

/-- The options that a command knows; `none` is for what stands before it. -/
def known : Option Action → List Setting
  | some .inspect => [config, component, props, format]
  | _ => [config]

end Setting

/-- What help is about. -/
inductive Subject
  | program
  | command (action : Action)
  | help
  deriving DecidableEq, Repr

/-- Why no command is run. -/
inductive Refusal
  | usage
  | help (subject : Subject)
  | version
  deriving DecidableEq, Repr

/-- The options and paths that one level of arguments gives. -/
structure Given where
  settings : List (Setting × String)
  paths : List String

namespace Given

def none : Given := ⟨[], []⟩

def get? (k : Setting) (g : Given) : Option String := (g.settings.find? fun e => e.1 = k).map (·.2)

/-- Sets an option; no option may be set twice. -/
def set (k : Setting) (value : String) (g : Given) : Except Refusal Given :=
  if (g.get? k).isSome then .error .usage else .ok { g with settings := (k, value) :: g.settings }

/-- There is one path at most. -/
def addPath (path : String) (g : Given) : Except Refusal Given :=
  if g.paths.isEmpty then .ok { g with paths := [path] } else .error .usage

end Given

/-- Looks like an option. A single hyphen does not. -/
def isOption (argument : String) : Bool := argument.startsWith "-" && argument != "-"

/-- What one argument is. -/
inductive Reading
  | help
  | version
  /-- An option with its value, if that is in the argument. -/
  | setting (k : Setting) (value : Option String)
  | unknown

/-- A long option, behind its hyphens. -/
def readLong (action : Option Action) (cs : List Char) : Reading :=
  let name := String.ofList (cs.takeWhile (· ≠ '='))
  let value := match cs.dropWhile (· ≠ '=') with
    | [] => none
    | _ :: value => some (String.ofList value)
  if value.isNone && name = "help" then .help
  else if value.isNone && name = "version" && action.isNone then .version
  else
    match (Setting.known action).find? fun k => k.long == name with
    | some k => .setting k value
    | none => .unknown

/-- A short option, behind its hyphen. -/
def readShort (action : Option Action) : List Char → Reading
  | [] => .unknown
  | c :: cs =>
    if c = 'h' then .help
    else if c = 'V' && action.isNone then .version
    else
      match (Setting.known action).find? fun k => k.short? == some c with
      | none => .unknown
      | some k =>
        match cs with
        | [] => .setting k none
        | '=' :: value => .setting k (some (String.ofList value))
        | value => .setting k (some (String.ofList value))

def readOption (action : Option Action) (argument : String) : Reading :=
  match argument.toList with
  | '-' :: '-' :: cs => readLong action cs
  | '-' :: cs => readShort action cs
  | _ => .unknown

/-- The arguments of a command. -/
def readArguments (action : Action) (g : Given) : List String → Except Refusal Given
  | [] => .ok g
  | a :: rest =>
    if a = "--" then rest.foldlM (fun g path => g.addPath path) g
    else if isOption a then
      match readOption (some action) a with
      | .help => .error (.help (.command action))
      | .version => .error .version
      | .unknown => .error .usage
      | .setting k (some value) => do readArguments action (← g.set k value) rest
      | .setting k none =>
        match rest with
        | [] => .error .usage
        | value :: rest =>
          if isOption value then .error .usage
          else do readArguments action (← g.set k value) rest
    else do readArguments action (← g.addPath a) rest

inductive Command
  | instrument (path : String)
  | inspect (path : String) (component : Option String) (props : String) (format : Option String)
  | tokens (path : String)
  deriving DecidableEq, Repr

structure Invocation where
  config : Option String
  command : Command
  deriving DecidableEq, Repr

/-- The command of what was given for it. The props are empty unless they are given. -/
def Given.command (action : Action) (g : Given) : Except Refusal Command :=
  match action, g.paths with
  | .instrument, [path] => .ok (.instrument path)
  | .tokens, [path] => .ok (.tokens path)
  | .inspect, [path] =>
    .ok (.inspect path (g.get? .component) ((g.get? .props).getD "\x7b\x7d") (g.get? .format))
  | _, _ => .error .usage

/-- Help is asked for by name, alone or with the name of a command, of which it is one itself. -/
def readHelp : List String → Refusal
  | [] => .help .program
  | ["help"] => .help .help
  | [name] =>
    match Action.ofName? name with
    | some action => .help (.command action)
    | none => .usage
  | _ => .usage

/-- All arguments. A configuration behind the command counts before one in front of it. -/
def readInvocation (g : Given) : List String → Except Refusal Invocation
  | [] => .error .usage
  | a :: rest =>
    if isOption a then
      match readOption none a with
      | .help => .error (.help .program)
      | .version => .error .version
      | .unknown => .error .usage
      | .setting k (some value) => do readInvocation (← g.set k value) rest
      | .setting k none =>
        match rest with
        | [] => .error .usage
        | value :: rest =>
          if isOption value then .error .usage
          else do readInvocation (← g.set k value) rest
    else if a = "help" then .error (readHelp rest)
    else
      match Action.ofName? a with
      | none => .error .usage
      | some action => do
        let inner ← readArguments action .none rest
        let command ← inner.command action
        return ⟨(inner.get? .config).or (g.get? .config), command⟩

def Invocation.ofArguments (arguments : List String) : Except Refusal Invocation :=
  readInvocation .none arguments

end MarkupTrace.CommandLine
