import MarkupTrace.Settings.Toml.Scalar

/-!
# Reading a settings file

A settings file has one entry to a line, a key and a value, and lines in brackets that say to which
table the entries behind them belong. `readToml` reads such a text into data. No key may be given
twice and no table opened twice.
-/

namespace MarkupTrace.Settings.Toml

/-- How a table came about. -/
inductive Origin
  /-- A line in brackets names it. -/
  | header
  /-- It only holds a table that is named. -/
  | implied
  /-- A key with dots made it. -/
  | dotted
  deriving DecidableEq, Repr

inductive Item where
  /-- Complete; nothing can be put in. -/
  | value (data : Data)
  | table (origin : Origin) (entries : List (String × Item))
  /-- Tables under one name; further entries go to the last. -/
  | tables (done : List (List (String × Item))) (last : List (String × Item))

abbrev Entries := List (String × Item)

mutual

def Item.toData : Item → Data
  | .value d => d
  | .table _ entries => .record (entriesToData entries)
  | .tables done last => .list (tablesToData done ++ [.record (entriesToData last)])

def entriesToData : List (String × Item) → List (String × Data)
  | [] => []
  | (k, item) :: es => (k, item.toData) :: entriesToData es

def tablesToData : List (List (String × Item)) → List Data
  | [] => []
  | t :: ts => .record (entriesToData t) :: tablesToData ts

end

/-! ## Tables -/

/-- Changes the item of a key, which may be missing. -/
def change (key : String) (f : Option Item → Option Item) : Entries → Option Entries
  | [] => (f none).map fun item => [(key, item)]
  | (k, item) :: es =>
    if k = key then (f (some item)).map fun item => (k, item) :: es
    else (change key f es).map ((k, item) :: ·)

/-- Changes the entries that lie under a key on the way to a table. -/
def descend (f : Entries → Option Entries) : Option Item → Option Item
  | none => (f []).map (.table .implied)
  | some (.table origin entries) => (f entries).map (.table origin)
  | some (.tables done last) => (f last).map (.tables done)
  | some (.value _) => none

/-- Changes the entries of the table that a path leads to. -/
def inside (f : Entries → Option Entries) : List String → Entries → Option Entries
  | [], entries => f entries
  | key :: path, entries => change key (descend (inside f path)) entries

/-- Opens the table that a line names. -/
def openTable : Option Item → Option Item
  | none => some (.table .header [])
  | some (.table .implied entries) => some (.table .header entries)
  | some _ => none

/-- Opens one more table under a name. -/
def openNext : Option Item → Option Item
  | none => some (.tables [] [])
  | some (.tables done last) => some (.tables (done ++ [last]) [])
  | some _ => none

/-- Opens a table at the end of a path. -/
def openAt (f : Option Item → Option Item) : List String → Entries → Option Entries
  | [], _ => none
  | [key], entries => change key f entries
  | key :: path, entries => change key (descend (openAt f path)) entries

/-- Puts in a value under a key, which may have several parts. On the way it goes through tables
that no line names, and into the last of several; but it ends in a table that dotted keys made. -/
def assign (data : Data) : List String → Entries → Option Entries
  | [], _ => none
  | [key], entries =>
    change key (fun
      | none => some (.value data)
      | some _ => none) entries
  | key :: next :: path, entries =>
    change key (fun
      | none => (assign data (next :: path) []).map (.table .dotted)
      | some (.table .dotted inner) => (assign data (next :: path) inner).map (.table .dotted)
      | some (.table .implied inner) =>
        if path.isEmpty then none else (assign data (next :: path) inner).map (.table .implied)
      | some (.tables done last) =>
        if path.isEmpty then none else (assign data (next :: path) last).map (.tables done)
      | some _ => none) entries

/-! ## Lines -/

def isKeyPart (c : Char) : Bool := c.isAlphanum || c = '_' || c = '-'

/-- One part of a key. -/
def simpleKey (cs : List Char) : Option (String × List Char) :=
  match cs with
  | '"' :: rest =>
    (quoted '"' (cs.length + 1) rest).map fun (xs, rest) => (String.ofList xs, rest)
  | '\x27' :: rest =>
    (quoted '\x27' (cs.length + 1) rest).map fun (xs, rest) => (String.ofList xs, rest)
  | _ =>
    let key := cs.takeWhile isKeyPart
    if key.isEmpty then none else some (String.ofList key, cs.dropWhile isKeyPart)

/-- The parts of a key, with dots between them; at most so many. -/
def keyOfParts : Nat → Reader (List String)
  | 0, _ => none
  | n + 1, cs => do
    let (part, rest) ← simpleKey (skipGaps cs)
    match skipGaps rest with
    | '.' :: rest => do
      let (parts, rest) ← keyOfParts n rest
      return (part :: parts, rest)
    | rest => return ([part], rest)

/-- How many parts a key may have, and how deep values may be nested. -/
def depthLimit : Nat := 79

def key : Reader (List String) := keyOfParts depthLimit

/-- Behind a comment, if one stands in front. -/
def skipComment : List Char → List Char
  | '#' :: cs => cs.dropWhile isPlain
  | cs => cs

/-- Behind blanks, line breaks and comments. -/
def skipSpace : Nat → List Char → List Char
  | 0, cs => cs
  | n + 1, cs =>
    let rest := skipComment (skipGaps cs)
    match lineBreak? rest with
    | some rest => skipSpace n rest
    | none => rest

/-- The rest of a list, or of an inline table, whose items are read by `item`. -/
def itemsTo {α : Type} (close : Char) (trailing : Bool) (skip : List Char → List Char)
    (item : Reader α) : Nat → Reader (List α)
  | 0, _ => none
  | n + 1, cs => do
    let (x, rest) ← item (skip cs)
    match skip rest with
    | ',' :: rest =>
      match skip rest with
      | c :: after =>
        if c = close then (if trailing then return ([x], after) else none)
        else do
          let (xs, rest) ← itemsTo close trailing skip item n (c :: after)
          return (x :: xs, rest)
      | [] => none
    | c :: rest => if c = close then return ([x], rest) else none
    | [] => none

def items {α : Type} (close : Char) (trailing : Bool) (skip : List Char → List Char)
    (item : Reader α) (cs : List Char) : Option (List α × List Char) :=
  match skip cs with
  | c :: rest =>
    if c = close then some ([], rest) else itemsTo close trailing skip item cs.length cs
  | [] => none

/-- A key and what stands behind its equals sign. -/
def entry (value : Reader Data) (cs : List Char) : Option ((List String × Data) × List Char) := do
  let (path, rest) ← key cs
  let rest ← expect "=" rest
  let (data, rest) ← value (skipGaps rest)
  return ((path, data), rest)

/-- The entries of an inline table. -/
def assignAll : List (List String × Data) → Entries → Option Entries
  | [], entries => some entries
  | (path, data) :: rest, entries => do assignAll rest (← assign data path entries)

/-- A value, with lists and inline tables nested at most so deep. -/
def value : Nat → Reader Data
  | 0, cs => scalar cs
  | n + 1, cs =>
    match cs with
    | '[' :: rest =>
      (items ']' true (skipSpace cs.length) (value n) rest).map fun (ds, rest) => (.list ds, rest)
    | '\x7b' :: rest => do
      let (given, rest) ← items '\x7d' false skipGaps (entry (value n)) rest
      return (.record (entriesToData (← assignAll given [])), rest)
    | _ => scalar cs

/-- Nothing stands in front but a comment, up to the end of the line. -/
def endLine (cs : List Char) : Option (List Char) :=
  match skipComment (skipGaps cs) with
  | [] => some []
  | rest => lineBreak? rest

/-- The tables so far, and the path of the one that entries go to. -/
structure Progress where
  root : Entries
  path : List String

/-- Reads one line, or a value over several lines. -/
def line (p : Progress) (cs : List Char) : Option (Progress × List Char) :=
  match skipGaps cs with
  | '[' :: '[' :: rest => do
    let (path, rest) ← key rest
    let rest ← endLine (← expect "]]" rest)
    return (⟨← openAt openNext path p.root, path⟩, rest)
  | '[' :: rest => do
    let (path, rest) ← key rest
    let rest ← endLine (← expect "]" rest)
    return (⟨← openAt openTable path p.root, path⟩, rest)
  | rest =>
    match endLine rest with
    | some rest => some (p, rest)
    | none => do
      let ((path, data), rest) ← entry (value depthLimit) rest
      let rest ← endLine rest
      return (⟨← inside (assign data path) p.path p.root, p.path⟩, rest)

def lines : Nat → Progress → List Char → Option Progress
  | _, p, [] => some p
  | 0, _, _ => none
  | n + 1, p, cs => do
    let (p, rest) ← line p cs
    lines n p rest

/-- Behind a byte order mark, if there is one in front. -/
def skipMark : List Char → List Char
  | '\uFEFF' :: cs => cs
  | cs => cs

end Toml

/-- The tables of a settings file as data; nothing if the text is not well formed. Up to two byte
order marks may stand in front. -/
def readToml (text : String) : Option (List (String × Data)) :=
  let cs := Toml.skipMark (Toml.skipMark text.toList)
  (Toml.lines (cs.length + 1) ⟨[], []⟩ cs).map fun p => Toml.entriesToData p.root

end MarkupTrace.Settings
