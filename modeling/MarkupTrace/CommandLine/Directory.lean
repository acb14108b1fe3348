import MarkupTrace.Text.Lines

/-!
# Reading from a directory

A command reads files by their paths. Here is what it finds if it runs in a directory that holds
files and no directories, and if nothing is known of what lies around that.
-/

namespace MarkupTrace.CommandLine

/-- Why a file could not be read. -/
inductive ReadError
  | notFound
  | denied
  | notDirectory
  | isDirectory
  | nameTooLong
  | notText
  deriving DecidableEq, Repr

def ReadError.message : ReadError → String
  | notFound => "No such file or directory (os error 2)"
  | denied => "Permission denied (os error 13)"
  | notDirectory => "Not a directory (os error 20)"
  | isDirectory => "Is a directory (os error 21)"
  | nameTooLong => "File name too long (os error 36)"
  | notText => "stream did not contain valid UTF-8"

/-- Reads the file of a path. -/
abbrev FileReader (m : Type → Type) := String → m (Except ReadError String)

/-- The parts of a path between its slashes. -/
def parts (path : String) : List String := (Text.splitAt '/' path.toList).map String.ofList

/-- A part that does not lead away from a directory. -/
def staysThere (part : String) : Bool := part = "" || part = "."

/-- The path with an extension behind its last name, if there is one. What stays there at the end is
left out. -/
def withExtension? (extension : String) (path : String) : Option String :=
  match (parts path).reverse.dropWhile staysThere with
  | [] => none
  | last :: before =>
    if last = ".." then none
    else some ("/".intercalate (before.reverse ++ [last ++ extension]))

/-- Files by their names. -/
structure Directory where
  files : List (String × String)

namespace Directory

/-- Where a path leads. -/
inductive Place
  /-- The directory itself. -/
  | here
  /-- A directory around it, or the root. -/
  | outside
  | file (text : String)
  deriving DecidableEq, Repr

/-- The most bytes in the name of a file. -/
def nameLimit : Nat := 255

/-- The most bytes in a path. -/
def pathLimit : Nat := 4095

def enter (dir : Directory) (part : String) : Place → Except ReadError Place
  | .file _ => .error .notDirectory
  | place =>
    if staysThere part then .ok place
    else if part = ".." then .ok .outside
    else if nameLimit < part.utf8ByteSize then .error .nameTooLong
    else match place, dir.files.lookup part with
      | .here, some text => .ok (.file text)
      | _, _ => .error .notFound

/-- Follows a path from the directory, or from the root if it starts with a slash. -/
def follow (dir : Directory) (path : String) : Except ReadError Place :=
  if path = "" then .error .notFound
  else if pathLimit < path.utf8ByteSize then .error .nameTooLong
  else
    let start : Place := if path.startsWith "/" then .outside else .here
    (parts path).foldlM (fun place part => dir.enter part place) start

def read (dir : Directory) : FileReader Id := fun path =>
  match dir.follow path with
  | .ok (.file text) => .ok text
  | .ok _ => .error .isDirectory
  | .error e => .error e

/-- No path leads on from a file. -/
theorem enter_file (dir : Directory) (part text : String) :
    dir.enter part (.file text) = .error .notDirectory := rfl

theorem enter_dot (dir : Directory) {place : Place} (h : ∀ text, place ≠ .file text) :
    dir.enter "." place = .ok place := by
  cases place with
  | file text => exact absurd rfl (h text)
  | here => rfl
  | outside => rfl

end Directory

end MarkupTrace.CommandLine
