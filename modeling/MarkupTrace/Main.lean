import MarkupTrace.CommandLine.Run

/-!
# The program

Runs the command that the arguments give on the files of the system.
-/

namespace MarkupTrace.CommandLine

/-- Reads a file of the system. A directory can be opened but not read, and the error of a failed
read names no file. -/
def readSystemFile : FileReader IO := fun path => do
  try
    let bytes ← IO.FS.readBinFile path
    match String.fromUTF8? bytes with
    | some text => return .ok text
    | none => return .error .notText
  catch
    | .permissionDenied _ _ _ => return .error .denied
    | .inappropriateType none _ _ => return .error .isDirectory
    | .inappropriateType (some _) _ _ => return .error .notDirectory
    | .invalidArgument _ _ _ => return .error .nameTooLong
    | _ => return .error .notFound

end MarkupTrace.CommandLine

open MarkupTrace.CommandLine in
def main (arguments : List String) : IO UInt32 := do
  let outcome ← run readSystemFile arguments
  IO.print outcome.stdout
  IO.eprint outcome.stderr
  return outcome.status.toUInt32
