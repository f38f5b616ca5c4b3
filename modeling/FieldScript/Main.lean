/-
# The program

The command line on the files of the system.
-/

import FieldScript.Command

namespace FieldScript

/-- The reason for which the system refused a file. -/
def FileError.ofSystem : IO.Error → FileError
  | .noFileOrDirectory _ _ _ => .notFound
  | .permissionDenied _ _ _ => .denied
  | .invalidArgument _ 36 _ => .nameTooLong
  | .inappropriateType _ 21 _ => .isADirectory
  | .inappropriateType _ _ _ => .notADirectory
  | e => .other (toString e)

/-- The files of the system. -/
def systemDisk : Disk IO where
  read path := do
    try return .ok (← IO.FS.readBinFile path).toList
    catch e => return .error (.ofSystem e)
  write path content := do
    try return .ok (← IO.FS.writeBinFile path content.toByteArray)
    catch e => return .error (.ofSystem e)

end FieldScript

def main (arguments : List String) : IO UInt32 := do
  let outcome ← FieldScript.Command.run FieldScript.systemDisk arguments
  for line in outcome.log do
    IO.eprintln line
  IO.print outcome.stdout
  unless outcome.stderr.isEmpty do
    IO.eprintln outcome.stderr
  return UInt32.ofNat outcome.exitCode
