import CompatChanges.Command.Run

/-!
The command itself: arguments, files and streams of the process.
-/

namespace CompatChanges.Command

/-- Whether `code` is the number of an error, which comes with either sign. -/
def isCode (code number : UInt32) : Bool := code = number || code = 0 - number

/-- The fault that an error of the file system stands for. -/
def faultOf (error : IO.Error) : FileFault :=
  match error with
  | .noFileOrDirectory .. => .notFound
  | .inappropriateType _ code _ => if isCode code 21 then .isDirectory else .notDirectory
  | .invalidArgument _ code details => if isCode code 36 then .nameTooLong else .other details
  | .permissionDenied .. => .other "Permission denied (os error 13)"
  | error => .other (toString error)

def disk : FileAccess IO where
  read path := do
    try return .ok (← IO.FS.readBinFile path).toList
    catch error => return .error (faultOf error)
  write path contents := do
    try
      IO.FS.writeBinFile path contents.toByteArray
      return .ok ()
    catch error => return .error (faultOf error)

end CompatChanges.Command

def main (arguments : List String) : IO UInt32 := do
  let outcome ← CompatChanges.Command.run CompatChanges.Command.disk arguments
  IO.print outcome.stdout
  let stderr ← IO.getStderr
  stderr.write outcome.stderr.toByteArray
  return UInt32.ofNat outcome.exitCode
