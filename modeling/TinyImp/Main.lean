import TinyImp.Command.Run

/-!
# The command

The command line on the files of the system.
-/

namespace TinyImp

/-- The cause of a failure for which the system has a number. -/
def FileError.ofCode (code : UInt32) (details : String) : FileError :=
  match code with
  | 2 => .noSuchFile
  | 20 => .notDirectory
  | 21 => .isDirectory
  | 36 => .nameTooLong
  | code => .system code.toNat details

/-- The cause of a failure that the system reports. -/
def FileError.ofSystem : IO.Error → FileError
  | .noFileOrDirectory _ code details => .ofCode code details
  | .inappropriateType _ code details => .ofCode code details
  | .invalidArgument _ code details => .ofCode code details
  | .permissionDenied _ code details => .ofCode code details
  | .resourceExhausted _ code details => .ofCode code details
  | .resourceBusy code details => .ofCode code details
  | .hardwareFault code details => .ofCode code details
  | .otherError code details => .ofCode code details
  | e => .system 0 (toString e)

/-- The files of the system. -/
instance : Files IO where
  read path := do
    try
      let handle ← IO.FS.Handle.mk path .read
      pure (.ok (← handle.readBinToEnd))
    catch e =>
      pure (.error (.ofSystem e))
  write path bytes := do
    try
      IO.FS.writeBinFile path bytes
      pure (.ok ())
    catch e =>
      pure (.error (.ofSystem e))

end TinyImp

/-- Runs the command, prints what it shows, and returns its exit code. -/
def main (args : List String) : IO UInt32 := do
  let outcome : TinyImp.Outcome ← TinyImp.runCommand args
  IO.print outcome.stdout
  IO.eprint outcome.stderr
  return outcome.exitCode.toUInt32
