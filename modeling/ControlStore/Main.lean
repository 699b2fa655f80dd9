import ControlStore.Command.Run

/-!
# The command

Runs the program on the real file system. The variable `MICROCODE_LOG` names the level down to
which notices are shown.
-/

namespace ControlStore

/-- The reason for a failed file operation. -/
def FileError.ofSystem : IO.Error → FileError
  | .noFileOrDirectory .. => .notFound
  | .alreadyExists .. => .alreadyExists
  | .inappropriateType _ 20 _ => .notADirectory
  | .inappropriateType _ 21 _ => .isADirectory
  | .inappropriateType _ code details => .other code.toNat details
  | .permissionDenied _ 13 _ => .permissionDenied
  | .permissionDenied _ code details => .other code.toNat details
  | .invalidArgument _ 36 _ => .nameTooLong
  | error => .other 0 (toString error)

/-- Carries out an operation, and gives the reason if it fails. -/
def attempt {α : Type} (action : IO α) : IO (Except FileError α) := do
  match ← action.toBaseIO with
  | .ok a => return .ok a
  | .error error => return .error (.ofSystem error)

/-- The file operations on the real file system. -/
def systemFiles : Files IO where
  standardInput := do return decodeText (← (← IO.getStdin).readBinToEnd)
  readFile path := do
    match ← attempt (IO.FS.Handle.mk path .read) with
    | .error error => return .error error
    | .ok handle =>
      match ← attempt handle.readBinToEnd with
      | .ok bytes => return .ok (decodeText bytes)
      | .error _ => return .ok (.error .isDirectory)
  makeDirectory path := attempt (IO.FS.createDir path)
  -- nothing but a directory can be entered
  isDirectory path := do return (← attempt (IO.FS.Handle.mk (path ++ "/.") .read)).toBool
  writeFile path text := attempt (IO.FS.writeFile path text)

end ControlStore

def main (arguments : List String) : IO UInt32 := do
  let level := ControlStore.Level.ofWish (← IO.getEnv "MICROCODE_LOG")
  let ending ← ControlStore.systemFiles.run arguments
  IO.eprint (ending.errorText level)
  IO.print ending.output
  return ending.exitCode.toUInt32
