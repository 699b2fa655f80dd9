import ControlStore.Failure
import ControlStore.Text.Split

/-!
# File operations

What a run needs of its surroundings is a handful of file operations. `Files` is the record of
them, over the monad in which they take place, so the same run can take place on the real file
system or in a described one.

Directories are made one at a time. `Files.makeDirectories` starts at the innermost one, and goes
outwards only as long as the directory above is found to be missing.
-/

namespace ControlStore

/-- The file operations of a run. -/
structure Files (m : Type → Type) where
  /-- The text on standard input. -/
  standardInput : m (Except ReadFailure String)
  /-- Opens a file, which may fail, and reads it to its end, which may fail as well. -/
  readFile : String → m (Except FileError (Except ReadFailure String))
  /-- Makes a directory inside one that is there already. -/
  makeDirectory : String → m (Except FileError Unit)
  /-- Does the path lead to a directory? -/
  isDirectory : String → m Bool
  /-- Writes a file, over what was there before. -/
  writeFile : (path text : String) → m (Except FileError Unit)

/-- The segments of a path between its slashes. -/
def pathSegments (path : String) : List String := (splitAll '/' path.toList).map String.ofList

/-- The segments of a path that lead from one directory to another. -/
def pathNames (path : String) : List String :=
  (pathSegments path).filter fun segment => segment ≠ "" && segment ≠ "."

/-- What a path starts from: the root of the file system, or the current directory. -/
def pathRoot (path : String) : String := if path.toList.head? = some '/' then "/" else ""

/-- The path of a file in a directory. A slash stands between the two, unless there is one. -/
def joinPath (directory name : String) : String :=
  if directory = "" ∨ directory.toList.getLast? = some '/' then directory ++ name
  else directory ++ "/" ++ name

/-- The path of a directory whose names are given from the innermost one outwards. -/
def directoryPath (root : String) (names : List String) : String :=
  root ++ "/".intercalate names.reverse

namespace Files

variable {m : Type → Type} [Monad m]

/-- Makes a directory that need not be new, unless the one above is missing. -/
def ensureDirectory (files : Files m) (path : String) : m (Except FileError Unit) := do
  match ← files.makeDirectory path with
  | .ok () => return .ok ()
  | .error .notFound => return .error .notFound
  | .error error => if ← files.isDirectory path then return .ok () else return .error error

/-- Makes a directory after those above it that are missing, whose names are given from the
innermost one outwards. -/
def makeBelow (files : Files m) (root path : String) : List String → m (Except FileError Unit)
  | [] => files.ensureDirectory path
  | name :: above => do
    match ← files.ensureDirectory path with
    | .error .notFound =>
      match ← files.makeBelow root (directoryPath root (name :: above)) above with
      | .ok () => files.ensureDirectory path
      | failure => return failure
    | result => return result

/-- Makes a directory and all those above it that are missing. -/
def makeDirectories (files : Files m) (path : String) : m (Except FileError Unit) :=
  match (pathNames path).reverse with
  | [] => return .ok ()
  | _ :: above => files.makeBelow (pathRoot path) path above

end Files

end ControlStore
