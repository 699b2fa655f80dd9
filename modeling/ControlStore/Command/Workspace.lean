import ControlStore.Command.Run

/-!
# Workspaces

A `Workspace` describes a file system and the directory in it where a run takes place. A run in a
workspace answers as a run on a file system would: paths are walked segment by segment, and each
operation fails for the reason that is found first.

No path leads into the current directory from outside, since its name is empty. So all that a run
can reach through the root or through the directories above is what is there in every workspace.
-/

namespace ControlStore

/-- A file with its contents, or a directory with its entries. -/
inductive Node where
  | file (contents : Except ReadFailure String)
  | directory (entries : List (String × Node))

namespace Node

/-- The entry of a directory under a name. -/
def child? : Node → String → Option Node
  | .file _, _ => none
  | .directory entries, name => entries.lookup name

/-- Puts a node at a place below what was there before. What stands in the way gives way to a
directory. -/
def put : Option Node → List String → Node → Node
  | _, [], new => new
  | some (.directory entries), name :: names, new =>
    .directory ((name, put (entries.lookup name) names new) :: entries.filter (·.1 ≠ name))
  | _, name :: names, new => .directory [(name, put none names new)]

end Node

/-- The way from the root to a place: the names of the directories and what is found under them,
the innermost one first. Only at the place itself there may be nothing. -/
abbrev Trail := List (String × Option Node)

/-- A file system, seen from a directory in it, and the text on standard input. -/
structure Workspace where
  root : Node
  input : Except ReadFailure String

namespace Workspace

/-- The names that lead from the root to the current directory. -/
def home : List String := ["tmp", ""]

/-- A workspace in which the current directory is empty. -/
def ofInput (input : Except ReadFailure String) : Workspace where
  root :=
    .directory [
      ("tmp", .directory [("", .directory [])]),
      ("dev", .directory [("null", .file (.ok "")), ("stdin", .file input)])]
  input

/-- What is at the end of a trail. -/
def node? (workspace : Workspace) : Trail → Option Node
  | [] => some workspace.root
  | (_, node) :: _ => node

/-- The trail to an entry of the directory at the end of a trail. -/
def descend (workspace : Workspace) (trail : Trail) (name : String) : Trail :=
  (name, (workspace.node? trail).bind (·.child? name)) :: trail

/-- Goes one segment on, which has to lead out of a directory. A name has at most 255 bytes. -/
def enter (workspace : Workspace) (trail : Trail) (segment : String) : Except FileError Trail :=
  match workspace.node? trail with
  | none => .error .notFound
  | some (.file _) => .error .notADirectory
  | some (.directory _) =>
    if segment = "" ∨ segment = "." then .ok trail
    else if segment = ".." then .ok trail.tail
    else if 255 < segment.utf8ByteSize then .error .nameTooLong
    else .ok (workspace.descend trail segment)

/-- Refuses the empty path, and paths of 4096 bytes and more. -/
def checkPath (path : String) : Except FileError Unit :=
  if path = "" then .error .notFound
  else if 4096 ≤ path.utf8ByteSize then .error .nameTooLong
  else .ok ()

/-- The trail along the segments of a path, which starts at the root or in the current
directory. -/
def follow (workspace : Workspace) (root : String) (segments : List String) :
    Except FileError Trail :=
  let start := if root = "" then home.foldl workspace.descend [] else []
  segments.foldlM workspace.enter start

/-- The trail that a path leads along. There need not be anything at its end. -/
def locate (workspace : Workspace) (path : String) : Except FileError Trail := do
  checkPath path
  workspace.follow (pathRoot path) (pathSegments path)

/-- Opens a file and reads it. A directory can be opened, but not be read. -/
def readFile (workspace : Workspace) (path : String) :
    Except FileError (Except ReadFailure String) := do
  match workspace.node? (← workspace.locate path) with
  | none => throw .notFound
  | some (.file contents) => return contents
  | some (.directory _) => return .error .isDirectory

/-- The workspace with a new node at the end of a trail. -/
def place (workspace : Workspace) (trail : Trail) (node : Node) : Workspace :=
  { workspace with root := .put workspace.root (trail.reverse.map Prod.fst) node }

/-- Makes a directory. Slashes at the end of its path do not count. -/
def makeDirectory (workspace : Workspace) (path : String) : Except FileError Workspace := do
  checkPath path
  let segments := (pathSegments path).reverse.dropWhile (· = "")
  let trail ← workspace.follow (pathRoot path) segments.reverse
  match workspace.node? trail with
  | none => return workspace.place trail (.directory [])
  | some _ => throw .alreadyExists

/-- Does the path lead to a directory? -/
def leadsToDirectory (workspace : Workspace) (path : String) : Bool :=
  match (workspace.locate path).map workspace.node? with
  | .ok (some (.directory _)) => true
  | _ => false

/-- Writes a file, over what was there before. -/
def writeFile (workspace : Workspace) (path text : String) : Except FileError Workspace := do
  let trail ← workspace.locate path
  match workspace.node? trail with
  | some (.directory _) => throw .isADirectory
  | _ => return workspace.place trail (.file (.ok text))

/-- Adds a file to the current directory, together with the directories on the way to it. -/
def addFile (workspace : Workspace) (path text : String) : Workspace :=
  { workspace with root := .put workspace.root (home ++ pathNames path) (.file (.ok text)) }

/-- The text of the file at a path, if there is one. -/
def text? (workspace : Workspace) (path : String) : Option String :=
  match workspace.readFile path with
  | .ok (.ok text) => some text
  | _ => none

/-- Carries out a change of the workspace, which stays as it is if the change fails. -/
def change (f : Workspace → Except FileError Workspace) :
    StateM Workspace (Except FileError Unit) := fun workspace =>
  match f workspace with
  | .ok changed => (.ok (), changed)
  | .error error => (.error error, workspace)

/-- The file operations in a workspace. -/
def operations : Files (StateM Workspace) where
  standardInput := do return (← get).input
  readFile path := do return (← get).readFile path
  makeDirectory path := change (·.makeDirectory path)
  isDirectory path := do return (← get).leadsToDirectory path
  writeFile path text := change (·.writeFile path text)

/-- Runs the program in a workspace, and gives the workspace that it leaves. -/
def run (workspace : Workspace) (arguments : List String) : Ending × Workspace :=
  (operations.run arguments).run workspace

end Workspace

end ControlStore
