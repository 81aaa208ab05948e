import RouteComments.Path.Map
import RouteComments.Workspace.Host

set_option autoImplicit false

namespace RouteComments

open Text

/-- How a write to a path fails. -/
inductive WriteFault where
  | denied
  | rejected (reason : Text)
  deriving DecidableEq, Repr

/-- The state of a host in memory. -/
structure Memory where
  files : PathMap Text
  projectFiles : List (Text × Text)
  baseUrl : Option Text
  /-- Paths that are found beside those of the files. They need no file, and one that is there can be read. -/
  unreadable : List Path
  /-- The spellings of paths that cannot be written. -/
  unwritable : List (Path × WriteFault)
  /-- Whether finding files fails. -/
  hidden : Bool
  persists : Bool
  /-- The files that cannot be read. Their paths are found too, and a read of one is refused before the files are looked
  at, whether or not there is a text. -/
  refused : List Path := []
  deriving DecidableEq, Repr

namespace Memory

/-- The paths that are found, in order. One that is found for two reasons is found twice. -/
def paths (memory : Memory) : List Path :=
  (memory.files.paths ++ (memory.unreadable ++ memory.refused)).mergeSort Path.precedes

def isRefused (memory : Memory) (path : Path) : Bool :=
  memory.refused.any (path.same ·)

/-- The text that a reader gets at a path. -/
def readable? (memory : Memory) (path : Path) : Option Text :=
  if memory.isRefused path then none else memory.files.get? path

def editFailure (path : Path) : WriteFault → Failure
  | .denied => .write path .denied
  | .rejected reason => .rejected path reason

/-- Keeps the edited text of a document, if edits are kept. -/
def keep (memory : Memory) (path : Path) (text : Text) : Memory :=
  if memory.persists then { memory with files := memory.files.put path text } else memory

def host : Host Memory where
  findFiles memory :=
    if memory.hidden then .error (.rejected (.ofText "workspace".toList) "no workspace".toList)
    else .ok memory.paths
  read memory path :=
    match memory.readable? path with
    | some text => .ok text
    | none => .error (.read path .denied)
  edit memory doc operations :=
    match memory.unwritable.lookup doc.path with
    | some fault => .error (editFailure doc.path fault)
    | none => .ok (memory.keep doc.path (doc.edited operations))
  setting memory key := if key = "baseUrl".toList then memory.baseUrl else none
  projectFile memory file := memory.projectFiles.lookup file
  persists memory := memory.persists

end Memory

end RouteComments
