import RouteComments.FileTree.Search
import RouteComments.Workspace.Host

set_option autoImplicit false

namespace RouteComments

/-- A target in a file tree and how it is treated. -/
structure Disk where
  target : Path
  projectRoot : Path
  config : Config
  writes : Bool
  deriving DecidableEq, Repr

namespace Disk

def ofTarget (tree : FileTree) (target : Path) (config : Config) : Disk :=
  { target, projectRoot := tree.findProjectRoot target, config, writes := true }

/-- The host that keeps no edits. -/
def dryRun (disk : Disk) : Disk :=
  { disk with writes := false }

def readDocument (tree : FileTree) (path : Path) : Except Failure Text :=
  match tree.read path with
  | .ok text => .ok text
  | .error fault => .error (.read path fault)

/-- Writes the edited text of a document back. -/
def editDocument (disk : Disk) (tree : FileTree) (doc : Document) (operations : List Operation) :
    Except Failure FileTree :=
  if Operation.areOrdered operations then
    if disk.writes then
      match tree.write doc.path (doc.edited operations) with
      | .ok next => .ok next
      | .error fault => .error (.write doc.path fault)
    else .ok tree
  else .error (.rejected doc.path Failure.unordered)

/-- The host over the states of a file tree. A dry run checks edits like a real run and keeps none. -/
def host (disk : Disk) : Host FileTree where
  findFiles tree := tree.walkSources disk.target disk.config
  read := readDocument
  edit := disk.editDocument
  setting _ key := disk.config.value? key
  projectFile tree file := (tree.read (disk.projectRoot.join (.ofText file))).toOption
  persists _ := disk.writes

end Disk

end RouteComments
