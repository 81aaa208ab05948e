import RouteComments.Editor.TextEdit
import RouteComments.Editor.Uri.Basic
import RouteComments.FileTree.Search
import RouteComments.Keyed
import RouteComments.Path.Map
import RouteComments.Workspace.Host

set_option autoImplicit false

namespace RouteComments.Editor

open Text

/-- A scope in a workspace with the texts of the documents that are open. -/
structure Snapshot where
  /-- The directory or file to regenerate; without one the open documents are. -/
  scope : Option Path
  projectRoot : Option Path
  config : Config
  buffers : PathMap Text
  deriving DecidableEq, Repr

/-- Edits by the URI of their document. -/
abbrev Edits := List (Uri × List TextEdit)

/-- The edits of a workspace, with the versions of the documents if the editor wants them. -/
inductive WorkspaceEdit where
  | plain (edits : Edits)
  | versioned (documents : List (Uri × Option Int × List TextEdit))
  deriving DecidableEq, Repr

/-- The workspace edit of some edits. With versions, documents are sorted by URI, and one without a version
is not open. -/
def WorkspaceEdit.ofEdits (edits : Edits) : Option (List (Uri × Int)) → WorkspaceEdit
  | none => .plain edits
  | some versions =>
    let documents := edits.map fun (uri, found) => (uri, versions.lookup uri, found)
    .versioned (documents.mergeSort fun a b => precedes a.1.text b.1.text)

namespace Snapshot

/-- The snapshot of a scope. A configuration file that cannot be used counts as absent. -/
def ofScope (tree : FileTree) (scope : Option Path) (baseUrl : Option Text)
    (buffers : PathMap Text) : Snapshot :=
  let found := match scope.map tree.discoverConfig with
    | some (.ok config) => config
    | _ => Config.standard
  { scope, projectRoot := scope.map tree.findProjectRoot, config := found.withBaseUrl baseUrl, buffers }

/-- The text of a document: that of the editor, else that of the file. -/
def readDocument (snapshot : Snapshot) (tree : FileTree) (path : Path) : Except Failure Text :=
  match snapshot.buffers.get? path with
  | some text => .ok text
  | none =>
    match tree.read path with
    | .ok text => .ok text
    | .error fault => .error (.read path fault)

/-- The documents to regenerate. -/
def findFiles (snapshot : Snapshot) (tree : FileTree) : Except Failure (List Path) :=
  match snapshot.scope with
  | some scope => tree.walkSources scope snapshot.config
  | none =>
    .ok ((snapshot.buffers.paths.filter snapshot.config.acceptsPath).mergeSort Path.precedes)

def collect (edits : Edits) (doc : Document) (operations : List Operation) : Except Failure Edits :=
  if Operation.areOrdered operations then
    match Uri.ofPath? doc.path with
    | some uri => .ok (Keyed.put uri (TextEdit.ofOperations doc operations) edits)
    | none => .error (.rejected doc.path Failure.notAbsolute)
  else .error (.rejected doc.path Failure.unordered)

def projectFile? (snapshot : Snapshot) (tree : FileTree) (file : Text) : Option Text :=
  snapshot.projectRoot.bind fun root => (tree.read (root.join (.ofText file))).toOption

/-- The host over the edits collected so far. -/
def host (snapshot : Snapshot) (tree : FileTree) : Host Edits where
  findFiles _ := snapshot.findFiles tree
  read _ := snapshot.readDocument tree
  edit := collect
  setting _ key := snapshot.config.value? key
  projectFile _ := snapshot.projectFile? tree
  persists _ := true

end Snapshot

end RouteComments.Editor
