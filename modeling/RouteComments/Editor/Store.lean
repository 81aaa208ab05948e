import RouteComments.Editor.Uri.Basic
import RouteComments.Keyed
import RouteComments.Path.Map

set_option autoImplicit false

namespace RouteComments.Editor

open Text

structure OpenDocument where
  content : Text
  version : Int
  deriving DecidableEq, Repr

/-- The open documents by URI. -/
abbrev Store := List (Uri × OpenDocument)

namespace Store

/-- Opens a document, in place of one already open under its URI. -/
def put (uri : Uri) (document : OpenDocument) (store : Store) : Store :=
  Keyed.put uri document store

/-- Changes a document that is open to the last of some texts. -/
def change (uri : Uri) (version : Int) (texts : List Text) (store : Store) : Store :=
  match texts.getLast? with
  | some content => Keyed.change uri { content, version } store
  | none => store

/-- Closes a document. -/
def close (uri : Uri) (store : Store) : Store :=
  Keyed.erase uri store

/-- The open documents that are files, with their paths. -/
def files (store : Store) : List (Path × OpenDocument) :=
  store.filterMap fun (uri, document) => uri.filePath?.map fun path => (path, document)

def buffers (store : Store) : PathMap Text :=
  .ofList (store.files.map fun (path, document) => (path, document.content))

/-- The versions of the open files by the URIs of their paths. -/
def versions (store : Store) : List (Uri × Int) :=
  Keyed.ofList (store.files.filterMap fun (path, document) =>
    (Uri.ofPath? path).map fun uri => (uri, document.version))

end Store

end RouteComments.Editor
