import RouteComments.Editor.Message
import RouteComments.Editor.Settings
import RouteComments.Editor.Store
import RouteComments.Report.Format

set_option autoImplicit false

namespace RouteComments.Editor

open Text Json

inductive Phase where
  | fresh
  | ready
  | shutDown
  | exited
  deriving DecidableEq, Repr

structure Session where
  phase : Phase
  root : Option Path
  /-- Whether the editor takes edits with versions. -/
  versioned : Bool
  settings : Settings
  documents : Store
  deriving DecidableEq, Repr

namespace Session

/-- A session before its first message. -/
def start : Session where
  phase := .fresh
  root := none
  versioned := false
  settings := { baseUrl := none }
  documents := []

def workspace (session : Session) (tree : FileTree) : Snapshot :=
  Snapshot.ofScope tree session.root session.settings.baseUrl session.documents.buffers

def openDocument? (session : Session) (tree : FileTree) (uri : Uri) : Option (Document × Annotator) :=
  (session.documents.lookup uri).map fun found =>
    let snapshot := Snapshot.ofScope tree uri.filePath? session.settings.baseUrl []
    let baseUrl := (snapshot.host tree).baseUrl []
    ({ path := uri.filePath?.getD (.ofText uri.path), text := found.content }, Annotator.ofBaseUrl baseUrl)

def workspaceEdit (session : Session) (edits : Edits) : WorkspaceEdit :=
  WorkspaceEdit.ofEdits edits (if session.versioned then some session.documents.versions else none)

/-- Why edits were not applied. -/
def refusal? : EditAnswer → Option Text
  | .applied => none
  | .refused reason => some (reason.getD "rejected by the editor".toList)
  | .failed error => some error

def closing (summary : Summary) : Notice :=
  Notice.showMessage (if summary.failures.isEmpty then .info else .warning) summary.message

/-- The notices about documents that could not be regenerated. -/
def warnings (summary : Summary) : List Notice :=
  summary.failures.filterMap fun report =>
    report.error.map fun error => Notice.logMessage .warning ("Endpoint comments: ".toList ++ error)

/-- Regenerates the workspace; the editor answers a request to apply edits with `answer`. -/
def regenerate (session : Session) (tree : FileTree) (answer : EditAnswer) : Reply :=
  match ((session.workspace tree).host tree).regenerate [] with
  | .error failure =>
    { response := some (.result .null)
      notices := [Notice.showMessage .error ("Endpoint comments: ".toList ++ failure.message)] }
  | .ok (summary, edits) =>
    if edits.isEmpty then
      { response := some (.result (summary.toJson?.getD .null))
        notices := warnings summary ++ [closing summary] }
    else
      let request := Notice.applyEdit (session.workspaceEdit edits)
      match refusal? answer with
      | some reason =>
        { response := some (.result .null)
          notices := warnings summary ++ [request,
            Notice.showMessage .warning ("Endpoint comments were not applied: ".toList ++ reason)] }
      | none =>
        { response := some (.result (summary.toJson?.getD .null))
          notices := warnings summary ++ [request, closing summary] }

def command (session : Session) (tree : FileTree) (answer : EditAnswer) (name : Text) : Reply :=
  if name = regenerateCommand then session.regenerate tree answer
  else { response := some (.error (.unknownCommand name)), notices := [] }

/-- What is shown at a line of a document. -/
def hover (session : Session) (tree : FileTree) (uri : Uri) (line : UInt32) : Option Hover :=
  (session.openDocument? tree uri).bind fun (doc, annotator) => Hover.at? annotator doc line

/-- The outline of a document. -/
def symbols (session : Session) (tree : FileTree) (uri : Uri) : List Symbol :=
  match session.openDocument? tree uri with
  | some (doc, annotator) => Symbol.all annotator doc uri
  | none => []

/-- The action offered for a document. -/
def codeAction? (session : Session) (tree : FileTree) (uri : Uri) (only : Option (List Text)) :
    Option CodeAction :=
  (session.openDocument? tree uri).bind fun (doc, annotator) => CodeAction.for? annotator doc uri only

end Session

end RouteComments.Editor
