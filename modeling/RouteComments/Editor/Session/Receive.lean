import RouteComments.Editor.Method
import RouteComments.Editor.Session.Basic

set_option autoImplicit false

namespace RouteComments.Editor

open Text Json Json.Value

/-- A list as JSON, with null for the empty list. -/
def nonemptyJson {α : Type} (encode : α → Value) : List α → Value
  | [] => .null
  | items => ofList encode items

/-- What the server says about itself when a session begins. -/
def greeting : Value :=
  ofFields [("capabilities", capabilities),
    ("serverInfo", ofFields [("name", .str "endpoint-comments-lsp".toList), ("version", .str "0.1.0".toList)])]

namespace Session

/-- The parameters of the first message. -/
def startParams : Record :=
  .of [.optional "processId" .unsigned, .optional "rootPath" .string, .usual "rootUri" (.nullable uri),
    .optional "initializationOptions" .any, .required "capabilities" Capability.all.shape,
    .usual "trace" (.nullable (.word ["off", "messages", "verbose"])),
    .optional "workspaceFolders" (.listOf folderRecord.shape),
    .optional "clientInfo" (Record.of [.required "name" .string, .optional "version" .string]).shape,
    .optional "locale" .string]

def firstFolder? : Value → Option Uri
  | .arr (folder :: _) => (folderRecord.part? "uri" folder).bind uri?
  | _ => none

/-- The session after its first message, from the parameters of that message. -/
def started? (session : Session) (value : Value) : Option Session := do
  let params ← checked? startParams value
  let folder := (startParams.part? "workspaceFolders" params).bind firstFolder?
  let rootUri := (startParams.part? "rootUri" params).bind uri?
  let options := (startParams.part? "initializationOptions" params).bind (nullable? Settings.parse?)
  some { session with
    phase := .ready
    root := (folder.or rootUri).bind Uri.filePath?
    versioned := ((startParams.part? "capabilities" params).map Capability.versioned).getD false
    settings := options.getD session.settings }

/-- The session after a notification; `none` if its parameters do not fit or it says nothing. -/
def notified? (session : Session) (value : Value) : Notification → Option Session
  | .didOpen => do
    let params ← checked? openParams value
    let document ← openParams.part? "textDocument" params
    let opened : OpenDocument :=
      { content := ← (documentRecord.part? "text" document).bind string?
        version := ← (documentRecord.part? "version" document).bind version? }
    some { session with documents := session.documents.put (← documentUri? openParams params) opened }
  | .didChange => do
    let params ← checked? changeParams value
    let document ← changeParams.part? "textDocument" params
    let version ← (versionedRecord.part? "version" document).bind version?
    let changes ← changeParams.part? "contentChanges" params
    let texts ← items? (fun change => (changeRecord.part? "text" change).bind string?) changes
    some { session with
      documents := session.documents.change (← documentUri? changeParams params) version texts }
  | .didClose => do
    let params ← checked? closeParams value
    some { session with documents := session.documents.close (← documentUri? closeParams params) }
  | .didChangeConfiguration => do
    let params ← checked? settingsParams value
    let settings ← (settingsParams.part? "settings" params).bind Settings.parse?
    some { session with settings }
  | .initialized => none
  | .other => none

/-- The answer to a request; `none` if its parameters do not fit. -/
def served? (session : Session) (tree : FileTree) (answer : EditAnswer) (value : Value) :
    Request → Option Reply
  | .hover => do
    let params ← checked? hoverParams value
    let uri ← documentUri? hoverParams params
    some (.result (ofOption Hover.toJson (session.hover tree uri (← line? params))))
  | .documentSymbol => do
    let params ← checked? documentParams value
    let uri ← documentUri? documentParams params
    some (.result (nonemptyJson Symbol.toJson (session.symbols tree uri)))
  | .codeAction => do
    let params ← checked? actionParams value
    let uri ← documentUri? actionParams params
    let action := session.codeAction? tree uri (wantedKinds params)
    some (.result (nonemptyJson CodeAction.toJson action.toList))
  | .executeCommand => do
    let params ← checked? commandParams value
    some (session.command tree answer (← (commandParams.part? "command" params).bind string?))

/-- The error for a message outside the ready phase. -/
def phaseError (session : Session) : RequestError :=
  if session.phase = .fresh then .notReady else .invalidRequest

def begin (session : Session) (message : Message) : Session × Reply :=
  if session.phase = .fresh then
    if message.wantsResponse then
      match message.params.bind session.started? with
      | some started => (started, .result greeting)
      | none => (session, Reply.refuse message .invalidParams)
    else (session, Reply.silent)
  else (session, Reply.refuse message .invalidRequest)

/-- Handles the message that ends the work of the session. -/
def shut (session : Session) (message : Message) : Session × Reply :=
  if session.phase = .ready then
    let ended := { session with phase := .shutDown }
    if message.params.isSome then (ended, Reply.refuse message .invalidParams)
    else (ended, if message.wantsResponse then Reply.result .null else Reply.silent)
  else (session, Reply.refuse message session.phaseError)

/-- What the server says to a notification. -/
def notice (value : Value) : Notification → Reply
  | .initialized =>
    if (Record.of []).shape value then
      { response := none, notices := [Notice.logMessage .info "Endpoint comments server ready".toList] }
    else Reply.silent
  | _ => Reply.silent

/-- Handles a notification. One that asks for a response is refused. -/
def notify (session : Session) (message : Message) (notification : Notification) : Session × Reply :=
  if message.wantsResponse then (session, Reply.refuse message .invalidRequest)
  else
    match message.params with
    | some params => ((session.notified? params notification).getD session, notice params notification)
    | none => (session, Reply.silent)

/-- Handles a request. One that does not ask for a response is ignored. -/
def serve (session : Session) (tree : FileTree) (answer : EditAnswer) (message : Message)
    (request : Request) : Reply :=
  if message.wantsResponse then
    (message.params.bind (session.served? tree answer · request)).getD (Reply.refuse message .invalidParams)
  else Reply.silent

/-- Handles a request that is not served. -/
def decline (message : Message) (params : Record) : Reply :=
  Reply.refuse message (if message.params.any params.shape then .unserved else .invalidParams)

def receive (session : Session) (tree : FileTree) (answer : EditAnswer) (message : Message) :
    Session × Reply :=
  match Method.ofName message.method with
  | .exit => ({ session with phase := .exited }, Reply.silent)
  | .cancel => (session, Reply.refuse message .invalidRequest)
  | .handshake => session.begin message
  | .shutdown => session.shut message
  | .unknown =>
    (session, if isOptional message.method then Reply.silent
      else Reply.refuse message (.unknownMethod message.method))
  | .notification notification =>
    if session.phase = .ready then session.notify message notification
    else (session, Reply.refuse message session.phaseError)
  | .request request =>
    (session, if session.phase = .ready then session.serve tree answer message request
      else Reply.refuse message session.phaseError)
  | .unserved params =>
    (session, if session.phase = .ready then decline message params
      else Reply.refuse message session.phaseError)

end Session

end RouteComments.Editor
