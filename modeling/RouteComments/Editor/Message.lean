import RouteComments.Editor.Wire

set_option autoImplicit false

namespace RouteComments.Editor

open Text Json Json.Value

/-- A message of the editor; one with an identifier wants a response. -/
structure Message where
  method : String
  params : Option Value
  wantsResponse : Bool

/-- What the editor answers to a request to apply edits. -/
inductive EditAnswer where
  | applied
  | refused (reason : Option Text)
  | failed (error : Text)
  deriving DecidableEq, Repr

/-- Why a request is not carried out. -/
inductive RequestError where
  /-- The session has not begun. -/
  | notReady
  /-- The session has begun or ended already. -/
  | invalidRequest
  /-- The protocol has no such method. -/
  | unknownMethod (method : String)
  /-- The server does not serve the method. -/
  | unserved
  /-- The parameters do not fit the method. -/
  | invalidParams
  | unknownCommand (command : Text)
  deriving DecidableEq, Repr

namespace RequestError

def code : RequestError → Int
  | .notReady => -32002
  | .invalidRequest => -32600
  | .unknownMethod _ => -32601
  | .unserved => -32601
  | .invalidParams => -32602
  | .unknownCommand _ => -32602

def message : RequestError → Text
  | .notReady => "Server not initialized".toList
  | .invalidRequest => "Invalid request".toList
  | .unknownMethod _ => "Method not found".toList
  | .unserved => "Method not found".toList
  | .invalidParams => "Invalid params".toList
  | .unknownCommand command => "unknown command: ".toList ++ command

/-- What goes with the wording of an error. -/
def data? : RequestError → Option Text
  | .unknownMethod method => some method.toList
  | _ => none

end RequestError

inductive Response where
  | result (value : Value)
  | error (error : RequestError)

structure Notice where
  method : String
  params : Value

/-- How urgent a notice to the user is. -/
inductive Severity where
  | error
  | warning
  | info
  deriving DecidableEq, Repr

def Severity.number : Severity → Nat
  | .error => 1
  | .warning => 2
  | .info => 3

namespace Notice

def showMessage (severity : Severity) (message : Text) : Notice where
  method := "window/showMessage"
  params := ofFields [("type", .nat severity.number), ("message", .str message)]

def logMessage (severity : Severity) (message : Text) : Notice where
  method := "window/logMessage"
  params := ofFields [("type", .nat severity.number), ("message", .str message)]

def applyEdit (edit : WorkspaceEdit) : Notice where
  method := "workspace/applyEdit"
  params := ofFields [("edit", edit.toJson)]

end Notice

/-- What the server sends while it handles a message. -/
structure Reply where
  response : Option Response
  notices : List Notice

namespace Reply

/-- No answer. -/
def silent : Reply :=
  { response := none, notices := [] }

/-- A result and nothing else. -/
def result (value : Value) : Reply :=
  { response := some (.result value), notices := [] }

def refuse (message : Message) (error : RequestError) : Reply :=
  { response := if message.wantsResponse then some (.error error) else none, notices := [] }

end Reply

end RouteComments.Editor
