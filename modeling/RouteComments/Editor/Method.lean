import RouteComments.Editor.Protocol

set_option autoImplicit false

namespace RouteComments.Editor

open Json

/-- The notifications that are heeded, and all others. -/
inductive Notification where
  | initialized
  | didOpen
  | didChange
  | didClose
  | didChangeConfiguration
  | other
  deriving DecidableEq, Repr

inductive Request where
  | hover
  | documentSymbol
  | codeAction
  | executeCommand
  deriving DecidableEq, Repr

/-- The methods by how they are treated. -/
inductive Method where
  | handshake
  | shutdown
  | exit
  | cancel
  | notification (notification : Notification)
  | request (request : Request)
  /-- A request of the protocol that is not served. -/
  | unserved (params : Record)
  | unknown

/-- The notifications of the protocol that say nothing to this server. -/
def otherNotifications : List String :=
  ["textDocument/willSave", "textDocument/didSave", "workspace/didChangeWorkspaceFolders",
    "workspace/didChangeWatchedFiles", "workspace/didCreateFiles", "workspace/didRenameFiles",
    "workspace/didDeleteFiles"]

def Method.ofName (name : String) : Method :=
  match name with
  | "initialize" => .handshake
  | "shutdown" => .shutdown
  | "exit" => .exit
  | "$/cancelRequest" => .cancel
  | "initialized" => .notification .initialized
  | "textDocument/didOpen" => .notification .didOpen
  | "textDocument/didChange" => .notification .didChange
  | "textDocument/didClose" => .notification .didClose
  | "workspace/didChangeConfiguration" => .notification .didChangeConfiguration
  | "textDocument/hover" => .request .hover
  | "textDocument/documentSymbol" => .request .documentSymbol
  | "textDocument/codeAction" => .request .codeAction
  | "workspace/executeCommand" => .request .executeCommand
  | _ =>
    if otherNotifications.contains name then .notification .other
    else
      match Protocol.unserved.lookup name with
      | some params => .unserved params
      | none => .unknown

/-- Whether a method may be ignored by a server that does not know it. -/
def isOptional (name : String) : Bool :=
  "$/".toList.isPrefixOf name.toList

end RouteComments.Editor
