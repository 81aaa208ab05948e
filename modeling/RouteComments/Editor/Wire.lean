import RouteComments.Editor.Feature
import RouteComments.Editor.Snapshot
import RouteComments.Json.Value

set_option autoImplicit false

namespace RouteComments.Editor

open Text Json Json.Value

def Position.toJson (position : Position) : Value :=
  ofFields [("line", .nat position.line.toNat), ("character", .nat position.character.toNat)]

def Range.toJson (range : Range) : Value :=
  ofFields [("start", range.start.toJson), ("end", range.stop.toJson)]

def TextEdit.toJson (edit : TextEdit) : Value :=
  ofFields [("range", edit.range.toJson), ("newText", .str edit.newText)]

def Edits.toJson (edits : Edits) : Value :=
  .obj (edits.map fun (uri, found) => (uri.text, ofList TextEdit.toJson found))

def WorkspaceEdit.toJson : WorkspaceEdit → Value
  | .plain edits => ofFields [("changes", edits.toJson)]
  | .versioned documents =>
    ofFields [("documentChanges", ofList (fun (uri, version, edits) =>
      ofFields [("textDocument", ofFields [("uri", .str uri.text),
          ("version", ofOption (fun (number : Int) => .number number 0) version)]),
        ("edits", ofList TextEdit.toJson edits)]) documents)]

def Hover.toJson (hover : Hover) : Value :=
  ofFields [("contents", ofFields [("kind", .str "markdown".toList), ("value", .str hover.markdown)]),
    ("range", hover.range.toJson)]

def Symbol.methodKind : Nat := 6

def Symbol.toJson (symbol : Symbol) : Value :=
  let container := match symbol.container with
    | some name => [("containerName", .str name)]
    | none => []
  ofFields ([("name", .str symbol.name), ("kind", .nat Symbol.methodKind),
    ("location", ofFields [("uri", .str symbol.uri.text), ("range", symbol.range.toJson)])] ++ container)

def CodeAction.toJson (action : CodeAction) : Value :=
  ofFields [("title", .str CodeAction.title), ("kind", .str CodeAction.kind),
    ("edit", (WorkspaceEdit.plain [(action.uri, action.edits)]).toJson)]

/-- What the server can do, as JSON. -/
def capabilities : Value :=
  ofFields [
    ("textDocumentSync", ofFields [("openClose", .bool true), ("change", .nat 1), ("willSave", .bool false),
      ("willSaveWaitUntil", .bool false)]),
    ("hoverProvider", .bool true),
    ("codeActionProvider", ofFields [
      ("codeActionKinds", .arr [.str "source".toList, .str CodeAction.kind]),
      ("resolveProvider", .bool false)]),
    ("documentSymbolProvider", .bool true),
    ("executeCommandProvider", ofFields [("commands", .arr [.str regenerateCommand])])]

end RouteComments.Editor
