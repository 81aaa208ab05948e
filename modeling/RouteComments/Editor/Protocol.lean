import RouteComments.Editor.Capability

set_option autoImplicit false

namespace RouteComments.Editor.Protocol

open Json Json.Field

/-- Parameters about a place, with progress and parts of the result. -/
def placeParams : Record :=
  .named (placeFields ++ tokenFields)

/-- A setting of the layout that the protocol does not name. -/
def layoutProperty : Shape :=
  .oneOf [.flag, .signed, .string]

/-- How to lay out a text; there may be further settings. -/
def layoutRecord : Record :=
  { fields := [required "tabSize" .unsigned, required "insertSpaces" .flag] ++
      optionals .flag ["trimTrailingWhitespace", "insertFinalNewline", "trimFinalNewlines"]
    positional := false
    others := layoutProperty }

def layoutField : Field :=
  required "options" layoutRecord.shape

/-- Files that are named by their URIs in some fields; these are any strings. -/
def fileParams (names : List String) : Record :=
  .of [required "files" (.listOf (Record.of (names.map fun name => required name .string)).shape)]

def colorRecord : Record :=
  .of (["red", "green", "blue", "alpha"].map fun part => required part .number)

def nodeRecord (tags : Shape) : Record :=
  .of [required "name" .string, required "kind" .signed, optional "tags" tags, optional "detail" .string,
    required "uri" uri, rangeField, required "selectionRange" rangeRecord.shape, optional "data" .any]

def callParams : Record :=
  .named (required "item" (nodeRecord (.listOf .signed)).shape :: tokenFields)

/-- Parameters about a node of a hierarchy of types, which has one tag. -/
def typeParams : Record :=
  .named (required "item" (nodeRecord .signed).shape :: tokenFields)

def frameRecord : Record :=
  .of [required "frameId" .signed, required "stoppedLocation" rangeRecord.shape]

def markupRecord : Record :=
  .of [required "kind" Capability.markup, required "value" .string]

def documentation : Shape :=
  .oneOf [.string, markupRecord.shape]

def textEditRecord : Record :=
  .of [rangeField, required "newText" .string]

def documentEditRecord : Record :=
  .of [required "textDocument" (Record.of [required "uri" uri, optional "version" .signed]).shape,
    required "edits" (.listOf textEditRecord.shape)]

/-- A kind of operation, by its name or by its place among the kinds. -/
def kindTag (kind : String) (place : Nat) : Shape
  | .str text => text == kind.toList
  | .number value 0 => value == (place : Int)
  | _ => false

def fileOperation (kind : String) (place : Nat) (fields : List Field) : Shape :=
  (Record.of (required "kind" (kindTag kind place) :: fields)).shape

/-- Whether an operation on files may replace another file. -/
def replaceField : Field :=
  optional "options" (Record.of (optionals .flag ["overwrite", "ignoreIfExists"])).shape

def documentOperation : Shape :=
  .oneOf [
    fileOperation "create" 0 [required "uri" uri, replaceField, optional "annotationId" .string],
    fileOperation "rename" 1 [required "oldUri" uri, required "newUri" uri, replaceField,
      optional "annotationId" .string],
    fileOperation "delete" 2 [required "uri" uri, optional "options" (Record.of
      (optionals .flag ["recursive", "ignoreIfNotExists"] ++ [optional "annotationId" .string])).shape],
    documentEditRecord.shape]

def workspaceEditRecord : Record :=
  .of [
    usual "changes" (.nullable (.mapOf (fun key => (Uri.parse? key).isSome) (.listOf textEditRecord.shape))),
    optional "documentChanges" (.oneOf [.listOf documentEditRecord.shape, .listOf documentOperation]),
    optional "changeAnnotations" (.mapOf (fun _ => true) (Record.of [required "label" .string,
      optional "needsConfirmation" .flag, optional "description" .string]).shape)]

def actionRecord : Record :=
  .of [required "title" .string, optional "kind" .string,
    optional "diagnostics" (.listOf diagnosticRecord.shape), optional "edit" workspaceEditRecord.shape,
    optional "command" commandRecord.shape, optional "isPreferred" .flag,
    optional "disabled" (Record.of [required "reason" .string]).shape, optional "data" .any]

def completionRecord : Record :=
  .of [required "label" .string,
    optional "labelDetails" (Record.of (optionals .string ["detail", "description"])).shape,
    optional "kind" .signed, optional "detail" .string, optional "documentation" documentation,
    optional "deprecated" .flag, optional "preselect" .flag, optional "sortText" .string,
    optional "filterText" .string, optional "insertText" .string, optional "insertTextFormat" .signed,
    optional "insertTextMode" .signed,
    optional "textEdit" (.oneOf [textEditRecord.shape, (Record.of [required "newText" .string,
      required "insert" rangeRecord.shape, required "replace" rangeRecord.shape]).shape]),
    optional "additionalTextEdits" (.listOf textEditRecord.shape), optional "command" commandRecord.shape,
    optional "commitCharacters" (.listOf .string), optional "data" .any, optional "tags" (.listOf .signed)]

def triggerRecord : Record :=
  .of [required "triggerKind" .signed, optional "triggerCharacter" .string]

def parameterRecord : Record :=
  .of [required "label" (.oneOf [.string, .tuple [.unsigned, .unsigned]]), optional "documentation" documentation]

def signatureRecord : Record :=
  .of [required "label" .string, optional "documentation" documentation,
    optional "parameters" (.listOf parameterRecord.shape), optional "activeParameter" .unsigned]

def signatureHelpRecord : Record :=
  .of [required "signatures" (.listOf signatureRecord.shape), optional "activeSignature" .unsigned,
    optional "activeParameter" .unsigned]

def signatureContextRecord : Record :=
  .of [required "triggerKind" .signed, optional "triggerCharacter" .string, required "isRetrigger" .flag,
    optional "activeSignatureHelp" signatureHelpRecord.shape]

def hintPartRecord : Record :=
  .of [required "value" .string, optional "tooltip" documentation, optional "location" locationRecord.shape,
    optional "command" commandRecord.shape]

def hintRecord : Record :=
  .of [required "position" positionRecord.shape,
    required "label" (.oneOf [.string, .listOf hintPartRecord.shape]), optional "kind" .signed,
    optional "textEdits" (.listOf textEditRecord.shape), optional "tooltip" documentation,
    optional "paddingLeft" .flag, optional "paddingRight" .flag, optional "data" .any]

def symbolRecord : Record :=
  .of [required "name" .string, required "kind" .signed, optional "tags" (.listOf .signed),
    optional "containerName" .string,
    required "location" (.oneOf [locationRecord.shape, identifierRecord.shape]), optional "data" .any]

/-- The requests that are not served, with the form of their parameters: parameters that do not fit are a fault of their
own. -/
def unserved : List (String × Record) :=
  [("textDocument/declaration", placeParams),
   ("textDocument/definition", placeParams),
   ("textDocument/typeDefinition", placeParams),
   ("textDocument/implementation", placeParams),
   ("textDocument/references", .named (placeFields ++ tokenFields ++
     [required "context" (Record.of [required "includeDeclaration" .flag]).shape])),
   ("textDocument/documentHighlight", placeParams),
   ("textDocument/completion", .named (placeFields ++ tokenFields ++ [optional "context" triggerRecord.shape])),
   ("textDocument/signatureHelp",
     .named (placeFields ++ [progressField, optional "context" signatureContextRecord.shape])),
   ("textDocument/rename", .named (placeFields ++ [required "newName" .string, progressField])),
   ("textDocument/prepareRename", .of placeFields),
   ("textDocument/moniker", placeParams),
   ("textDocument/linkedEditingRange", hoverParams),
   ("textDocument/prepareCallHierarchy", hoverParams),
   ("textDocument/prepareTypeHierarchy", hoverParams),
   ("textDocument/onTypeFormatting", .named (placeFields ++ [required "ch" .string, layoutField])),
   ("textDocument/documentLink", documentParams),
   ("textDocument/codeLens", documentParams),
   ("textDocument/foldingRange", documentParams),
   ("textDocument/documentColor", documentParams),
   ("textDocument/diagnostic",
     .named (documentField :: optionals .string ["identifier", "previousResultId"] ++ tokenFields)),
   ("textDocument/semanticTokens/full", documentParams),
   ("textDocument/semanticTokens/full/delta",
     .named ([documentField, required "previousResultId" .string] ++ tokenFields)),
   ("textDocument/semanticTokens/range", .named ([documentField, rangeField] ++ tokenFields)),
   ("textDocument/formatting", .named [documentField, layoutField, progressField]),
   ("textDocument/rangeFormatting", .named [documentField, rangeField, layoutField, progressField]),
   ("textDocument/selectionRange",
     .named ([documentField, required "positions" (.listOf positionRecord.shape)] ++ tokenFields)),
   ("textDocument/colorPresentation",
     .named ([documentField, required "color" colorRecord.shape, rangeField] ++ tokenFields)),
   ("textDocument/inlayHint", .named [documentField, rangeField, progressField]),
   ("textDocument/inlineValue",
     .named [documentField, rangeField, required "context" frameRecord.shape, progressField]),
   ("textDocument/willSaveWaitUntil", .of [documentField, required "reason" .signed]),
   ("workspace/symbol", .named (required "query" .string :: tokenFields)),
   ("workspace/diagnostic", .named ([optional "identifier" .string, required "previousResultIds"
     (.listOf (Record.of [required "uri" uri, required "value" .string]).shape)] ++ tokenFields)),
   ("workspace/willCreateFiles", fileParams ["uri"]),
   ("workspace/willRenameFiles", fileParams ["oldUri", "newUri"]),
   ("workspace/willDeleteFiles", fileParams ["uri"]),
   ("workspaceSymbol/resolve", symbolRecord),
   ("codeAction/resolve", actionRecord),
   ("codeLens/resolve", .of [rangeField, optional "command" commandRecord.shape, optional "data" .any]),
   ("completionItem/resolve", completionRecord),
   ("documentLink/resolve", .of [rangeField, optional "target" uri, optional "tooltip" .string,
     optional "data" .any]),
   ("inlayHint/resolve", hintRecord),
   ("callHierarchy/incomingCalls", callParams),
   ("callHierarchy/outgoingCalls", callParams),
   ("typeHierarchy/supertypes", typeParams),
   ("typeHierarchy/subtypes", typeParams)]

end RouteComments.Editor.Protocol
