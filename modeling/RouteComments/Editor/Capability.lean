import RouteComments.Editor.Params

set_option autoImplicit false

namespace RouteComments.Editor.Capability

open Json Json.Field

/-- Truth values that may be left out. -/
def flags (names : List String) : List Field :=
  optionals .flag names

/-- Whether a feature can be switched on later. -/
def dynamic : Record :=
  .of (flags ["dynamicRegistration"])

def refresh : Record :=
  .of (flags ["refreshSupport"])

/-- The properties that are found out later. -/
def resolve : Record :=
  .of [required "properties" (.listOf .string)]

def markup : Shape :=
  .word ["plaintext", "markdown"]

/-- The kinds of formatted text in order of preference. -/
def markups (name : String) : Field :=
  optional name (.listOf markup)

def numbers : Record :=
  .of [optional "valueSet" (.listOf .signed)]

/-- The tags that are known; old editors say only whether there are any. -/
def tags : Field :=
  usual "tagSupport"
    (.nullable (.oneOf [.flag, (Record.of [required "valueSet" (.listOf .signed)]).shape]))

def workspaceEdit : Record :=
  .of [optional "documentChanges" .flag,
    optional "resourceOperations" (.listOf (.word ["create", "rename", "delete"])),
    optional "failureHandling" (.word ["abort", "transactional", "textOnlyTransactional", "undo"]),
    optional "normalizesLineEndings" .flag,
    optional "changeAnnotationSupport" (Record.of (flags ["groupsOnLabel"])).shape]

def workspace : Record :=
  .of ([optional "applyEdit" .flag, optional "workspaceEdit" workspaceEdit.shape,
    optional "didChangeConfiguration" dynamic.shape,
    optional "didChangeWatchedFiles" (Record.of (flags ["dynamicRegistration", "relativePatternSupport"])).shape,
    optional "symbol" (Record.of [optional "dynamicRegistration" .flag, optional "symbolKind" numbers.shape, tags,
      optional "resolveSupport" resolve.shape]).shape,
    optional "executeCommand" dynamic.shape] ++ flags ["workspaceFolders", "configuration"] ++
    [optional "semanticTokens" refresh.shape, optional "codeLens" refresh.shape,
    optional "fileOperations" (Record.of (flags ["dynamicRegistration", "didCreate", "willCreate", "didRename",
      "willRename", "didDelete", "willDelete"])).shape,
    optional "inlineValue" refresh.shape, optional "inlayHint" refresh.shape, optional "diagnostic" refresh.shape])

def completion : Record :=
  .of [optional "dynamicRegistration" .flag,
    optional "completionItem" (Record.of (flags ["snippetSupport", "commitCharactersSupport"] ++
      [markups "documentationFormat"] ++ flags ["deprecatedSupport", "preselectSupport"] ++
      [tags, optional "insertReplaceSupport" .flag, optional "resolveSupport" resolve.shape,
        optional "insertTextModeSupport" (Record.of [required "valueSet" (.listOf .signed)]).shape,
        optional "labelDetailsSupport" .flag])).shape,
    optional "completionItemKind" numbers.shape, optional "contextSupport" .flag,
    optional "insertTextMode" .signed,
    optional "completionList" (Record.of [optional "itemDefaults" (.listOf .string)]).shape]

def signatureHelp : Record :=
  .of [optional "dynamicRegistration" .flag,
    optional "signatureInformation" (Record.of [markups "documentationFormat",
      optional "parameterInformation" (Record.of (flags ["labelOffsetSupport"])).shape,
      optional "activeParameterSupport" .flag]).shape,
    optional "contextSupport" .flag]

def codeAction : Record :=
  .of [optional "dynamicRegistration" .flag,
    optional "codeActionLiteralSupport" (Record.of [required "codeActionKind"
      (Record.of [required "valueSet" (.listOf .string)]).shape]).shape,
    optional "isPreferredSupport" .flag, optional "disabledSupport" .flag, optional "dataSupport" .flag,
    optional "resolveSupport" resolve.shape, optional "honorsChangeAnnotations" .flag]

def semanticTokens : Record :=
  .of ([optional "dynamicRegistration" .flag,
    required "requests" (Record.of [optional "range" .flag, optional "full"
      (.oneOf [.flag, (Record.named (flags ["delta"])).shape])]).shape,
    required "tokenTypes" (.listOf .string), required "tokenModifiers" (.listOf .string),
    required "formats" (.listOf .string)] ++
    flags ["overlappingTokenSupport", "multilineTokenSupport", "serverCancelSupport", "augmentsSyntaxTokens"])

def goto : Record :=
  .of (flags ["dynamicRegistration", "linkSupport"])

def rename : Record :=
  .of [optional "dynamicRegistration" .flag, optional "prepareSupport" .flag,
    optional "prepareSupportDefaultBehavior" .signed, optional "honorsChangeAnnotations" .flag]

def foldingRange : Record :=
  .of [optional "dynamicRegistration" .flag, optional "rangeLimit" .unsigned, optional "lineFoldingOnly" .flag,
    optional "foldingRangeKind"
      (Record.of [optional "valueSet" (.listOf (.word ["comment", "imports", "region"]))]).shape,
    optional "foldingRange" (Record.of (flags ["collapsedText"])).shape]

def document : Record :=
  .of [
    optional "synchronization"
      (Record.of (flags ["dynamicRegistration", "willSave", "willSaveWaitUntil", "didSave"])).shape,
    optional "completion" completion.shape,
    optional "hover" (Record.of [optional "dynamicRegistration" .flag, markups "contentFormat"]).shape,
    optional "signatureHelp" signatureHelp.shape,
    optional "references" dynamic.shape,
    optional "documentHighlight" dynamic.shape,
    optional "documentSymbol" (Record.of [optional "dynamicRegistration" .flag,
      optional "symbolKind" numbers.shape, optional "hierarchicalDocumentSymbolSupport" .flag, tags]).shape,
    optional "formatting" dynamic.shape,
    optional "rangeFormatting" dynamic.shape,
    optional "onTypeFormatting" dynamic.shape,
    optional "declaration" goto.shape,
    optional "definition" goto.shape,
    optional "typeDefinition" goto.shape,
    optional "implementation" goto.shape,
    optional "codeAction" codeAction.shape,
    optional "codeLens" dynamic.shape,
    optional "documentLink" (Record.of (flags ["dynamicRegistration", "tooltipSupport"])).shape,
    optional "colorProvider" dynamic.shape,
    optional "rename" rename.shape,
    optional "publishDiagnostics" (Record.of ([optional "relatedInformation" .flag, tags] ++
      flags ["versionSupport", "codeDescriptionSupport", "dataSupport"])).shape,
    optional "foldingRange" foldingRange.shape,
    optional "selectionRange" dynamic.shape,
    optional "linkedEditingRange" dynamic.shape,
    optional "callHierarchy" dynamic.shape,
    optional "semanticTokens" semanticTokens.shape,
    optional "moniker" dynamic.shape,
    optional "typeHierarchy" dynamic.shape,
    optional "inlineValue" dynamic.shape,
    optional "inlayHint" (Record.of [optional "dynamicRegistration" .flag,
      optional "resolveSupport" resolve.shape]).shape,
    optional "diagnostic" (Record.of (flags ["dynamicRegistration", "relatedDocumentSupport"])).shape]

def window : Record :=
  .of [optional "workDoneProgress" .flag,
    optional "showMessage" (Record.of [optional "messageActionItem"
      (Record.of (flags ["additionalPropertiesSupport"])).shape]).shape,
    optional "showDocument" (Record.of [required "support" .flag]).shape]

def general : Record :=
  .of [
    optional "regularExpressions" (Record.of [required "engine" .string, optional "version" .string]).shape,
    optional "markdown" (Record.of [required "parser" .string, optional "version" .string,
      optional "allowedTags" (.listOf .string)]).shape,
    optional "staleRequestSupport" (Record.of [required "cancel" .flag,
      required "retryOnContentModified" (.listOf .string)]).shape,
    optional "positionEncodings" (.listOf .string)]

/-- All that an editor says it can do. -/
def all : Record :=
  .of [optional "workspace" workspace.shape, optional "textDocument" document.shape,
    optional "window" window.shape, optional "general" general.shape, optional "experimental" .any]

def versioned (value : Value) : Bool :=
  ((((all.part? "workspace" value).bind (workspace.part? "workspaceEdit")).bind
    (workspaceEdit.part? "documentChanges")).bind flag?).getD false

end RouteComments.Editor.Capability
