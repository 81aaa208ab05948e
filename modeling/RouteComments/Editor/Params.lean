import RouteComments.Editor.TextEdit
import RouteComments.Editor.Uri.Basic
import RouteComments.Json.Shape

set_option autoImplicit false

namespace RouteComments.Editor

open Text Json Json.Field

def string? : Value → Option Text
  | .str text => some text
  | _ => none

def flag? : Value → Option Bool
  | .bool value => some value
  | _ => none

/-- A signed number of 32 bits. -/
def version? (value : Value) : Option Int :=
  match value with
  | .number mantissa 0 => if Shape.signed value then some mantissa else none
  | _ => none

def unsigned? (value : Value) : Option UInt32 :=
  match value with
  | .number mantissa 0 => if Shape.unsigned value then some (UInt32.ofNat mantissa.toNat) else none
  | _ => none

def items? {α : Type} (decode : Value → Option α) : Value → Option (List α)
  | .arr items => items.mapM decode
  | _ => none

def nullable? {α : Type} (decode : Value → Option α) : Value → Option α
  | .null => none
  | value => decode value

def uri? (value : Value) : Option Uri :=
  (string? value).bind Uri.parse?

def uri : Shape :=
  fun value => (uri? value).isSome

def positionRecord : Record :=
  .of [required "line" .unsigned, required "character" .unsigned]

def rangeRecord : Record :=
  .of [required "start" positionRecord.shape, required "end" positionRecord.shape]

def locationRecord : Record :=
  .of [required "uri" uri, required "range" rangeRecord.shape]

def identifierRecord : Record :=
  .of [required "uri" uri]

/-- The name of a version of a document. -/
def versionedRecord : Record :=
  .of [required "uri" uri, required "version" .signed]

def documentRecord : Record :=
  .of [required "uri" uri, required "languageId" .string, required "version" .signed, required "text" .string]

/-- A number or a string that names something in progress. -/
def token : Shape :=
  .oneOf [.signed, .string]

def documentField : Field :=
  required "textDocument" identifierRecord.shape

def rangeField : Field :=
  required "range" rangeRecord.shape

def placeFields : List Field :=
  [documentField, required "position" positionRecord.shape]

def progressField : Field :=
  optional "workDoneToken" token

/-- Where progress and parts of the result are reported. -/
def tokenFields : List Field :=
  [progressField, optional "partialResultToken" token]

def commandRecord : Record :=
  .of [required "title" .string, required "command" .string, optional "arguments" (.listOf .any)]

def diagnosticRecord : Record :=
  .of [rangeField, optional "severity" .signed, optional "code" token,
    optional "codeDescription" (Record.of [required "href" uri]).shape, optional "source" .string,
    required "message" .string,
    optional "relatedInformation"
      (.listOf (Record.of [required "location" locationRecord.shape, required "message" .string]).shape),
    optional "tags" (.listOf .signed), optional "data" .any]

def actionContextRecord : Record :=
  .of [required "diagnostics" (.listOf diagnosticRecord.shape), optional "only" (.listOf .string),
    optional "triggerKind" .signed]

def folderRecord : Record :=
  .of [required "uri" uri, required "name" .string]

def changeRecord : Record :=
  .of [optional "range" rangeRecord.shape, optional "rangeLength" .unsigned, required "text" .string]

def openParams : Record :=
  .of [required "textDocument" documentRecord.shape]

def changeParams : Record :=
  .of [required "textDocument" versionedRecord.shape, required "contentChanges" (.listOf changeRecord.shape)]

def closeParams : Record :=
  .of [documentField]

def settingsParams : Record :=
  .of [required "settings" .any]

def hoverParams : Record :=
  .named (placeFields ++ [progressField])

def documentParams : Record :=
  .named (documentField :: tokenFields)

def actionParams : Record :=
  .named ([documentField, rangeField, required "context" actionContextRecord.shape] ++ tokenFields)

def commandParams : Record :=
  .named [required "command" .string, usual "arguments" (.listOf .any), progressField]

def checked? (record : Record) (value : Value) : Option Value :=
  if record.shape value then some value else none

def documentUri? (params : Record) (value : Value) : Option Uri :=
  ((params.part? "textDocument" value).bind (identifierRecord.part? "uri")).bind uri?

def line? (value : Value) : Option UInt32 :=
  ((hoverParams.part? "position" value).bind (positionRecord.part? "line")).bind unsigned?

/-- The kinds of actions that the parameters of a request ask for. -/
def wantedKinds (value : Value) : Option (List Text) :=
  ((actionParams.part? "context" value).bind (actionContextRecord.part? "only")).bind (items? string?)

end RouteComments.Editor
