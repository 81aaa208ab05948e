import RouteComments.Parameter.Signature
import RouteComments.Plan.Comment
import RouteComments.Url.Compose

set_option autoImplicit false

namespace RouteComments

open Text

/-- What is planned for one mapping. -/
structure Block where
  occurrence : Mapping.Occurrence
  /-- The line of the mapping. -/
  line : Nat
  /-- The blanks at the start of that line. -/
  indent : Text
  /-- For each verb one endpoint for each path. -/
  endpoints : List Endpoint
  /-- The generated comments directly above the line. -/
  stale : LineRange
  deriving DecidableEq, Repr

def Block.comments (block : Block) : List Text :=
  block.endpoints.map (·.comment block.indent)

/-- The blocks of a document, in order. -/
abbrev Plan := List Block

namespace Plan

/-- All endpoints with the lines of their mappings. -/
def endpoints (plan : Plan) : List (Nat × Endpoint) :=
  plan.flatMap fun block => block.endpoints.map fun endpoint => (block.line, endpoint)

def endpointCount (plan : Plan) : Nat :=
  plan.endpoints.length

/-- Adds comments at a line to comments sorted by line, behind those already there. -/
def addComments (line : Nat) (comments : List Text) : List (Nat × List Text) → List (Nat × List Text)
  | [] => [(line, comments)]
  | (other, found) :: rest =>
    if other = line then (other, found ++ comments) :: rest
    else if line < other then (line, comments) :: (other, found) :: rest
    else (other, found) :: addComments line comments rest

def commentsByLine (plan : Plan) : List (Nat × List Text) :=
  plan.foldl
    (fun found block =>
      if block.comments.isEmpty then found else addComments block.line block.comments found) []

/-- The deletions and the insertions of a plan, each in ascending order. -/
def operations (plan : Plan) : List Operation :=
  (LineRange.union (plan.map (·.stale))).map .delete ++
    plan.commentsByLine.map fun (line, comments) => .insert line (joinWith ['\n'] comments)

def orderedOperations (plan : Plan) : List Operation :=
  Operation.order plan.operations

/-- The text of a document with the plan applied. -/
def apply (plan : Plan) (doc : Document) : Text :=
  doc.edited plan.orderedOperations

def resolveEndpoints (occurrence : Mapping.Occurrence) (baseUrl basePath : Text)
    (parameters : Parameters) : List Endpoint :=
  occurrence.verbs.flatMap fun verb =>
    occurrence.paths.map fun path => { verb, url := Url.compose baseUrl basePath path parameters }

/-- The block of a mapping at a line among the lines of a document with a base path. -/
def blockAt (lines : List Text) (line : Nat) (baseUrl basePath : Text) (occurrence : Mapping.Occurrence) :
    Block :=
  let parameters := Parameters.ofSignature (Signature.span lines line)
  { occurrence, line
    indent := (lines[line]?.getD []).takeWhile isBlank
    endpoints := resolveEndpoints occurrence baseUrl basePath parameters
    stale := Comment.staleAbove lines line }

def ofDocument (doc : Document) (baseUrl : Text) : Plan :=
  let lines := doc.lineTexts
  let basePath := Mapping.classBasePath doc.text
  (Mapping.methodMappings doc.text).map fun occurrence =>
    blockAt lines (doc.lineOfOffset occurrence.offset) baseUrl basePath occurrence

end Plan

/-- A base URL without blanks around it, against which documents are planned. -/
structure Annotator where
  baseUrl : Text
  deriving DecidableEq, Repr

namespace Annotator

/-- The annotator for a base URL, which is trimmed. -/
def ofBaseUrl (baseUrl : Text) : Annotator :=
  { baseUrl := trim baseUrl }

def plan (annotator : Annotator) (doc : Document) : Plan :=
  Plan.ofDocument doc annotator.baseUrl

def annotate (annotator : Annotator) (doc : Document) : Text :=
  (annotator.plan doc).apply doc

end Annotator

end RouteComments
