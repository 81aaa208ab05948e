import RouteComments.Json.Value
import RouteComments.Report.Style
import RouteComments.Report.Summary

set_option autoImplicit false

namespace RouteComments

open Text

inductive Format where
  | pretty
  | json
  | compact
  deriving DecidableEq, Repr

def Mapping.Kind.name : Mapping.Kind → String
  | .get => "Get"
  | .post => "Post"
  | .put => "Put"
  | .delete => "Delete"
  | .generic => "Generic"

open Json Json.Value in
def Block.toJson (block : Block) : Value :=
  ofFields [
    ("occurrence", ofFields [("kind", .str block.occurrence.kind.name.toList),
      ("raw_args", .str block.occurrence.args), ("source_offset", .nat block.occurrence.offset)]),
    ("line", .nat block.line),
    ("indent", .str block.indent),
    ("endpoints", ofList (fun (endpoint : Endpoint) =>
      ofFields [("http_verb", .str endpoint.verb), ("full_url", .str endpoint.url)]) block.endpoints),
    ("stale", ofFields [("start", .nat block.stale.start), ("end", .nat block.stale.stop)])]

namespace Report

open Json Json.Value in
def toJson (report : Report) : Value :=
  ofFields [("path", .str report.path.shown), ("blocks", ofList Block.toJson report.blocks),
    ("changed", .bool report.changed), ("error", ofOption .str report.error)]

def verbStyle (verb : Text) : Style :=
  if verb = "GET".toList then Style.strong .green
  else if verb = "POST".toList then Style.strong .yellow
  else if verb = "PUT".toList then Style.strong .blue
  else if verb = "DELETE".toList then Style.strong .red
  else Style.strong .cyan

/-- What the heading of a document says about it. -/
def status (color : Bool) (report : Report) : Text :=
  match report.error with
  | some error => Style.paint color (Style.plain .red) "✖".toList ++ ' ' ::
      Style.paint color (Style.plain .red) error
  | none =>
    if report.changed then Style.paint color (Style.strong .green) "changed".toList
    else Style.paint color { dimmed := true } "unchanged".toList

/-- The number of a line for people, who count from one. Numbers have 64 bits, and one past the last is zero. -/
def lineNumber (line : Nat) : Text :=
  Text.ofNat ((line + 1) % 18446744073709551616)

/-- A heading and one line for each endpoint, for people. -/
def pretty (color : Bool) (report : Report) : Text :=
  let heading := '\n' :: Style.paint color { bold := true, underline := true } report.path.shown ++
    ' ' :: status color report ++ ['\n']
  heading ++ report.blocks.endpoints.flatMap fun (line, endpoint) =>
    "  ".toList ++ Style.paint color { dimmed := true } (lineNumber line) ++ " │ ".toList ++
      Style.paint color (verbStyle endpoint.verb) endpoint.verb ++ ' ' :: endpoint.url ++ ['\n']

/-- One line for the error and one for each endpoint. -/
def compact (report : Report) : Text :=
  let failure := match report.error with
    | some error => report.path.shown ++ ": error: ".toList ++ error ++ ['\n']
    | none => []
  failure ++ report.blocks.endpoints.flatMap fun (line, endpoint) =>
    report.path.shown ++ ':' :: lineNumber line ++ ": ".toList ++ endpoint.label ++ ['\n']

def format (color : Bool) (format : Format) (report : Report) : Text :=
  match format with
  | .pretty => report.pretty color
  | .json => Json.pretty report.toJson
  | .compact => report.compact

end Report

namespace Summary

open Json Json.Value in
def toJson (summary : Summary) : Value :=
  ofFields [("base_url", .str summary.baseUrl), ("dry_run", .bool summary.dryRun),
    ("documents", ofList Report.toJson summary.documents)]

/-- The JSON form of a summary for another program; there is none if a path is no text. -/
def toJson? (summary : Summary) : Option Json.Value :=
  if summary.documents.all fun report => report.path.text?.isSome then some summary.toJson else none

def line (color : Bool) (summary : Summary) : Text :=
  let style := if summary.endpointCount = 0 then Style.plain .yellow else Style.strong .green
  let message := Style.paint color style summary.message
  match summary.failures.length with
  | 0 => message
  | count => message ++ " (".toList ++ Style.paint color (Style.strong .red) (Text.ofNat count) ++
      (if count = 1 then " failure)" else " failures)").toList

end Summary

end RouteComments
