import RouteComments.Mapping.Scan
import RouteComments.Plan.Operation

set_option autoImplicit false

namespace RouteComments

open Text

/-- A verb and the URL it is mapped to. -/
structure Endpoint where
  verb : Text
  url : Text
  deriving DecidableEq, Repr

/-- The comment for an endpoint, with the indentation of its mapping and no blanks at its end. -/
def Endpoint.comment (indent : Text) (endpoint : Endpoint) : Text :=
  trimEnd (indent ++ "// ".toList ++ endpoint.verb ++ ' ' :: endpoint.url)

/-- A verb and a URL with a space between them. -/
def Endpoint.label (endpoint : Endpoint) : Text :=
  endpoint.verb ++ ' ' :: endpoint.url

namespace Comment

def opening (verb : Text) : Text :=
  "// ".toList ++ verb

/-- Whether a text is the opening of a comment with a verb, alone or with a space behind it. -/
def opensWith (verb text : Text) : Bool :=
  match after? (opening verb) text with
  | some [] => true
  | some (c :: _) => c == ' '
  | none => false

/-- Whether a line is a generated comment. -/
def isGenerated (line : Text) : Bool :=
  Mapping.verbs.any (opensWith · (trim line))

/-- The unbroken run of generated comments directly above a line. -/
def staleAbove (lines : List Text) (line : Nat) : LineRange :=
  let above := lines.take line
  let run := (above.reverse.takeWhile isGenerated).length
  { start := above.length - run, stop := above.length }

end Comment

end RouteComments
