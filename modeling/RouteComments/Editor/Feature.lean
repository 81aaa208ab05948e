import RouteComments.Editor.TextEdit
import RouteComments.Editor.Uri.Basic
import RouteComments.Plan.Block

set_option autoImplicit false

namespace RouteComments.Editor

open Text

/-- What is shown for a line with a mapping. -/
structure Hover where
  markdown : Text
  range : Range
  deriving DecidableEq, Repr

/-- An endpoint in the outline of a document. -/
structure Symbol where
  name : Text
  uri : Uri
  range : Range
  /-- The name of the file without its extension. -/
  container : Option Text
  deriving DecidableEq, Repr

structure CodeAction where
  uri : Uri
  edits : List TextEdit
  deriving DecidableEq, Repr

def CodeAction.title : Text :=
  "Regenerate endpoint comments".toList

def CodeAction.kind : Text :=
  "source.endpointComments".toList

def regenerateCommand : Text :=
  "endpointComments.regenerate".toList

/-- The width of a line in UTF-16 units; a line that is not there has none. -/
def lineWidth (doc : Document) (line : Nat) : Nat :=
  units16 ((doc.lineText? line).getD [])

def rangeInLine (line : UInt32) (width : Nat) : Range where
  start := { line, character := 0 }
  stop := { line, character := UInt32.ofNat width }

/-- The endpoints of a line as a fenced block. -/
def markdownOf (labels : List Text) : Text :=
  "**Endpoints**\n\n\x60\x60\x60http\n".toList ++ joinWith ['\n'] labels ++ "\n\x60\x60\x60".toList

/-- What is shown at a line; nothing where no mapping stands. -/
def Hover.at? (annotator : Annotator) (doc : Document) (line : UInt32) : Option Hover :=
  let here := (annotator.plan doc).endpoints.filter fun (other, _) => other == line.toNat
  match here with
  | [] => none
  | found => some { markdown := markdownOf (found.map fun (_, endpoint) => endpoint.label)
                    range := rangeInLine line (lineWidth doc line.toNat) }

/-- The endpoints of a controller, each on the line of its mapping. -/
def Symbol.all (annotator : Annotator) (doc : Document) (uri : Uri) : List Symbol :=
  if Mapping.isController doc.text then
    (annotator.plan doc).endpoints.map fun (line, endpoint) =>
      { name := endpoint.label, uri
        range := rangeInLine (UInt32.ofNat line) (max (lineWidth doc line) 1)
        container := doc.path.fileStem?.map Path.shown }
  else []

/-- Whether an editor that asks for some kinds of actions wants this one. -/
def CodeAction.isWanted : Option (List Text) → Bool
  | none => true
  | some kinds => kinds.any fun kind => (after? kind CodeAction.kind).isSome

/-- The action for a controller whose comments are out of date. -/
def CodeAction.for? (annotator : Annotator) (doc : Document) (uri : Uri) (only : Option (List Text)) :
    Option CodeAction :=
  if CodeAction.isWanted only && Mapping.isController doc.text then
    let plan := annotator.plan doc
    if plan.apply doc = doc.text then none
    else some { uri, edits := TextEdit.ofOperations doc plan.orderedOperations }
  else none

end RouteComments.Editor
