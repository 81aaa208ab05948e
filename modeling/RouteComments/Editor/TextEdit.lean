import RouteComments.Plan.Operation

set_option autoImplicit false

namespace RouteComments.Editor

open Text

/-- A place between two characters of a document; numbers of lines and characters are words of 32 bits. -/
structure Position where
  line : UInt32
  character : UInt32
  deriving DecidableEq, Repr

/-- The text between two positions. -/
structure Range where
  start : Position
  stop : Position
  deriving DecidableEq, Repr

/-- A range of a document and the text that replaces it. -/
structure TextEdit where
  range : Range
  newText : Text
  deriving DecidableEq, Repr

namespace TextEdit

/-- Whole lines as a range. -/
def lineRange (start stop : Nat) : Range where
  start := { line := UInt32.ofNat start, character := 0 }
  stop := { line := UInt32.ofNat stop, character := 0 }

/-- Puts a deletion into a list sorted by last line, in place of the one with its last line. -/
def putDeletion (range : LineRange) : List LineRange → List LineRange
  | [] => [range]
  | other :: rest =>
    if other.stop = range.stop then range :: rest
    else if range.stop < other.stop then range :: other :: rest
    else other :: putDeletion range rest

/-- Adds text inserted at a line to texts sorted by line, behind the text already there. -/
def addInsertion (line : Nat) (text : Text) : List (Nat × Text) → List (Nat × Text)
  | [] => [(line, text)]
  | (other, found) :: rest =>
    if other = line then (other, found ++ text) :: rest
    else if line < other then (line, text) :: (other, found) :: rest
    else (other, found) :: addInsertion line text rest

/-- The lines of a text, each with an ending behind it. -/
def terminated (ending : Ending) (text : Text) : Text :=
  (pieces '\n' text).flatMap (· ++ ending.text)

/-- The deletions of some operations that remove a line, by last line. -/
def deletions (operations : List Operation) : List LineRange :=
  operations.foldl
    (fun found operation =>
      match operation with
      | .delete range => if range.isEmpty then found else putDeletion range found
      | .insert _ _ => found) []

/-- The insertions of some operations into a document, by line. -/
def insertions (doc : Document) (operations : List Operation) : List (Nat × Text) :=
  let lines := doc.lines
  operations.foldl
    (fun found operation =>
      match operation with
      | .delete _ => found
      | .insert line text => addInsertion line (terminated (Document.endingAt lines line) text) found) []

/-- The edit for an insertion, which takes over the deletion that ends at its line. -/
def ofInsertion (deleted : List LineRange) (line : Nat) (newText : Text) : TextEdit :=
  let start := ((deleted.find? (·.stop = line)).map (·.start)).getD line
  { range := lineRange start line, newText }

def ofDeletion (range : LineRange) : TextEdit :=
  { range := lineRange range.start range.stop, newText := [] }

/-- Order by first line, then by last line. -/
def atMost (first second : TextEdit) : Bool :=
  first.range.start.line < second.range.start.line ||
    (first.range.start.line == second.range.start.line &&
      first.range.stop.line ≤ second.range.stop.line)

/-- The text edits of some operations on a document, in document order. -/
def ofOperations (doc : Document) (operations : List Operation) : List TextEdit :=
  let deleted := deletions operations
  let inserted := insertions doc operations
  let left := deleted.filter fun range => !inserted.any fun (line, _) => line == range.stop
  let edits := inserted.map (fun (line, newText) => ofInsertion deleted line newText) ++
    left.map ofDeletion
  edits.mergeSort atMost

end TextEdit

end RouteComments.Editor
