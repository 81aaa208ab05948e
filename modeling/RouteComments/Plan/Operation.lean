import RouteComments.Source.Document

set_option autoImplicit false

namespace RouteComments

open Text

/-- The lines from `start` up to, but not including, `stop`. -/
structure LineRange where
  start : Nat
  stop : Nat
  deriving DecidableEq, Repr

namespace LineRange

def isEmpty (range : LineRange) : Bool :=
  range.stop ≤ range.start

def contains (range : LineRange) (line : Nat) : Bool :=
  range.start ≤ line && line < range.stop

/-- Adds a range to ascending ranges with gaps between them; ranges that touch become one. -/
def addTo (range : LineRange) : List LineRange → List LineRange
  | [] => [range]
  | other :: rest =>
    if range.stop < other.start then range :: other :: rest
    else if other.stop < range.start then other :: addTo range rest
    else addTo { start := min range.start other.start, stop := max range.stop other.stop } rest

/-- The union of some ranges as ascending ranges with gaps between them. -/
def union (ranges : List LineRange) : List LineRange :=
  (ranges.filter (!·.isEmpty)).foldl (fun found range => addTo range found) []

end LineRange

/-- An edit of whole lines. -/
inductive Operation where
  /-- Removes a range of lines. -/
  | delete (lines : LineRange)
  /-- Inserts one or more lines before a line. -/
  | insert (line : Nat) (text : Text)
  deriving DecidableEq, Repr

namespace Operation

/-- The last line that an operation touches. -/
def anchor : Operation → Nat
  | .delete lines => lines.stop - 1
  | .insert line _ => line

/-- Deletions come before insertions at the same line. -/
def rank : Operation → Nat
  | .delete _ => 0
  | .insert _ _ => 1

/-- Whether one operation may be applied before another. -/
def mayPrecede (first second : Operation) : Bool :=
  second.anchor < first.anchor || (first.anchor == second.anchor && first.rank ≤ second.rank)

/-- Whether every operation may be applied before the next. -/
def areOrdered : List Operation → Bool
  | [] => true
  | [_] => true
  | first :: second :: rest => mayPrecede first second && areOrdered (second :: rest)

/-- Operations are numbered against the document as it was read, so a later line comes first, and at one line the
deletion before the insertion. -/
def order (operations : List Operation) : List Operation :=
  operations.mergeSort mayPrecede

def setLastEnding (ending : Ending) : List Line → List Line
  | [] => []
  | [line] => [{ line with ending }]
  | line :: next :: rest => line :: setLastEnding ending (next :: rest)

/-- Removes the lines of a range; the part of a range behind the last line is ignored. -/
def deleteLines (range : LineRange) (lines : List Line) : List Line :=
  let stop := min range.stop lines.length
  lines.take (min range.start stop) ++ lines.drop stop

/-- Inserts the lines of a text before a line, or behind the last one. They end like the line they land
before; behind the last line, the buffer keeps ending without a terminator. -/
def insertLines (line : Nat) (text : Text) (lines : List Line) : List Line :=
  let place := min line lines.length
  let ending := Document.endingAt lines place
  let inserted := (pieces '\n' text).map fun piece => { text := piece, ending : Line }
  if place = lines.length then setLastEnding ending lines ++ setLastEnding .none inserted
  else lines.take place ++ inserted ++ lines.drop place

def apply (lines : List Line) : Operation → List Line
  | .delete range => deleteLines range lines
  | .insert line text => insertLines line text lines

/-- Applies operations in the given order. -/
def applyAll (operations : List Operation) (lines : List Line) : List Line :=
  operations.foldl apply lines

end Operation

/-- The text of a document after some operations. -/
def Document.edited (doc : Document) (operations : List Operation) : Text :=
  Line.render (Operation.applyAll operations doc.lines)

end RouteComments
