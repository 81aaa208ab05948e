import RouteComments.Path
import RouteComments.Source.Line

set_option autoImplicit false

namespace RouteComments

open Text

/-- A snapshot of a document. -/
structure Document where
  path : Path
  text : Text
  deriving DecidableEq, Repr

namespace Document

def lines (doc : Document) : List Line :=
  Line.read doc.text

def lineTexts (doc : Document) : List Text :=
  doc.lines.map (·.text)

/-- The text of a line, counted from zero. -/
def lineText? (doc : Document) (line : Nat) : Option Text :=
  doc.lines[line]?.map (·.text)

/-- The ending of a line, counted from zero. -/
def lineEnding? (doc : Document) (line : Nat) : Option Ending :=
  doc.lines[line]?.map (·.ending)

def endingAbove? (lines : List Line) : Nat → Option Ending
  | 0 => none
  | line + 1 => lines[line]?.map (·.ending)

/-- The ending of text inserted before one of some lines. -/
def endingAt (lines : List Line) (line : Nat) : Ending :=
  Ending.forInsertion (lines[line]?.map (·.ending)) (endingAbove? lines line)

def endingBefore (doc : Document) (line : Nat) : Ending :=
  endingAt doc.lines line

/-- The number of line feeds among the first bytes of a text. -/
def lineFeedsBefore : Nat → Text → Nat
  | _, [] => 0
  | 0, _ :: _ => 0
  | bytes + 1, c :: cs => (if c = '\n' then 1 else 0) + lineFeedsBefore (bytes + 1 - c.utf8Size) cs

/-- The line that holds a byte offset; an offset behind the text is in the last line. -/
def lineOfOffset (doc : Document) (offset : Nat) : Nat :=
  lineFeedsBefore offset doc.text

end Document

end RouteComments
