import RouteComments.Text.Basic

set_option autoImplicit false

namespace RouteComments

open Text

inductive Ending where
  /-- The end of the text. -/
  | none
  | lf
  | crlf
  /-- A carriage return before the end of the text. -/
  | cr
  deriving DecidableEq, Repr

namespace Ending

def text : Ending → Text
  | .none => []
  | .lf => ['\n']
  | .crlf => ['\r', '\n']
  | .cr => ['\r']

def ofText? : Text → Option Ending
  | [] => some .none
  | ['\n'] => some .lf
  | ['\r', '\n'] => some .crlf
  | ['\r'] => some .cr
  | _ => Option.none

def breaksLine : Ending → Bool
  | .lf | .crlf => true
  | .none | .cr => false

/-- The ending of inserted lines: that of the line they land before, else that of the line above, of which
the first counts that breaks the line. -/
def forInsertion (current previous : Option Ending) : Ending :=
  match current.filter breaksLine with
  | some ending => ending
  | Option.none => (previous.filter breaksLine).getD .lf

end Ending

/-- A line without its terminator, and the terminator. -/
structure Line where
  text : Text
  ending : Ending
  deriving DecidableEq, Repr

namespace Line

/-- Splits a piece of text into a line and a carriage return at its end. -/
def dropReturn? (piece : Text) : Option Text :=
  if piece.getLast? = some '\r' then some piece.dropLast else Option.none

def ofPiece (piece : Text) : Line :=
  match dropReturn? piece with
  | some text => { text, ending := .crlf }
  | Option.none => { text := piece, ending := .lf }

def ofLastPiece (piece : Text) : Line :=
  match dropReturn? piece with
  | some text => { text, ending := .cr }
  | Option.none => { text := piece, ending := .none }

/-- The lines of the pieces between line feeds. -/
def ofPieces : List Text → List Line
  | [] => []
  | [piece] => [ofLastPiece piece]
  | piece :: next :: rest => ofPiece piece :: ofPieces (next :: rest)

def read (text : Text) : List Line :=
  ofPieces (pieces '\n' text)

def render : List Line → Text
  | [] => []
  | line :: rest => line.text ++ line.ending.text ++ render rest

@[simp] theorem render_nil : render [] = [] := rfl

@[simp] theorem render_cons (line : Line) (rest : List Line) :
    render (line :: rest) = line.text ++ line.ending.text ++ render rest := rfl

@[simp] theorem render_append (a b : List Line) : render (a ++ b) = render a ++ render b := by
  induction a with
  | nil => rfl
  | cons line rest ih => simp [ih]

theorem dropReturn?_eq_some {piece text : Text} (found : dropReturn? piece = some text) :
    piece = text ++ ['\r'] := by
  unfold dropReturn? at found
  split at found
  · rename_i last
    obtain ⟨start, rfl⟩ := List.getLast?_eq_some_iff.mp last
    simp only [List.dropLast_concat, Option.some.injEq] at found
    rw [found]
  · simp at found

theorem ofPiece_text (piece : Text) :
    (ofPiece piece).text ++ (ofPiece piece).ending.text = piece ++ ['\n'] := by
  unfold ofPiece
  split
  · rename_i text found
    simp [dropReturn?_eq_some found, Ending.text]
  · simp [Ending.text]

theorem ofLastPiece_text (piece : Text) :
    (ofLastPiece piece).text ++ (ofLastPiece piece).ending.text = piece := by
  unfold ofLastPiece
  split
  · rename_i text found
    simp [dropReturn?_eq_some found, Ending.text]
  · simp [Ending.text]

theorem render_ofPieces (parts : List Text) :
    render (ofPieces parts) = joinWith ['\n'] parts := by
  match parts with
  | [] => rfl
  | [piece] => simp [ofPieces, joinWith, ofLastPiece_text]
  | piece :: next :: rest =>
    rw [ofPieces, render_cons, ofPiece_text, render_ofPieces (next :: rest), joinWith]

/-- Rendering the lines of a text gives the text back. -/
theorem render_read (text : Text) : render (read text) = text := by
  rw [read, render_ofPieces, joinWith_pieces]

end Line

end RouteComments
