import RouteComments.Text.Basic

set_option autoImplicit false

namespace RouteComments.Text

/-- The closed ranges of code points with the White_Space property. -/
def blankRanges : List (Nat × Nat) :=
  [(0x9, 0xd), (0x20, 0x20), (0x85, 0x85), (0xa0, 0xa0), (0x1680, 0x1680), (0x2000, 0x200a),
    (0x2028, 0x2029), (0x202f, 0x202f), (0x205f, 0x205f), (0x3000, 0x3000)]

/-- Whether a character is blank: those with the White_Space property are. -/
def isBlank (c : Char) : Bool :=
  inRanges blankRanges c.toNat

def isSpaceOrTab (c : Char) : Bool :=
  c == ' ' || c == '\t'

/-- The text without blanks at both ends. -/
def trim (text : Text) : Text :=
  dropAround isBlank text

def trimEnd (text : Text) : Text :=
  dropEndWhile isBlank text

def skipBlanks (text : Text) : Text :=
  text.dropWhile isBlank

/-- The text behind its leading blanks, of which there has to be one. -/
def skipBlanks1? : Text → Option Text
  | [] => none
  | c :: cs => if isBlank c then some (skipBlanks cs) else none

end RouteComments.Text
