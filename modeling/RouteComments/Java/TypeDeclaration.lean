import RouteComments.Java.Annotations

set_option autoImplicit false

namespace RouteComments.Java

open Text

/-- The modifiers that may stand before the keyword of a type declaration. -/
def typeModifiers : List Text :=
  ["public".toList, "protected".toList, "private".toList, "abstract".toList, "final".toList,
    "static".toList, "sealed".toList]

def typeKeywords : List Text :=
  ["class".toList, "interface".toList, "record".toList]

/-- Reads one of some words and at least one blank behind it. -/
def readSpaced? (words : List Text) (text : Text) : Option Text :=
  words.findSome? fun word => (after? word text).bind skipBlanks1?

/-- Whether a type keyword, blanks and the start of a name stand at the head of a text. -/
def declaresType (text : Text) : Bool :=
  match readSpaced? typeKeywords text with
  | some rest => startsWithWord rest
  | none => false

/-- The text from the type keyword on, when a line that starts here declares a type: indentation, any
annotations, any modifiers, and then the keyword with a name. -/
def typeDeclarationAt? (line : Text) : Option Text :=
  let declaration :=
    skipAll (readSpaced? typeModifiers) (skipAnnotations isWord (line.dropWhile isSpaceOrTab))
  if declaresType declaration then some declaration else none

/-- Searches the line starts of a text for a type declaration; `lineStart` says whether the text starts
one, `offset` is the byte offset of the text. -/
def typeDeclarationFrom (offset : Nat) (lineStart : Bool) : Text → Option Nat
  | [] => none
  | c :: cs =>
    match if lineStart then typeDeclarationAt? (c :: cs) else none with
    | some keyword => some (offset + bytes (upTo (c :: cs) keyword))
    | none => typeDeclarationFrom (offset + c.utf8Size) (c == '\n') cs

/-- The byte offset of the keyword of the first type declaration. -/
def typeDeclarationOffset (text : Text) : Option Nat :=
  typeDeclarationFrom 0 true text

end RouteComments.Java
