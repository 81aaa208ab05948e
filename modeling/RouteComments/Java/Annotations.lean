import RouteComments.Text.Blank
import RouteComments.Text.Word

set_option autoImplicit false

namespace RouteComments.Java

open Text

/-- Reads arguments in parentheses behind optional blanks: the text between them and the text behind. They reach up to
the first closing parenthesis, also when it stands inside a string literal. -/
def arguments? (text : Text) : Option (Text × Text) :=
  match skipBlanks text with
  | '(' :: inner =>
    match inner.dropWhile (· != ')') with
    | _ :: rest => some (inner.takeWhile (· != ')'), rest)
    | [] => none
  | _ => none

def skipArguments (text : Text) : Text :=
  match arguments? text with
  | some (_, rest) => rest
  | none => text

/-- Reads an annotation whose name consists of characters of a class, with optional arguments and at least
one blank behind; gives the text behind the blanks. -/
def readAnnotated? (inName : Char → Bool) : Text → Option Text
  | '@' :: c :: cs => if inName c then skipBlanks1? (skipArguments (cs.dropWhile inName)) else none
  | _ => none

def skipAnnotations (inName : Char → Bool) (text : Text) : Text :=
  skipAll (readAnnotated? inName) text

/-- Reads a string literal: a quote, anything but a quote, and a quote. -/
def literal? : Text → Option (Text × Text)
  | '"' :: inner =>
    match inner.dropWhile (· != '"') with
    | _ :: rest => some (inner.takeWhile (· != '"'), rest)
    | [] => none
  | _ => none

/-- Reads a key with an equals sign behind it; gives the text behind the blanks that follow. -/
def keyEquals? (key text : Text) : Option Text :=
  match (after? key text).map skipBlanks with
  | some ('=' :: rest) => some (skipBlanks rest)
  | _ => none

/-- Reads a key, an equals sign and a string literal; gives what stands between the quotes. -/
def keyedLiteral? (key text : Text) : Option Text :=
  ((keyEquals? key text).bind literal?).map Prod.fst

end RouteComments.Java
