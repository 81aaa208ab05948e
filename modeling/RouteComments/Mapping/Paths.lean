import RouteComments.Java.Annotations

set_option autoImplicit false

namespace RouteComments.Mapping

open Text Java

def pathKeys : List Text :=
  ["path".toList, "value".toList]

def openBrace? : Text → Option Text
  | '{' :: rest => some rest
  | _ => none

/-- Reads a path key with a list; gives the text behind the opening brace. -/
def keyedList? (text : Text) : Option Text :=
  pathKeys.findSome? fun key => (keyEquals? key text).bind openBrace?

/-- The text behind the opening brace of the path list, keyed anywhere or at the start of the arguments. -/
def listBody? (args : Text) : Option Text :=
  match firstAtWord? keyedList? false args with
  | some body => some body
  | none => openBrace? (skipBlanks args)

/-- Splits the body of a list at the commas outside string literals, up to the closing brace outside
string literals or the end; `quoted` says whether the text starts inside a literal. -/
def splitList (quoted : Bool) : Text → List Text
  | [] => [[]]
  | c :: cs =>
    if c = '"' then consFirst c (splitList (!quoted) cs)
    else if !quoted && c == ',' then [] :: splitList quoted cs
    else if !quoted && c == '}' then [[]]
    else consFirst c (splitList quoted cs)

/-- An element of a list without the blanks around it, the quotes around that and the blanks inside them. -/
def elementPath (element : Text) : Text :=
  trim (dropAround (· == '"') element)

def listPaths (body : Text) : List Text :=
  (((splitList false body).map trim).filter (!·.isEmpty)).map elementPath

/-- The single path of arguments without a list. -/
def singlePath (args : Text) : Text :=
  match firstAtWord? (fun text => pathKeys.findSome? (keyedLiteral? · text)) false args with
  | some path => path
  | none => ((firstMatch? literal? args).map Prod.fst).getD []

/-- The paths that the arguments of a mapping declare, in order; there is always one. A list in braces gives one for
each element. -/
def extractPaths (args : Text) : List Text :=
  match ((listBody? args).map listPaths).getD [] with
  | [] => [singlePath args]
  | paths => paths

@[simp] theorem splitList_ne_nil (quoted : Bool) (body : Text) : splitList quoted body ≠ [] := by
  cases body with
  | nil => simp [splitList]
  | cons c cs =>
    unfold splitList
    split
    · simp
    · split
      · simp
      · split <;> simp

theorem extractPaths_ne_nil (args : Text) : extractPaths args ≠ [] := by
  unfold extractPaths
  split
  · simp
  · assumption

end RouteComments.Mapping
