import RouteComments.Java.Annotations

set_option autoImplicit false

namespace RouteComments

open Text Java

structure PathVariable where
  name : Text
  declaredType : Option Text
  deriving DecidableEq, Repr

structure QueryParameter where
  name : Text
  declaredType : Text
  deriving DecidableEq, Repr

/-- The parameters of one method. -/
structure Parameters where
  pathVariables : List PathVariable
  queryParameters : List QueryParameter
  deriving DecidableEq, Repr

namespace Parameters

def empty : Parameters :=
  { pathVariables := [], queryParameters := [] }

def pathVariableType (parameters : Parameters) (name : Text) : Option Text :=
  (parameters.pathVariables.reverse.find? (·.name = name)).bind (·.declaredType)

end Parameters

namespace Binding

/-- A parameter as it is declared: the arguments of its annotation, its type and its identifier. -/
structure Declared where
  args : Option Text
  type : Text
  identifier : Text
  deriving DecidableEq, Repr

/-- Characters of the name of a nested annotation. -/
def inQualifiedName (c : Char) : Bool :=
  isWord c || c == '.'

def inTypeName (c : Char) : Bool :=
  inQualifiedName c || c == '$'

/-- The texts behind each closing angle bracket before the next parenthesis, nearest first. -/
def closings : Text → List Text
  | [] => []
  | c :: cs =>
    if c = '(' ∨ c = ')' then []
    else if c = '>' then cs :: closings cs
    else closings cs

def typeArgumentEnds (text : Text) : List Text :=
  match skipBlanks text with
  | '<' :: inner => closings inner
  | _ => []

/-- Reads a pair of array brackets, blanks allowed before and inside. -/
def bracketPair? (text : Text) : Option Text :=
  match skipBlanks text with
  | '[' :: inner =>
    match skipBlanks inner with
    | ']' :: rest => some rest
    | _ => none
  | _ => none

/-- The places where a type can end whose name ends here: behind each way to close its type arguments, or
without them, and behind all array brackets. -/
def typeEnds (text : Text) : List Text :=
  (typeArgumentEnds text ++ [text]).map (skipAll bracketPair?)

/-- Reads at least one blank and an identifier. -/
def identifier? (text : Text) : Option (Text × Text) :=
  match skipBlanks1? text with
  | some rest =>
    if startsWithWord rest then some (rest.takeWhile isWord, rest.dropWhile isWord) else none
  | none => none

/-- Reads a type and the identifier behind it; of several places where the type can end, the first with an
identifier behind it counts. -/
def typed? (text : Text) : Option ((Text × Text) × Text) :=
  if text.head?.any inTypeName then
    (typeEnds (text.dropWhile inTypeName)).findSome? fun behind =>
      (identifier? behind).map fun (identifier, rest) => ((upTo text behind, identifier), rest)
  else none

/-- Reads `final` and at least one blank. -/
def finalKeyword? (text : Text) : Option Text :=
  (after? "final".toList text).bind skipBlanks1?

/-- Reads a type and an identifier behind an optional `final`, which is a type itself when no other follows. -/
def declaration? (text : Text) : Option ((Text × Text) × Text) :=
  match (finalKeyword? text).bind typed? with
  | some found => some found
  | none => typed? text

/-- Reads a parameter with an annotation of the given name: optional arguments, other annotations, and its
declaration. -/
def parameter? (marker : Text) : Text → Option (Declared × Text)
  | '@' :: text =>
    match wholeWord? marker text with
    | some behind =>
      match (skipBlanks1? (skipArguments behind)).map (skipAnnotations inQualifiedName) with
      | some rest =>
        (declaration? rest).map fun ((type, identifier), rest) =>
          ({ args := (arguments? behind).map Prod.fst, type, identifier }, rest)
      | none => none
    | none => none
  | _ => none

/-- The literal of arguments that are nothing but a literal. -/
def loneLiteral? (args : Text) : Option Text :=
  match literal? (skipBlanks args) with
  | some (inner, rest) => if (skipBlanks rest).isEmpty then some inner else none
  | none => none

/-- The name that arguments give to a parameter: a lone literal, then a `name` key, then a `value` key. A
blank literal does not count. -/
def alias? (args : Text) : Option Text :=
  let candidates := [loneLiteral? args, firstAtWord? (keyedLiteral? "name".toList) false args,
    firstAtWord? (keyedLiteral? "value".toList) false args]
  (candidates.filterMap fun candidate => candidate.map trim).find? (!·.isEmpty)

def Declared.name (declared : Declared) : Text :=
  (declared.args.bind alias?).getD declared.identifier

/-- Puts a query parameter into a list sorted by name, in place of the one with its name. -/
def putQuery (parameter : QueryParameter) : List QueryParameter → List QueryParameter
  | [] => [parameter]
  | other :: rest =>
    if other.name = parameter.name then parameter :: rest
    else if precedes parameter.name other.name then parameter :: other :: rest
    else other :: putQuery parameter rest

end Binding

open Binding in
/-- Path variables in order of declaration, and query parameters sorted by name, where the last declaration of a name
holds. -/
def Parameters.ofSignature (signature : Text) : Parameters where
  pathVariables := (allMatches (parameter? "PathVariable".toList) signature).map fun declared =>
    { name := declared.name, declaredType := some declared.type }
  queryParameters := (allMatches (parameter? "RequestParam".toList) signature).foldl
    (fun found declared => putQuery { name := declared.name, declaredType := declared.type } found) []

end RouteComments
