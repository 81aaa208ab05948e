import RouteComments.Parameter.Binding
import RouteComments.Parameter.TypeTag

set_option autoImplicit false

namespace RouteComments.Url

open Text

/-- The end of a placeholder with a type: a colon, the tag and the closing brace. -/
def typedEnd (tag : TypeTag) : Text :=
  ':' :: tag.name ++ ['}']

/-- Reads a placeholder: a brace, word characters and a brace; gives the name between them. -/
def placeholder? : Text → Option (Text × Text)
  | '{' :: inner =>
    if startsWithWord inner then
      match inner.dropWhile isWord with
      | '}' :: rest => some (inner.takeWhile isWord, rest)
      | _ => none
    else none
  | _ => none

theorem length_of_placeholder? {text name rest : Text} (found : placeholder? text = some (name, rest)) :
    rest.length < text.length := by
  unfold placeholder? at found
  split at found
  · rename_i inner
    split at found
    · split at found
      · rename_i behind shape
        have shorter := (List.dropWhile_suffix (l := inner) isWord).length_le
        simp only [Option.some.injEq, Prod.mk.injEq] at found
        rw [shape, found.2] at shorter
        simp only [List.length_cons] at shorter ⊢
        omega
      · simp at found
    · simp at found
  · simp at found

/-- Gives every placeholder of a path the type that `typeOf` tells for its name. -/
def typePlaceholders (typeOf : Text → TypeTag) (path : Text) : Text :=
  match _found : placeholder? path with
  | some (name, rest) => '{' :: name ++ typedEnd (typeOf name) ++ typePlaceholders typeOf rest
  | none =>
    match path with
    | [] => []
    | c :: cs => c :: typePlaceholders typeOf cs
termination_by path.length
decreasing_by
  · exact length_of_placeholder? _found
  · simp

def placeholderType (parameters : Parameters) (name : Text) : TypeTag :=
  TypeTag.ofDeclared (parameters.pathVariableType name)

/-- A path whose placeholders carry the types of some parameters. -/
def typedPath (parameters : Parameters) (path : Text) : Text :=
  typePlaceholders (placeholderType parameters) path

def queryPair (parameter : QueryParameter) : Text :=
  parameter.name ++ ':' :: (TypeTag.ofName parameter.declaredType).name

/-- The query string: the parameters with their types, sorted by name. -/
def queryString (parameters : Parameters) : Text :=
  let sorted := parameters.queryParameters.mergeSort fun a b => precedes a.name b.name
  joinWith ['&'] (sorted.map queryPair)

/-- Characters of a URL scheme behind its first letter. -/
def inScheme (c : Char) : Bool :=
  c.isAlphanum || c == '+' || c == '.' || c == '-'

/-- Reads a scheme with `://`; gives the text behind it. -/
def scheme? : Text → Option Text
  | c :: cs => if c.isAlpha then after? "://".toList (cs.dropWhile inScheme) else none
  | [] => none

/-- Puts one slash for every run of slashes. -/
def singleSlashes : Text → Text
  | [] => []
  | c :: cs => if c = '/' ∧ cs.head? = some '/' then singleSlashes cs else c :: singleSlashes cs

/-- Puts one slash for every run of slashes behind the scheme. -/
def collapseSlashes (url : Text) : Text :=
  match scheme? url with
  | some rest => upTo url rest ++ singleSlashes rest
  | none => singleSlashes url

def dropSlashes (path : Text) : Text :=
  path.dropWhile (· == '/')

/-- The URL of an endpoint. Empty path segments are left out. -/
def compose (baseUrl basePath methodPath : Text) (parameters : Parameters) : Text :=
  let segments := [dropSlashes basePath, dropSlashes (typedPath parameters methodPath)]
  let joined := joinWith ['/'] (dropEndWhile (· == '/') baseUrl :: segments.filter (!·.isEmpty))
  let query := queryString parameters
  collapseSlashes (if query.isEmpty then joined else joined ++ '?' :: query)

end RouteComments.Url
