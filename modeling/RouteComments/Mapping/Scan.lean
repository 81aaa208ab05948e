import RouteComments.Java.TypeDeclaration
import RouteComments.Mapping.Paths

set_option autoImplicit false

namespace RouteComments.Mapping

open Text Java

/-- The five mapping annotations. -/
inductive Kind where
  | get
  | post
  | put
  | delete
  /-- Usable on a class as well as on a method; it names its verbs itself. -/
  | generic
  deriving DecidableEq, Repr

/-- The name of a mapping annotation, without the `@`. -/
def Kind.keyword : Kind → Text
  | .get => "GetMapping".toList
  | .post => "PostMapping".toList
  | .put => "PutMapping".toList
  | .delete => "DeleteMapping".toList
  | .generic => "RequestMapping".toList

def Kind.all : List Kind :=
  [.get, .post, .put, .delete, .generic]

/-- A mapping found in a source text. -/
structure Occurrence where
  kind : Kind
  /-- The text between the parentheses, empty without arguments. -/
  args : Text
  /-- The byte offset of the `@`. -/
  offset : Nat
  deriving DecidableEq, Repr

/-- Reads the name of a mapping annotation that ends here. -/
def kind? (text : Text) : Option (Kind × Text) :=
  Kind.all.findSome? fun kind => (wholeWord? kind.keyword text).map fun rest => (kind, rest)

/-- Reads a mapping at the head of a text: its kind and arguments, and the text behind it. -/
def mapping? : Text → Option ((Kind × Text) × Text)
  | '@' :: text =>
    match kind? text with
    | some (kind, rest) =>
      match arguments? rest with
      | some (args, behind) => some ((kind, args), behind)
      | none => some ((kind, []), rest)
    | none => none
  | _ => none

/-- All mappings of a text in order. -/
def mappings (text : Text) : List Occurrence :=
  (matchesFrom mapping? 0 text).map fun (offset, kind, args) => { kind, args, offset }

/-- Whether a mapping belongs to the class: a generic one before the type declaration. -/
def Occurrence.isClassLevel (declaration : Option Nat) (occurrence : Occurrence) : Bool :=
  occurrence.kind == .generic && declaration.any (occurrence.offset < ·)

/-- The mappings that belong to methods, in order. -/
def methodMappings (text : Text) : List Occurrence :=
  let declaration := typeDeclarationOffset text
  (mappings text).filter (!·.isClassLevel declaration)

def Occurrence.paths (occurrence : Occurrence) : List Text :=
  extractPaths occurrence.args

/-- The base path of the class: the first path of its last mapping, empty when it has none. -/
def classBasePath (text : Text) : Text :=
  let declaration := typeDeclarationOffset text
  match ((mappings text).filter (·.isClassLevel declaration)).getLast? with
  | some occurrence => occurrence.paths.headD []
  | none => []

/-- The verb written for a generic mapping that names none. -/
def requestVerb : Text :=
  "REQUEST".toList

def namedVerbs : List Text :=
  ["GET".toList, "POST".toList, "PUT".toList, "DELETE".toList]

def verbs : List Text :=
  namedVerbs ++ [requestVerb]

/-- Reads `RequestMethod.` with a verb, blanks allowed around the dot. -/
def methodReference? (text : Text) : Option (Text × Text) :=
  match (after? "RequestMethod".toList text).map skipBlanks with
  | some ('.' :: rest) =>
    namedVerbs.findSome? fun verb => (wholeWord? verb (skipBlanks rest)).map fun behind => (verb, behind)
  | _ => none

/-- The verbs a generic mapping names, in order and with repetitions. -/
def referencedVerbs (args : Text) : List Text :=
  match allMatches methodReference? args with
  | [] => [requestVerb]
  | found => found

def resolveVerbs : Kind → Text → List Text
  | .get, _ => ["GET".toList]
  | .post, _ => ["POST".toList]
  | .put, _ => ["PUT".toList]
  | .delete, _ => ["DELETE".toList]
  | .generic, args => referencedVerbs args

def Occurrence.verbs (occurrence : Occurrence) : List Text :=
  resolveVerbs occurrence.kind occurrence.args

def controllerMarks : List Text :=
  ["@Controller".toList, "@RestController".toList]

def isController (text : Text) : Bool :=
  controllerMarks.any (occursIn · text)

end RouteComments.Mapping
