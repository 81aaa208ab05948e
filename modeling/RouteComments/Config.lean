import RouteComments.Toml.Document
import RouteComments.Workspace.Failure

set_option autoImplicit false

namespace RouteComments

open Text

structure Config where
  /-- The file it comes from. -/
  source : Option Path
  baseUrl : Option Text
  extensions : List Text
  exclude : List Text
  deriving DecidableEq, Repr

/-- Why a configuration file cannot be used. -/
inductive ConfigError where
  | unreadable (path : Path) (fault : Fault)
  | malformed (path : Path)
  deriving DecidableEq, Repr

def ConfigError.message : ConfigError → Text
  | .unreadable path _ => "reading ".toList ++ path.shown
  | .malformed path => "parsing ".toList ++ path.shown

namespace Config

def fileName : Text :=
  "endpoint-comments.toml".toList

/-- The configuration without a file. -/
def standard : Config where
  source := none
  baseUrl := none
  extensions := ["java".toList]
  exclude := ["target".toList, "build".toList, ".git".toList, ".gradle".toList, "node_modules".toList]

/-- A text that is not blank, without the blanks around it. -/
def nonblank? (text : Text) : Option Text :=
  match trim text with
  | [] => none
  | trimmed => some trimmed

def baseUrlKeys : List Text :=
  ["baseUrl".toList, "base_url".toList]

/-- A setting by key. A blank value counts as absent. -/
def value? (config : Config) (key : Text) : Option Text :=
  if baseUrlKeys.contains key then config.baseUrl.bind nonblank? else none

/-- The configuration with another base URL, if one is given. -/
def withBaseUrl (config : Config) (baseUrl : Option Text) : Config :=
  match baseUrl with
  | some url => { config with baseUrl := some url }
  | none => config

/-- Whether files with an extension are sources: in any ASCII case, and with leading dots of the
configured extension left out. -/
def acceptsExtension (config : Config) (given : Text) : Bool :=
  config.extensions.any fun configured =>
    asciiLower (configured.dropWhile (· == '.')) == asciiLower given

/-- Whether the file at a path is a source. -/
def acceptsPath (config : Config) (path : Path) : Bool :=
  path.extension?.any fun found => config.acceptsExtension found.shown

/-- Whether directories with a name are left out. -/
def excludes (config : Config) (name : Text) : Bool :=
  config.exclude.contains name

def strings? : Toml.Value → Option (List Text)
  | .array items => items.mapM fun item =>
    match item with
    | .string text => some text
    | _ => none
  | _ => none

def string? : Toml.Value → Option Text
  | .string text => some text
  | _ => none

/-- A field of a document that may be missing but has to fit when it is there. -/
def optional? {α : Type} (fields : List (Text × Toml.Value)) (key : String)
    (decode : Toml.Value → Option α) : Option (Option α) :=
  match fields.lookup key.toList with
  | some value => (decode value).map some
  | none => some none

/-- The configuration in the fields of a document; other fields do not matter. -/
def ofFields? (fields : List (Text × Toml.Value)) : Option Config := do
  let baseUrl ← optional? fields "base_url" string?
  let extensions ← optional? fields "extensions" strings?
  let exclude ← optional? fields "exclude" strings?
  some { source := none, baseUrl
         extensions := extensions.getD standard.extensions
         exclude := exclude.getD standard.exclude }

def parse (path : Path) (text : Text) : Except ConfigError Config :=
  match (Toml.parse? text).bind ofFields? with
  | some config => .ok { config with source := some path }
  | none => .error (.malformed path)

end Config

end RouteComments
