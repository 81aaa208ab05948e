import RouteComments.Text.Blank
import RouteComments.Text.Digit

set_option autoImplicit false

namespace RouteComments.LocalServer

open Text

/-- The port of a project that configures none. -/
def defaultPort : Text :=
  "8080".toList

def propertiesFile : Text :=
  "src/main/resources/application.properties".toList

/-- The YAML files of a project, in the order in which they are read. -/
def yamlFiles : List Text :=
  ["src/main/resources/application.yml".toList, "src/main/resources/application.yaml".toList]

def skipSpaces (text : Text) : Text :=
  text.dropWhile isSpaceOrTab

/-- The digits at the head of a text, of which there has to be one. -/
def digits? (text : Text) : Option Text :=
  match text.takeWhile isDigit with
  | [] => none
  | found => some found

/-- Reads `server.port = digits` at the head of a line. -/
def propertyLine? (line : Text) : Option Text :=
  match (after? "server.port".toList (skipSpaces line)).map skipSpaces with
  | some ('=' :: rest) => digits? (skipSpaces rest)
  | _ => none

/-- Reads the end of a line: an optional carriage return and a line feed. -/
def lineEnd? : Text → Option Text
  | '\n' :: rest => some rest
  | '\r' :: '\n' :: rest => some rest
  | _ => none

/-- Reads an indented `port: digits`. -/
def portEntry? (line : Text) : Option Text :=
  if line.head?.any isSpaceOrTab then
    (after? "port:".toList (skipSpaces line)).bind fun rest => digits? (skipSpaces rest)
  else none

/-- Reads a line `server:` and the port entry on the next line. -/
def serverBlock? (line : Text) : Option Text :=
  ((after? "server:".toList line).bind fun rest => lineEnd? (skipSpaces rest)).bind portEntry?

/-- The first success of a reader at the start of a line; `lineStart` says whether the text starts one. -/
def firstAtLine? (read : Text → Option Text) (lineStart : Bool) : Text → Option Text
  | [] => if lineStart then read [] else none
  | c :: cs =>
    match if lineStart then read (c :: cs) else none with
    | some found => some found
    | none => firstAtLine? read (c == '\n') cs

/-- The port in a properties file. -/
def ofProperties? (text : Text) : Option Text :=
  firstAtLine? propertyLine? true text

/-- The port in a YAML file. -/
def ofYaml? (text : Text) : Option Text :=
  firstAtLine? serverBlock? true text

/-- The files that can hold the port, each with its reader, in the order in which they are read. -/
def sources : List (Text × (Text → Option Text)) :=
  (propertiesFile, ofProperties?) :: yamlFiles.map fun file => (file, ofYaml?)

/-- The first port that a source holds and the files read up to it. -/
def search (read : Text → Option Text) : List (Text × (Text → Option Text)) → Option Text × List Text
  | [] => (none, [])
  | (file, port?) :: rest =>
    match (read file).bind port? with
    | some port => (some port, [file])
    | none =>
      let (found, files) := search read rest
      (found, file :: files)

/-- The port of a project whose files `read` gives. -/
def port (read : Text → Option Text) : Text :=
  (search read sources).1.getD defaultPort

def filesRead (read : Text → Option Text) : List Text :=
  (search read sources).2

def baseUrl (port : Text) : Text :=
  "https://localhost:".toList ++ port

end RouteComments.LocalServer
