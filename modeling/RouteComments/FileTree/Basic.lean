import RouteComments.Keyed
import RouteComments.Workspace.Failure

set_option autoImplicit false

namespace RouteComments

open Text

/-- What a file holds: a text in UTF-8, or bytes that are none. -/
inductive Content where
  | text (text : Text)
  | binary (bytes : List UInt8)
  deriving DecidableEq, Repr

def Content.ofBytes (bytes : List UInt8) : Content :=
  match decode? bytes with
  | some decoded => .text decoded
  | none => .binary bytes

inductive Entry where
  | file (content : Content)
  | directory (entries : List (Text × Entry))

namespace Entry

def isDirectory : Entry → Bool
  | .directory _ => true
  | .file _ => false

def child? (name : Text) : Entry → Option Entry
  | .directory entries => entries.lookup name
  | .file _ => none

/-- The entry at the end of some names. -/
def at? : List Text → Entry → Option Entry
  | [], entry => some entry
  | name :: rest, entry => (entry.child? name).bind (at? rest)

/-- Puts an entry at the end of some names, with directories on the way. A file on the way gives way. -/
def put (new : Entry) : List Text → Entry → Entry
  | [], _ => new
  | name :: rest, .directory entries =>
    .directory (Keyed.put name (put new rest ((entries.lookup name).getD (.directory []))) entries)
  | name :: rest, .file _ => .directory [(name, put new rest (.directory []))]

/-- Makes a directory at the end of some names, unless there is one. -/
def makeDirectory (names : List Text) (entry : Entry) : Entry :=
  match entry.at? names with
  | some (.directory _) => entry
  | _ => put (.directory []) names entry

def remove : List Text → Entry → Entry
  | [], entry => entry
  | _, .file content => .file content
  | [name], .directory entries => .directory (Keyed.erase name entries)
  | name :: rest, .directory entries =>
    .directory (entries.map fun (other, found) =>
      if other = name then (other, remove rest found) else (other, found))

mutual

/-- The files of an entry with the names that lead to them, behind the names that lead to it. -/
def files (names : List Text) : Entry → List (List Text × Content)
  | .file content => [(names, content)]
  | .directory entries => filesAmong names entries

/-- The files of the entries of a directory. -/
def filesAmong (names : List Text) : List (Text × Entry) → List (List Text × Content)
  | [] => []
  | (name, entry) :: rest => files (names ++ [name]) entry ++ filesAmong names rest

end

end Entry

/-- All files, and the directory that relative paths start from. Names in a tree are Unicode texts. There are no
links, neither symbolic nor hard, so a file has one place. The limit on the length of a path holds for paths that are
looked up, not for those that a walk puts together. -/
structure FileTree where
  root : Entry
  current : List Text

namespace FileTree

/-- The most bytes that a name may have. -/
def nameLimit : Nat := 255

/-- The number of bytes that no path may reach. -/
def pathLimit : Nat := 4096

/-- The entry of a directory with a name. Names that are too long are refused before they are looked up, and names
that are no texts are not there. -/
def find? (entries : List (Text × Entry)) (name : Path) : Except Fault (Option Text) :=
  if nameLimit < name.bytes.length then .error .nameTooLong
  else .ok (name.text?.filter fun text => (entries.lookup text).isSome)

/-- Follows the segments of a path from a directory; gives the names that lead to its end. Every step leads through a
directory that exists, also one back up. -/
def follow (root : Entry) : List Text → List Path → Except Fault (List Text)
  | place, [] => .ok place
  | place, segment :: rest =>
    match root.at? place with
    | some (.directory entries) =>
      if Path.isTrivial segment then follow root place rest
      else if segment = Path.twoDots then follow root place.dropLast rest
      else
        match find? entries segment with
        | .ok (some name) => follow root (place ++ [name]) rest
        | .ok none => .error .notFound
        | .error fault => .error fault
    | some (.file _) => .error .notDirectory
    | none => .error .notFound

/-- The directory that a path starts from, and its segments from there. -/
def route (tree : FileTree) (path : Path) : List Text × List Path :=
  match path with
  | .char '/' :: rest => ([], Path.segments rest)
  | _ => (tree.current, Path.segments path)

/-- Why a path cannot lead anywhere, whatever the files are. -/
def spellingFault? (path : Path) : Option Fault :=
  if path.contains (.char '\x00') then some .zeroByte
  else if path.isEmpty then some .notFound
  else if pathLimit ≤ path.bytes.length then some .nameTooLong
  else none

/-- The names that lead to the end of a path. -/
def locate (tree : FileTree) (path : Path) : Except Fault (List Text) :=
  match spellingFault? path with
  | some fault => .error fault
  | none =>
    let (start, segments) := tree.route path
    follow tree.root start segments

def entry (tree : FileTree) (path : Path) : Except Fault Entry :=
  match tree.locate path with
  | .error fault => .error fault
  | .ok place =>
    match tree.root.at? place with
    | some entry => .ok entry
    | none => .error .notFound

/-- Whether a path leads to something. -/
def exists? (tree : FileTree) (path : Path) : Bool :=
  (tree.entry path).isOk

def isFile (tree : FileTree) (path : Path) : Bool :=
  match tree.entry path with
  | .ok (.file _) => true
  | _ => false

def read (tree : FileTree) (path : Path) : Except Fault Text :=
  match tree.entry path with
  | .error fault => .error fault
  | .ok (.file (.text text)) => .ok text
  | .ok (.file (.binary _)) => .error .notUtf8
  | .ok (.directory _) => .error .isDirectory

/-- Where a file with a name is written in the directory at a place. A slash behind the name asks for a
directory. -/
def placeIn (root : Entry) (place : List Text) (name : Path) (slash : Bool) : Except Fault (List Text) :=
  match root.at? place with
  | some (.directory entries) =>
    if slash then .error .isDirectory
    else
      match find? entries name, name.text? with
      | .error fault, _ => .error fault
      | .ok _, none => .error .notFound
      | .ok _, some text =>
        match entries.lookup text with
        | some (.directory _) => .error .isDirectory
        | _ => .ok (place ++ [text])
  | some (.file _) => .error .notDirectory
  | none => .error .notFound

/-- Where the file at a path is written: in a directory that exists. A path that ends in dots is a directory. -/
def writePlace (tree : FileTree) (path : Path) : Except Fault (List Text) :=
  match spellingFault? path with
  | some fault => .error fault
  | none =>
    let (start, segments) := tree.route path
    match segments.reverse.dropWhile List.isEmpty with
    | [] => .error .isDirectory
    | last :: before =>
      match follow tree.root start before.reverse with
      | .error fault => .error fault
      | .ok place =>
        if Path.isTrivial last || last = Path.twoDots then
          match follow tree.root place [last] with
          | .ok _ => .error .isDirectory
          | .error fault => .error fault
        else placeIn tree.root place last (segments.getLast? = some [])

/-- Writes a text into the file at a path, which is made if its directory exists. -/
def write (tree : FileTree) (path : Path) (text : Text) : Except Fault FileTree :=
  match tree.writePlace path with
  | .ok place => .ok { tree with root := Entry.put (.file (.text text)) place tree.root }
  | .error fault => .error fault

end FileTree

end RouteComments
