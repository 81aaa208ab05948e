import RouteComments.Editor.Uri.Authority
import RouteComments.Path

set_option autoImplicit false

namespace RouteComments.Editor

open Text

/-- A normalised URI. -/
structure Uri where
  scheme : Text
  /-- What stands behind two slashes; without them there is none. -/
  authority : Option Uri.Authority
  /-- The path, which starts with a slash unless it is `rootless` or empty. -/
  path : Text
  /-- Whether the path is a plain name and no hierarchy. -/
  rootless : Bool
  /-- Query and fragment with their signs. -/
  tail : Text
  deriving DecidableEq, Repr

namespace Uri

/-- A URI as it is written. A path that starts with two slashes is kept apart from an authority. -/
def text (uri : Uri) : Text :=
  uri.scheme ++ ':' :: (match uri.authority with
    | some authority => '/' :: '/' :: authority.text
    | none => if ['/', '/'].isPrefixOf uri.path then ['/', '.'] else []) ++ uri.path ++ uri.tail

def fileScheme : Text :=
  "file".toList

/-- Whether a character does not count anywhere in a URI. -/
def isBreak (c : Char) : Bool :=
  c == '\t' || c == '\n' || c == '\r'

/-- The characters of a text that count. -/
def visible (text : Text) : Text :=
  text.filter (!isBreak ·)

/-- Whether a segment stands for its own directory. -/
def isDot (segment : Text) : Bool :=
  asciiLower segment == ['.'] || asciiLower segment == "%2e".toList

/-- Whether a segment stands for the directory above. -/
def isTwoDots (segment : Text) : Bool :=
  ["..".toList, ".%2e".toList, "%2e.".toList, "%2e%2e".toList].contains (asciiLower segment)

/-- Whether a segment is the letter of a drive. -/
def isDrive : Text → Bool
  | [c, mark] => c.isAlpha && (mark == ':' || mark == '|')
  | _ => false

/-- Whether a segment starts with the letter of a drive, up to its end or a backslash. -/
def startsWithDrive : Text → Bool
  | c :: mark :: rest => isDrive [c, mark] && (rest.isEmpty || rest.head? = some '\\')
  | _ => false

/-- The drive and the rest of a segment that starts with a drive, where a break stands between the two. -/
def dividedDrive? (segment : Text) : Option (Text × Text) :=
  match visible segment, (segment.dropWhile (· != ':')).drop 1 with
  | c :: ':' :: d :: rest, behind :: _ =>
    if c.isAlpha && isBreak behind then some ([c, ':'], d :: rest) else none
  | _, _ => none

/-- How segments collect into a path. The first segment of a file may be a drive. -/
structure Layout where
  hasDrives : Bool

/-- The segments of a path as they are read. -/
structure Trail where
  /-- The segments so far, last first. -/
  found : List Text
  /-- Whether the first of them was read as a drive. -/
  onDrive : Bool

/-- No segment. -/
def Trail.empty : Trail where
  found := []
  onDrive := false

/-- Adds a segment. Breaks in it do not count, but one behind a drive divides the first segment of a file: there the
drive is an ordinary name, and so is the rest, whatever it looks like. -/
def Layout.push (layout : Layout) (trail : Trail) (segment : Text) : Trail :=
  let name := visible segment
  if layout.hasDrives && trail.found.isEmpty then
    match dividedDrive? segment with
    | some (drive, rest) => { trail with found := [rest, drive] }
    | none =>
      if isDrive name then { found := [name.take 1 ++ [':']], onDrive := true }
      else { trail with found := [name] }
  else { trail with found := name :: trail.found }

/-- Goes to the directory above. Above a drive there is none, wherever it stands. -/
def goUp : List Text → List Text
  | [] => []
  | last :: before => if startsWithDrive last then last :: before else before

/-- Follows the segments of a path and resolves those that are dots. -/
def Layout.follow (layout : Layout) (trail : Trail) : List Text → Trail
  | [] => trail
  | [segment] =>
    if isTwoDots (visible segment) then { trail with found := [] :: goUp trail.found }
    else if isDot (visible segment) then { trail with found := [] :: trail.found }
    else layout.push trail segment
  | segment :: rest =>
    if isTwoDots (visible segment) then layout.follow { trail with found := goUp trail.found } rest
    else if isDot (visible segment) then layout.follow trail rest
    else layout.follow (layout.push trail segment) rest

/-- The segments in normal form. -/
def Trail.segments (trail : Trail) : List Text :=
  trail.found.reverse.map (encode inPathSet)

/-- The segments of a path behind its first slash, in normal form. -/
def Layout.normalSegments (layout : Layout) (path : Text) : List Text :=
  (layout.follow .empty (pieces '/' path)).segments

def pathOf (segments : List Text) : Text :=
  '/' :: joinWith ['/'] segments

def files : Layout where
  hasDrives := true

/-- All other paths. -/
def plain : Layout where
  hasDrives := false

/-- Whether a character starts a query or a fragment. -/
def startsTail (c : Char) : Bool :=
  c == '?' || c == '#'

/-- Splits a text into the part before a query or fragment, and their normal form. -/
def splitTail (inSet : Char → Bool) (text : Text) : Text × Text :=
  let main := text.takeWhile (!startsTail ·)
  let tail := match text.dropWhile (!startsTail ·) with
    | '?' :: rest =>
      let query := '?' :: encode inSet (rest.takeWhile (· != '#'))
      match rest.dropWhile (· != '#') with
      | _ :: fragment => query ++ '#' :: encode inFragmentSet fragment
      | [] => query
    | '#' :: fragment => '#' :: encode inFragmentSet fragment
    | rest => rest
  (main, tail)

/-- A path that may be empty, in normal form. -/
def optionalPath (path : Text) : Text :=
  match path with
  | [] => []
  | '/' :: rest => pathOf (plain.normalSegments rest)
  | _ => pathOf (plain.normalSegments path)

/-- The URI of a file on a host, with the segments behind the first slash of its path. There is no host for a file
on a drive, and empty segments at the start of the path do not count. -/
def ofFile (host : Text) (segments : List Text) (tail : Text) : Uri :=
  let trail := files.follow .empty segments
  { scheme := fileScheme
    authority := some { Authority.blank with host := if trail.onDrive then [] else host }
    path := pathOf (trail.segments.dropWhile List.isEmpty)
    rootless := false
    tail }

/-- The segments behind a slash at the start, if there is one. -/
def behindSlash? : List Text → Option (List Text)
  | first :: second :: rest => if (visible first).isEmpty then some (second :: rest) else none
  | _ => none

/-- The URI of a file from what stands behind two slashes: a host, and the segments behind it. The letter of a drive
is no host. -/
def ofFileHost? (host : Text) (segments : List Text) (tail : Text) : Option Uri :=
  let name := visible host
  if name.isEmpty || isDrive name then some (ofFile [] (host :: segments) tail)
  else (hostName? name).map fun name =>
    if name = "localhost".toList then ofFile [] ([] :: segments) tail else ofFile name segments tail

def ofFileRest? (segments : List Text) (tail : Text) : Option Uri :=
  match behindSlash? segments with
  | none => some (ofFile [] segments tail)
  | some behind =>
    match behindSlash? behind with
    | some (host :: path) => ofFileHost? host path tail
    | _ => some (ofFile [] behind tail)

/-- The URI of a scheme with a host from what stands behind the scheme. -/
def ofHostRest? (scheme : Text) (usualPort : Nat) (main tail : Text) : Option Uri :=
  (Authority.parse? hostName? tail.isEmpty (main.dropWhile (· == '/'))).map fun (authority, path) =>
    { scheme, authority := some (authority.dropPort usualPort), path := pathOf (plain.normalSegments (path.drop 1))
      rootless := false, tail }

def ofOtherRest? (scheme main tail : Text) : Option Uri :=
  match main with
  | '/' :: '/' :: rest =>
    (Authority.parse? opaqueHost? tail.isEmpty rest).map fun (authority, path) =>
      { scheme, authority := some authority, path := optionalPath path, rootless := false, tail }
  | '/' :: rest =>
    some { scheme, authority := none, path := pathOf (plain.normalSegments rest), rootless := false, tail }
  | rest => some { scheme, authority := none, path := encode isControl rest, rootless := true, tail }

/-- Whether a character is removed at the ends of a URI. -/
def isEdge (c : Char) : Bool :=
  c.toNat ≤ 0x20

def forwardSlashes (text : Text) : Text :=
  text.map fun c => if c = '\\' then '/' else c

/-- Whether a character may stand in a scheme behind its first letter. -/
def inScheme (c : Char) : Bool :=
  c.isAlphanum || c == '+' || c == '-' || c == '.'

/-- Reads what stands behind a scheme and its colon. -/
def ofRest? (scheme rest : Text) : Option Uri :=
  if scheme = fileScheme then
    let (_, tail) := splitTail (fun c => inQuerySet c || c == '\x27') (visible rest)
    ofFileRest? (pieces '/' (forwardSlashes (rest.takeWhile (!startsTail ·)))) tail
  else
    match hostSchemes.lookup scheme with
    | some usualPort =>
      let (main, tail) := splitTail (fun c => inQuerySet c || c == '\x27') (visible rest)
      ofHostRest? scheme usualPort (forwardSlashes main) tail
    | none =>
      let (main, tail) := splitTail inQuerySet (visible rest)
      ofOtherRest? scheme main tail

/-- Reads a URI; without a scheme there is none. -/
def parse? (written : Text) : Option Uri :=
  let trimmed := dropAround isEdge written
  let scheme := visible (trimmed.takeWhile fun c => inScheme c || isBreak c)
  match trimmed.dropWhile fun c => inScheme c || isBreak c with
  | ':' :: rest => if scheme.head?.any Char.isAlpha then ofRest? (asciiLower scheme) rest else none
  | _ => none

def endsWithDrive (path : Path) : Bool :=
  match path.reverse with
  | .char mark :: .char c :: _ :: _ => isDrive [c, mark]
  | _ => false

/-- Whether a URI names something on this machine. -/
def isLocal (uri : Uri) : Bool :=
  uri.authority.all fun authority => authority.host.isEmpty || authority.host == "localhost".toList

def filePath? (uri : Uri) : Option Path :=
  if uri.isLocal && uri.path.head? = some '/' && !uri.rootless then
    let path := glyphs (decodeBytes uri.path)
    some (if endsWithDrive path then path ++ [.char '/'] else path)
  else none

def componentText : Path.Component → Text
  | .root => []
  | .current => []
  | .parent => "/..".toList
  | .name name => '/' :: encodeName inNameSet name

def ofPath? (path : Path) : Option Uri :=
  if path.isAbsolute then
    let written := path.components.flatMap componentText
    some { scheme := fileScheme, authority := some Authority.blank
           path := if written.isEmpty then ['/'] else written, rootless := false, tail := [] }
  else none

end Uri

end RouteComments.Editor
