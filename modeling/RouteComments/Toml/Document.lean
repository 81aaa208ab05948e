import RouteComments.Toml.Quoted
import RouteComments.Toml.Table

set_option autoImplicit false

namespace RouteComments.Toml

open Text

def skipSpaces (text : Text) : Text :=
  text.dropWhile isSpaceOrTab

def skipComment : Text → Text
  | '#' :: rest => rest.dropWhile isPlain
  | text => text

/-- The text behind blanks, line ends and comments. -/
def skipLayout (text : Text) : Text :=
  skipAll (fun rest =>
    match rest with
    | '#' :: more => some (more.dropWhile isPlain)
    | c :: more => if isSpaceOrTab c then some more else newline? rest
    | [] => none) text

/-- Reads the rest of a line without content: blanks, an optional comment and the line end or the end. -/
def endLine? (text : Text) : Option Text :=
  match skipComment (skipSpaces text) with
  | [] => some []
  | rest => newline? rest

def inBareKey (c : Char) : Bool :=
  c.isAlphanum || c == '_' || c == '-'

/-- Reads one part of a key. -/
def simpleKey? (text : Text) : Option (Text × Text) :=
  match text.takeWhile inBareKey with
  | [] => shortString? text
  | key => some (key, text.dropWhile inBareKey)

/-- The number of nested values and of parts of a key from which on a document is refused. -/
def depthLimit : Nat := 80

/-- Reads a key with dots between its parts, and the blanks behind it. -/
def key? (fuel : Nat) (text : Text) : Option (List Text × Text) :=
  match fuel with
  | 0 => none
  | fuel + 1 =>
    match simpleKey? (skipSpaces text) with
    | none => none
    | some (part, rest) =>
      match skipSpaces rest with
      | '.' :: more => (key? fuel more).map fun (parts, behind) => (part :: parts, behind)
      | behind => some ([part], behind)

/-- Reads a key of a permitted length. -/
def dottedKey? (text : Text) : Option (List Text × Text) :=
  (key? (text.length + 1) text).filter fun (parts, _) => parts.length < depthLimit

def keyEquals? (text : Text) : Option (List Text × Text) :=
  match dottedKey? text with
  | some (path, '=' :: rest) => some (path, skipSpaces rest)
  | _ => none

mutual

/-- Reads a value; `depth` levels of nesting are left. -/
def value? (fuel depth : Nat) (text : Text) : Option (Value × Text) :=
  match fuel with
  | 0 => none
  | fuel + 1 =>
    match text with
    | '[' :: rest =>
      if depth = 0 then none
      else (items? fuel (depth - 1) rest).map fun (items, behind) => (.array items, behind)
    | '{' :: rest =>
      if depth = 0 then none
      else
        match skipSpaces rest with
        | '}' :: behind => some (.table [], behind)
        | inner =>
          (pairs? fuel (depth - 1) [] inner).map fun (entries, behind) =>
            (.table (Entries.fields entries), behind)
    | c :: rest =>
      if c = '"' ∨ c = '\x27' then (string? (c :: rest)).map fun (found, behind) => (.string found, behind)
      else
        let (found, behind) := scalarText (c :: rest)
        (scalar? found).map fun value => (value, behind)
    | [] => none

/-- Reads the items of an array behind its opening bracket or a comma. -/
def items? (fuel depth : Nat) (text : Text) : Option (List Value × Text) :=
  match fuel with
  | 0 => none
  | fuel + 1 =>
    match skipLayout text with
    | ']' :: behind => some ([], behind)
    | start =>
      match value? fuel depth start with
      | none => none
      | some (item, rest) =>
        match skipLayout rest with
        | ',' :: more => (items? fuel depth more).map fun (items, behind) => (item :: items, behind)
        | ']' :: behind => some ([item], behind)
        | _ => none

/-- Reads the pairs of an inline table up to its closing brace into a table. -/
def pairs? (fuel depth : Nat) (entries : Entries) (text : Text) : Option (Entries × Text) :=
  match fuel with
  | 0 => none
  | fuel + 1 =>
    match keyEquals? text with
    | none => none
    | some (path, start) =>
      match value? fuel depth start with
      | none => none
      | some (value, rest) =>
        match entries.define? value path with
        | none => none
        | some entries =>
          match skipSpaces rest with
          | ',' :: more => pairs? fuel depth entries more
          | '}' :: behind => some (entries, behind)
          | _ => none

end

/-- A document while it is read: all tables, and the path of the table that pairs go to. -/
structure Reading where
  root : Entries
  path : List Text

def pairLine? (reading : Reading) (text : Text) : Option (Reading × Text) := do
  let (path, start) ← keyEquals? text
  let (value, rest) ← value? (2 * start.length + 2) (depthLimit - 1) start
  let root ← reading.root.descend? (·.define? value path) reading.path
  some ({ reading with root }, ← endLine? rest)

def headerPath? (closing text : Text) : Option (List Text × Text) :=
  match dottedKey? text with
  | some (path, rest) => (after? closing rest).map fun behind => (path, behind)
  | none => none

/-- Reads a line at its first character that is not blank. -/
def line? (reading : Reading) : Text → Option (Reading × Text)
  | '[' :: '[' :: rest => do
    let (path, behind) ← headerPath? "]]".toList rest
    some ({ root := ← reading.root.openElement? path, path }, ← endLine? behind)
  | '[' :: rest => do
    let (path, behind) ← headerPath? "]".toList rest
    some ({ root := ← reading.root.openTable? path, path }, ← endLine? behind)
  | text => pairLine? reading text

def lines? (fuel : Nat) (reading : Reading) (text : Text) : Option Reading :=
  match fuel with
  | 0 => none
  | fuel + 1 =>
    match skipSpaces text with
    | [] => some reading
    | start =>
      match endLine? start with
      | some [] => some reading
      | some rest => lines? fuel reading rest
      | none =>
        match line? reading start with
        | some (next, rest) => lines? fuel next rest
        | none => none

/-- The text without a byte order mark. -/
def dropMark : Text → Text
  | c :: rest => if c.toNat = 0xfeff then rest else c :: rest
  | [] => []

/-- The fields of a document, or `none` if it is malformed. -/
def parse? (text : Text) : Option (List (Text × Value)) :=
  (lines? (text.length + 1) { root := [], path := [] } (dropMark text)).map fun reading =>
    Entries.fields reading.root

end RouteComments.Toml
