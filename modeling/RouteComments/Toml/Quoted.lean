import RouteComments.Toml.Scalar

set_option autoImplicit false

namespace RouteComments.Toml

open Text

/-- Characters that may stand for themselves in a comment, and in a string beside its quotes and escapes. -/
def isPlain (c : Char) : Bool :=
  c == '\t' || (0x20 ≤ c.toNat && c.toNat != 0x7f)

/-- The character of hexadecimal digits that name one. -/
def scalarValue? (digits : Text) : Option Char :=
  let code := numberOf 16 digits
  if digits.all isHexDigit && (code < 0xd800 || (0xdfff < code && code < 0x110000)) then
    some (Char.ofNat code)
  else none

/-- The character of a short escape. -/
def escaped? (c : Char) : Option Char :=
  if c = 'b' then some '\x08'
  else if c = 't' then some '\t'
  else if c = 'n' then some '\n'
  else if c = 'f' then some '\x0c'
  else if c = 'r' then some '\r'
  else if c = '"' then some '"'
  else if c = '\\' then some '\\'
  else none

/-- Reads an escape behind its backslash. -/
def escape? : Text → Option (Char × Text)
  | 'u' :: rest =>
    if rest.length < 4 then none
    else (scalarValue? (rest.take 4)).map fun c => (c, rest.drop 4)
  | 'U' :: rest =>
    if rest.length < 8 then none
    else (scalarValue? (rest.take 8)).map fun c => (c, rest.drop 8)
  | c :: rest => (escaped? c).map fun found => (found, rest)
  | [] => none

/-- Reads a line feed or a carriage return with one. -/
def newline? : Text → Option Text
  | '\n' :: rest => some rest
  | '\r' :: '\n' :: rest => some rest
  | _ => none

/-- Puts a character in front of what a reader found. -/
def prepend (c : Char) (found : Option (Text × Text)) : Option (Text × Text) :=
  found.map fun (text, rest) => (c :: text, rest)

/-- Reads a basic string behind its opening quote. -/
def basic? (fuel : Nat) (text : Text) : Option (Text × Text) :=
  match fuel with
  | 0 => none
  | fuel + 1 =>
    match text with
    | [] => none
    | '"' :: rest => some ([], rest)
    | '\\' :: rest =>
      match escape? rest with
      | some (c, behind) => prepend c (basic? fuel behind)
      | none => none
    | c :: rest => if isPlain c then prepend c (basic? fuel rest) else none

/-- Reads a literal string behind its opening quote. -/
def literal? (text : Text) : Option (Text × Text) :=
  match text.dropWhile fun c => c != '\x27' && isPlain c with
  | '\x27' :: rest => some (text.takeWhile fun c => c != '\x27' && isPlain c, rest)
  | _ => none

/-- Splits off up to two quotes that stand before the closing three, of which the first three were read. -/
def extraQuotes (quote : Char) : Text → Text × Text
  | a :: b :: rest =>
    if a = quote then if b = quote then ([a, b], rest) else ([a], b :: rest) else ([], a :: b :: rest)
  | [a] => if a = quote then ([a], []) else ([], [a])
  | [] => ([], [])

/-- Whether only spaces and tabs stand before the next line. -/
def endsLine (text : Text) : Bool :=
  (newline? (text.dropWhile isSpaceOrTab)).isSome

/-- The text behind blanks and line ends. -/
def skipLines (text : Text) : Text :=
  skipAll (fun rest =>
    match rest with
    | c :: more => if isSpaceOrTab c then some more else newline? rest
    | [] => none) text

/-- Reads a basic string over several lines behind its opening quotes. A backslash at the end of a line
removes the line end and the blanks behind it; a line end is a line feed. -/
def longBasic? (fuel : Nat) (text : Text) : Option (Text × Text) :=
  match fuel with
  | 0 => none
  | fuel + 1 =>
    match text with
    | [] => none
    | '"' :: '"' :: '"' :: rest => some (extraQuotes '"' rest)
    | '\\' :: rest =>
      if endsLine rest then longBasic? fuel (skipLines rest)
      else
        match escape? rest with
        | some (c, behind) => prepend c (longBasic? fuel behind)
        | none => none
    | c :: rest =>
      match newline? (c :: rest) with
      | some behind => prepend '\n' (longBasic? fuel behind)
      | none => if isPlain c then prepend c (longBasic? fuel rest) else none

/-- Reads a literal string over several lines behind its opening quotes. -/
def longLiteral? (fuel : Nat) (text : Text) : Option (Text × Text) :=
  match fuel with
  | 0 => none
  | fuel + 1 =>
    match text with
    | [] => none
    | '\x27' :: '\x27' :: '\x27' :: rest => some (extraQuotes '\x27' rest)
    | c :: rest =>
      match newline? (c :: rest) with
      | some behind => prepend '\n' (longLiteral? fuel behind)
      | none => if isPlain c then prepend c (longLiteral? fuel rest) else none

/-- The text without a line end at its start. -/
def dropNewline (text : Text) : Text :=
  (newline? text).getD text

/-- Reads a string on one line. -/
def shortString? : Text → Option (Text × Text)
  | '"' :: rest => basic? (rest.length + 1) rest
  | '\x27' :: rest => literal? rest
  | _ => none

/-- Reads a string of any kind. -/
def string? : Text → Option (Text × Text)
  | '"' :: '"' :: '"' :: rest => longBasic? (rest.length + 1) (dropNewline rest)
  | '\x27' :: '\x27' :: '\x27' :: rest => longLiteral? (rest.length + 1) (dropNewline rest)
  | text => shortString? text

end RouteComments.Toml
