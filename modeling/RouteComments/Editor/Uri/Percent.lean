import RouteComments.Text.Utf8

set_option autoImplicit false

namespace RouteComments.Editor.Uri

open Text

/-- A hexadecimal digit in upper case. -/
def upperHex (n : Nat) : Char :=
  (Nat.digitChar n).toUpper

def percentByte (byte : UInt8) : Text :=
  ['%', upperHex (byte.toNat / 16), upperHex (byte.toNat % 16)]

/-- Whether a character is a control character or beyond ASCII. -/
def isControl (c : Char) : Bool :=
  c.toNat < 0x20 || 0x7e < c.toNat

/-- Whether a character is written as its bytes in a fragment. -/
def inFragmentSet (c : Char) : Bool :=
  isControl c || c == ' ' || c == '"' || c == '<' || c == '>' || c.toNat == 0x60

/-- Whether a character is written as its bytes in a query. -/
def inQuerySet (c : Char) : Bool :=
  isControl c || c == ' ' || c == '"' || c == '#' || c == '<' || c == '>'

/-- Whether a character is written as its bytes in a path. -/
def inPathSet (c : Char) : Bool :=
  inFragmentSet c || c == '#' || c == '?' || c == '{' || c == '}'

/-- Whether a character is written as its bytes in the name of a user. -/
def inUserSet (c : Char) : Bool :=
  inPathSet c || c == '/' || c == ':' || c == ';' || c == '=' || c == '@' || c == '[' || c == '\\' ||
    c == ']' || c == '^' || c == '|'

/-- Whether a character of a file name is written as its bytes. -/
def inNameSet (c : Char) : Bool :=
  inPathSet c || c == '/' || c == '%' || c == '\\'

/-- A text with the characters of a set written as their bytes. -/
def encode (inSet : Char → Bool) (text : Text) : Text :=
  text.flatMap fun c => if inSet c then (String.utf8EncodeChar c).flatMap percentByte else [c]

/-- The name of a file with the characters of a set written as their bytes, and bytes that are no characters. -/
def encodeName (inSet : Char → Bool) (name : List Glyph) : Text :=
  name.flatMap fun
    | .char c => encode inSet [c]
    | .broken bytes => bytes.flatMap percentByte

/-- The value of a hexadecimal digit. -/
def hexValue? (c : Char) : Option Nat :=
  if c.isDigit then some (c.toNat - '0'.toNat)
  else if 'a' ≤ c ∧ c ≤ 'f' then some (c.toNat - 'a'.toNat + 10)
  else if 'A' ≤ c ∧ c ≤ 'F' then some (c.toNat - 'A'.toNat + 10)
  else none

/-- The bytes of a text in which percent signs with two digits stand for bytes. -/
def decodeBytes : Text → List UInt8
  | '%' :: high :: low :: rest =>
    match hexValue? high, hexValue? low with
    | some h, some l => UInt8.ofNat (16 * h + l) :: decodeBytes rest
    | _, _ => '%'.toUInt8 :: decodeBytes (high :: low :: rest)
  | c :: rest => String.utf8EncodeChar c ++ decodeBytes rest
  | [] => []

/-- The text that percent signs stand for, if it is one. -/
def decode? (text : Text) : Option Text :=
  Text.decode? (decodeBytes text)

end RouteComments.Editor.Uri
