import RouteComments.Text.Basic

set_option autoImplicit false

namespace RouteComments

namespace Text

/-- A character, or bytes that begin like one and are none. So nothing is lost by reading bytes that are no text. -/
inductive Glyph where
  | char (c : Char)
  | broken (bytes : List UInt8)
  deriving DecidableEq, Repr

/-- The bytes of a text in UTF-8. -/
def encode (text : Text) : List UInt8 :=
  text.flatMap String.utf8EncodeChar

/-- The ranges of the bytes that have to follow the first byte of a character of several bytes. -/
def followers (first : UInt8) : List (UInt8 × UInt8) :=
  if 0xc2 ≤ first && first ≤ 0xdf then [(0x80, 0xbf)]
  else if first = 0xe0 then [(0xa0, 0xbf), (0x80, 0xbf)]
  else if first = 0xed then [(0x80, 0x9f), (0x80, 0xbf)]
  else if 0xe1 ≤ first && first ≤ 0xef then [(0x80, 0xbf), (0x80, 0xbf)]
  else if first = 0xf0 then [(0x90, 0xbf), (0x80, 0xbf), (0x80, 0xbf)]
  else if first = 0xf4 then [(0x80, 0x8f), (0x80, 0xbf), (0x80, 0xbf)]
  else if 0xf1 ≤ first && first ≤ 0xf3 then [(0x80, 0xbf), (0x80, 0xbf), (0x80, 0xbf)]
  else []

/-- The bytes at the start of a list that lie in ranges, range by range. -/
def takeWithin : List (UInt8 × UInt8) → List UInt8 → List UInt8
  | (low, high) :: ranges, byte :: rest =>
    if low ≤ byte && byte ≤ high then byte :: takeWithin ranges rest else []
  | _, _ => []

/-- The code point of a character of several bytes. -/
def codePoint (first : UInt8) (rest : List UInt8) : Nat :=
  let high := match rest.length with
    | 1 => first.toNat % 32
    | 2 => first.toNat % 16
    | _ => first.toNat % 8
  rest.foldl (fun code byte => 64 * code + byte.toNat % 64) high

/-- The character that begins with a byte, and the number of bytes behind it that belong to it. -/
def firstGlyph (first : UInt8) (rest : List UInt8) : Glyph × Nat :=
  if first < 0x80 then (.char (Char.ofNat first.toNat), 0)
  else
    let ranges := followers first
    let found := takeWithin ranges rest
    (if !ranges.isEmpty && found.length = ranges.length then .char (Char.ofNat (codePoint first found))
      else .broken (first :: found), found.length)

/-- The characters of bytes. -/
def glyphs : List UInt8 → List Glyph
  | [] => []
  | first :: rest =>
    let (glyph, size) := firstGlyph first rest
    glyph :: glyphs (rest.drop size)
termination_by bytes => bytes.length

/-- The text of bytes that are one. -/
def decode? (bytes : List UInt8) : Option Text :=
  (glyphs bytes).mapM fun
    | .char c => some c
    | .broken _ => none

def Glyph.bytes : Glyph → List UInt8
  | .char c => String.utf8EncodeChar c
  | .broken bytes => bytes

/-- What is shown for a glyph: a question mark in a diamond for broken bytes. -/
def Glyph.shown : Glyph → Char
  | .char c => c
  | .broken _ => '\ufffd'

/-- Lexicographic order of bytes. -/
def bytesPrecede : List UInt8 → List UInt8 → Bool
  | [], _ => true
  | _ :: _, [] => false
  | a :: as, b :: bs => if a = b then bytesPrecede as bs else a < b

@[simp] theorem encode_nil : encode [] = [] := rfl

@[simp] theorem encode_append (a b : Text) : encode (a ++ b) = encode a ++ encode b := by
  simp [encode]

end Text

end RouteComments
