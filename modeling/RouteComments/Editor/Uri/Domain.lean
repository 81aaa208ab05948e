import RouteComments.Editor.Uri.Percent
import RouteComments.Editor.Uri.Punycode

set_option autoImplicit false

namespace RouteComments.Editor.Uri

open Text

/-- Code points whose letters alternate between upper and lower case, as the first one, the last one and the
remainder by two of the upper case. -/
def alternating : List (Nat × Nat × Nat) :=
  [(0x100, 0x12f, 0), (0x132, 0x137, 0), (0x139, 0x148, 1), (0x14a, 0x177, 0), (0x179, 0x17e, 1), (0x460, 0x481, 0),
    (0x48a, 0x4bf, 0), (0x4c1, 0x4ce, 1), (0x4d0, 0x52f, 0), (0x1e00, 0x1e95, 0), (0x1ea0, 0x1eff, 0)]

/-- Code points of letters in upper case, with the distance to the lower case. -/
def shifted : List (Nat × Nat × Nat) :=
  [(0x41, 0x5a, 32), (0xc0, 0xd6, 32), (0xd8, 0xde, 32), (0x388, 0x38a, 37), (0x38c, 0x38c, 64), (0x38e, 0x38f, 63),
    (0x391, 0x3a1, 32), (0x3a3, 0x3ab, 32), (0x400, 0x40f, 80), (0x410, 0x42f, 32), (0x531, 0x556, 48)]

def lowerLetter (c : Char) : Char :=
  let code := c.toNat
  match shifted.find? fun (first, last, _) => first ≤ code && code ≤ last with
  | some (_, _, distance) => Char.ofNat (code + distance)
  | none =>
    if alternating.any fun (first, last, upper) => first ≤ code && code ≤ last && code % 2 = upper then
      Char.ofNat (code + 1)
    else c

/-- Whether a character is left out of names: marks that are not seen. -/
def isSilent (c : Char) : Bool :=
  [0xad, 0x200b, 0x2060, 0x2064, 0xfeff].contains c.toNat || (0xfe00 ≤ c.toNat && c.toNat ≤ 0xfe0f)

/-- Whether a character is a full stop of another script. -/
def isStop (c : Char) : Bool :=
  c.toNat = 0x3002 || c.toNat = 0xff0e || c.toNat = 0xff61

/-- A character of a name as it counts: full stops as dots, wide characters as ASCII, and lower case. -/
def nameChar (c : Char) : Char :=
  if isStop c then '.'
  else if 0xff01 ≤ c.toNat && c.toNat ≤ 0xff5e then (Char.ofNat (c.toNat - 0xfee0)).toLower
  else lowerLetter c

/-- Whether a character beyond ASCII has no place in a name: controls, blanks, joiners and code points for private
or no use. -/
def isUnnamed (c : Char) : Bool :=
  let code := c.toNat
  (0x80 ≤ code && code ≤ 0xa0) || (0x2000 ≤ code && code ≤ 0x200f) || (0x2028 ≤ code && code ≤ 0x202f) ||
    code = 0x3000 || (0xe000 ≤ code && code ≤ 0xf8ff) || (0xfff0 ≤ code && code ≤ 0xffff) || 0xe0000 ≤ code

/-- Whether a character may not stand in any host. -/
def isForbidden (c : Char) : Bool :=
  c.toNat = 0 || c == ' ' || c == '#' || c == '/' || c == ':' || c == '<' || c == '>' || c == '?' ||
    c == '@' || c == '[' || c == '\\' || c == ']' || c == '^' || c == '|'

/-- Whether a character may not stand in the name of a host. -/
def isRefused (c : Char) : Bool :=
  isForbidden c || c.toNat < 0x20 || c.toNat = 0x7f || c == '%' || isUnnamed c

def asciiMark : Text :=
  "xn--".toList

/-- Whether a text that was read from ASCII is one that would have been written so. -/
def isProper (label : Text) : Bool :=
  !label.all Punycode.isBasic && label.all fun c => nameChar c == c && !isSilent c && !isRefused c

def asciiLabel? (label : Text) : Option Text :=
  match after? asciiMark label with
  | some written => if (Punycode.decode? written).any isProper then some label else none
  | none => some (if label.all Punycode.isBasic then label else asciiMark ++ Punycode.encode label)

/-- The normal form of a name: its labels in lower case, those beyond ASCII written in ASCII behind a mark. This is
simpler than UTS 46. Case is known for the Latin, Greek, Cyrillic and Armenian letters with a partner at a fixed
distance; other characters are not mapped, nothing is composed as in NFC, and no rule about the direction of writing
is checked. -/
def domain? (name : Text) : Option Text := do
  let seen := (name.filter (!isSilent ·)).map nameChar
  if seen.any isRefused then none
  else some (joinWith ['.'] (← (pieces '.' seen).mapM asciiLabel?))

end RouteComments.Editor.Uri
