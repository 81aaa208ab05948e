import RouteComments.Text.Basic

set_option autoImplicit false

namespace RouteComments.Editor.Punycode

open Text

def digit (value : Nat) : Char :=
  if value < 26 then Char.ofNat ('a'.toNat + value) else Char.ofNat ('0'.toNat + (value - 26))

def digitValue? (c : Char) : Option Nat :=
  if c.isLower then some (c.toNat - 'a'.toNat)
  else if c.isDigit then some (c.toNat - '0'.toNat + 26)
  else none

/-- The least digit that does not end a number at a place, which counts in steps of 36. -/
def threshold (bias place : Nat) : Nat :=
  max 1 (min 26 (place - bias))

theorem threshold_pos (bias place : Nat) : 0 < threshold bias place := by
  unfold threshold
  omega

/-- Divides a distance until it is small, and counts the divisions. -/
def shrink (distance : Nat) : Nat × Nat :=
  if 455 < distance then
    let (rest, count) := shrink (distance / 35)
    (rest, count + 1)
  else (distance, 0)
termination_by distance
decreasing_by omega

/-- The bias behind a distance to one of some characters. The first distance is long and counts little. -/
def adapt (distance characters : Nat) (isFirst : Bool) : Nat :=
  let start := if isFirst then distance / 700 else distance / 2
  let (rest, count) := shrink (start + start / characters)
  36 * count + 36 * rest / (rest + 38)

def digits (bias place number : Nat) : Text :=
  let least := threshold bias place
  if number < least then [digit number]
  else
    digit (least + (number - least) % (36 - least)) ::
      digits bias (place + 36) ((number - least) / (36 - least))
termination_by number
decreasing_by
  have positive := threshold_pos bias place
  have small := Nat.div_le_self (number - threshold bias place) (36 - threshold bias place)
  omega

/-- What is written so far: the digits, the distance since then, the bias and the number of characters. -/
structure Written where
  text : Text
  distance : Nat
  bias : Nat
  characters : Nat

/-- Passes a character of the text on the way to those with a code point. -/
def Written.pass (basic code : Nat) (written : Written) (c : Char) : Written :=
  if c.toNat < code then { written with distance := written.distance + 1 }
  else if c.toNat = code then
    { text := written.text ++ digits written.bias 36 written.distance
      distance := 0
      bias := adapt written.distance (written.characters + 1) (written.characters = basic)
      characters := written.characters + 1 }
  else written

/-- Writes the characters with the code points of an ascending list; `least` is the first that may come. -/
def Written.add (text : Text) (basic : Nat) (written : Written) (least : Nat) : List Nat → Written
  | [] => written
  | code :: rest =>
    let moved := { written with distance := written.distance + (code - least) * (written.characters + 1) }
    let passed := text.foldl (Written.pass basic code) moved
    Written.add text basic { passed with distance := passed.distance + 1 } (code + 1) rest

/-- Whether a character is in ASCII. -/
def isBasic (c : Char) : Bool :=
  c.toNat < 0x80

/-- A text in ASCII: its ASCII characters, and behind a hyphen every other one by its distance from the one before it,
in the order of code points and then of places. Characters are taken as they come, without mapping (UTS 46),
composition (NFC) or rules about the direction of writing. -/
def encode (text : Text) : Text :=
  let basic := text.filter isBasic
  let others := (text.filter (!isBasic ·)).map Char.toNat
  let written := Written.add text basic.length { text := [], distance := 0, bias := 72, characters := basic.length }
    0x80 (others.mergeSort (· ≤ ·)).eraseDups
  basic ++ (if basic.isEmpty then [] else ['-']) ++ written.text

/-- What is read so far: the characters, the code point and the place of the last, and the number that is being
read with its next place and weight. -/
structure Read where
  text : Text
  code : Nat
  place : Nat
  bias : Nat
  number : Nat
  digitPlace : Nat
  weight : Nat

/-- Adds the character at the distance that has been read. -/
def Read.insert? (read : Read) : Option Read :=
  let characters := read.text.length + 1
  let reached := read.place + read.number
  let code := read.code + reached / characters
  let place := reached % characters
  if code.isValidChar then
    some { text := read.text.take place ++ Char.ofNat code :: read.text.drop place
           code
           place := place + 1
           bias := adapt read.number characters (read.place = 0)
           number := 0
           digitPlace := 36
           weight := 1 }
  else none

def Read.digit? (read : Read) (c : Char) : Option Read := do
  let value ← digitValue? c
  let least := threshold read.bias read.digitPlace
  let next := { read with number := read.number + value * read.weight }
  if value < least then next.insert?
  else some { next with digitPlace := read.digitPlace + 36, weight := read.weight * (36 - least) }

/-- The text that ASCII characters stand for. -/
def decode? (text : Text) : Option Text :=
  let (basic, written) := match text.reverse.dropWhile (· != '-') with
    | [] => ([], text)
    | [_] => ([], text)
    | _ :: before => (before.reverse, text.drop (before.length + 1))
  let start : Read :=
    { text := basic, code := 0x80, place := 0, bias := 72, number := 0, digitPlace := 36, weight := 1 }
  match written.foldlM Read.digit? start with
  | some read => if read.weight = 1 then some read.text else none
  | none => none

end RouteComments.Editor.Punycode
