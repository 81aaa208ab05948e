import RouteComments.Text.Blank

set_option autoImplicit false

namespace RouteComments.Toml

open Text

/-- A TOML value. Floats, dates and times keep their text. -/
inductive Value where
  | string (text : Text)
  | integer (value : Int)
  | boolean (value : Bool)
  | float (text : Text)
  | moment (text : Text)
  | array (items : List Value)
  | table (fields : List (Text × Value))

/-- Whether a text is digits of a class with single underscores between them. -/
def isGrouped (isDigit : Char → Bool) (text : Text) : Bool :=
  (pieces '_' text).all fun group => !group.isEmpty && group.all isDigit

/-- Whether a text is a decimal number without a leading zero. -/
def isDecimal (text : Text) : Bool :=
  isGrouped Char.isDigit text && (text.head? != some '0' || text.length == 1)

/-- A text without its sign, and whether the sign is a minus. -/
def dropSign : Text → Bool × Text
  | '+' :: rest => (false, rest)
  | '-' :: rest => (true, rest)
  | text => (false, text)

/-- The value of a digit up to `f`. -/
def digitValue (c : Char) : Nat :=
  if c.isDigit then c.toNat - '0'.toNat
  else if c.toNat < 'a'.toNat then c.toNat - 'A'.toNat + 10
  else c.toNat - 'a'.toNat + 10

/-- Whether a character is a hexadecimal digit. -/
def isHexDigit (c : Char) : Bool :=
  c.isDigit || ('a' ≤ c && c ≤ 'f') || ('A' ≤ c && c ≤ 'F')

/-- The number that digits of a base form, underscores left out. -/
def numberOf (base : Nat) (text : Text) : Nat :=
  (text.filter (· != '_')).foldl (fun sum c => sum * base + digitValue c) 0

/-- An integer of 64 bits. -/
def bounded? (value : Int) : Option Value :=
  if -9223372036854775808 ≤ value ∧ value ≤ 9223372036854775807 then some (.integer value) else none

def integer? (text : Text) : Option Value :=
  match text with
  | '0' :: 'x' :: digits =>
    if isGrouped isHexDigit digits then bounded? (numberOf 16 digits) else none
  | '0' :: 'o' :: digits =>
    if isGrouped (fun c => '0' ≤ c && c ≤ '7') digits then bounded? (numberOf 8 digits) else none
  | '0' :: 'b' :: digits =>
    if isGrouped (fun c => c == '0' || c == '1') digits then bounded? (numberOf 2 digits) else none
  | _ =>
    let (negative, digits) := dropSign text
    if isDecimal digits then
      bounded? (if negative then -(numberOf 10 digits : Int) else numberOf 10 digits)
    else none

/-- Whether a text is the exponent of a float, behind its letter. -/
def isExponent (text : Text) : Bool :=
  isGrouped Char.isDigit (dropSign text).2

def startsExponent (c : Char) : Bool :=
  c == 'e' || c == 'E'

/-- The parts of a float without its sign: the digits before the point and, if they are written, those behind it
and the exponent. -/
structure FloatParts where
  whole : Text
  fraction : Option Text
  exponent : Option Text

namespace FloatParts

/-- Divides a text at its first exponent letter and at the point before that. -/
def ofText (text : Text) : FloatParts :=
  let mantissa := text.takeWhile (!startsExponent ·)
  { whole := mantissa.takeWhile (· != '.')
    fraction := (mantissa.dropWhile (· != '.')).tail?
    exponent := (text.dropWhile (!startsExponent ·)).tail? }

def isWritten (parts : FloatParts) : Bool :=
  isDecimal parts.whole && parts.fraction.all (isGrouped Char.isDigit) && parts.exponent.all isExponent &&
    (parts.fraction.isSome || parts.exponent.isSome)

/-- The power of ten that the digits of the parts are scaled by. -/
def scale (parts : FloatParts) : Int :=
  let (negative, digits) := dropSign (parts.exponent.getD [])
  let exponent := numberOf 10 digits
  (if negative then -(exponent : Int) else exponent) - ((parts.fraction.getD []).filter (· != '_')).length

/-- The least number that is rounded to infinity: half a unit beyond the largest float of 64 bits. It has 309
digits. -/
def limit : Nat := (Nat.pow 2 54 - 1) * Nat.pow 2 970

/-- Whether the parts are a number that is rounded to infinity. Those with more or fewer than 309 digits before
the point need no comparison. -/
def isTooLarge (parts : FloatParts) : Bool :=
  let digits := ((parts.whole ++ parts.fraction.getD []).filter (· != '_')).dropWhile (· == '0')
  let scale := parts.scale
  let size := digits.length + scale
  !digits.isEmpty &&
    (309 < size || (size = 309 &&
      limit * Nat.pow 10 (-scale).toNat ≤ numberOf 10 digits * Nat.pow 10 scale.toNat))

end FloatParts

/-- Whether a text is a float. A number that is too large is none, but below zero it stands for infinity. -/
def isFloat (text : Text) : Bool :=
  let (negative, unsigned) := dropSign text
  if unsigned = "inf".toList || unsigned = "nan".toList then true
  else
    let parts := FloatParts.ofText unsigned
    parts.isWritten && (negative || !parts.isTooLarge)

def twoDigits? : Text → Option (Nat × Text)
  | a :: b :: rest =>
    if a.isDigit && b.isDigit then some (10 * digitValue a + digitValue b, rest) else none
  | _ => none

def daysOf (year month : Nat) : Nat :=
  if month = 2 then if year % 4 = 0 ∧ (year % 100 ≠ 0 ∨ year % 400 = 0) then 29 else 28
  else if month = 4 ∨ month = 6 ∨ month = 9 ∨ month = 11 then 30
  else 31

def date? (text : Text) : Option Text := do
  let (century, rest) ← twoDigits? text
  let (years, rest) ← twoDigits? rest
  let rest ← after? ['-'] rest
  let (month, rest) ← twoDigits? rest
  let rest ← after? ['-'] rest
  let (day, rest) ← twoDigits? rest
  if 1 ≤ month ∧ month ≤ 12 ∧ 1 ≤ day ∧ day ≤ daysOf (100 * century + years) month then some rest
  else none

/-- Reads a time of day. -/
def time? (text : Text) : Option Text := do
  let (hour, rest) ← twoDigits? text
  let rest ← after? [':'] rest
  let (minute, rest) ← twoDigits? rest
  let rest ← after? [':'] rest
  let (second, rest) ← twoDigits? rest
  if hour ≤ 23 ∧ minute ≤ 59 ∧ second ≤ 60 then
    match rest with
    | '.' :: c :: more => if c.isDigit then some (more.dropWhile Char.isDigit) else none
    | _ => some rest
  else none

/-- Reads an offset from universal time up to the end. -/
def isOffset : Text → Bool
  | [] => true
  | ['Z'] => true
  | ['z'] => true
  | sign :: rest =>
    (sign == '+' || sign == '-') &&
      match twoDigits? rest with
      | some (hours, ':' :: more) =>
        hours ≤ 23 && (twoDigits? more).any fun (minutes, left) => minutes ≤ 59 && left.isEmpty
      | _ => false

/-- Whether a text is a date, a time, or both with an optional offset. -/
def isMoment (text : Text) : Bool :=
  match date? text with
  | some [] => true
  | some (c :: rest) => (c == 'T' || c == 't' || c == ' ') && (time? rest).any isOffset
  | none => time? text == some []

/-- Characters of a scalar without quotes. -/
def inScalar (c : Char) : Bool :=
  c.isAlphanum || c == '+' || c == '-' || c == '.' || c == '_' || c == ':'

/-- Takes the characters of a scalar; a date takes the time behind a space with it. -/
def scalarText (text : Text) : Text × Text :=
  let first := text.takeWhile inScalar
  match text.dropWhile inScalar with
  | ' ' :: c :: rest =>
    if date? first == some [] && c.isDigit then
      (first ++ ' ' :: (c :: rest).takeWhile inScalar, (c :: rest).dropWhile inScalar)
    else (first, ' ' :: c :: rest)
  | rest => (first, rest)

def scalar? (text : Text) : Option Value :=
  if text = "true".toList then some (.boolean true)
  else if text = "false".toList then some (.boolean false)
  else
    match integer? text with
    | some value => some value
    | none =>
      if isFloat text then some (.float text)
      else if isMoment text then some (.moment text)
      else none

end RouteComments.Toml
