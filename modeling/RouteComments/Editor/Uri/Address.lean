import RouteComments.Editor.Uri.Percent

set_option autoImplicit false

namespace RouteComments.Editor.Uri

open Text

/-- The value of digits in a base; `none` if one is no digit of the base. There may be no digit at all. -/
def digits? (base : Nat) (text : Text) : Option Nat :=
  text.foldlM (fun sum c => ((hexValue? c).filter (· < base)).map (base * sum + ·)) 0

/-- A number of an address: hexadecimal behind `0x`, octal behind `0`, else decimal. -/
def addressNumber? : Text → Option Nat
  | [] => none
  | '0' :: 'x' :: rest => digits? 16 rest
  | '0' :: 'X' :: rest => digits? 16 rest
  | '0' :: rest => digits? 8 rest
  | text => digits? 10 text

/-- The labels of a name between its dots, without an empty one at the end. -/
def labels (name : Text) : List Text :=
  match (pieces '.' name).reverse with
  | [] :: before => before.reverse
  | all => all.reverse

/-- Whether a name has to be an address of four bytes: its last label is a number or looks like one. -/
def endsInNumber (name : Text) : Bool :=
  match (labels name).getLast? with
  | some last => (!last.isEmpty && last.all Char.isDigit) || (addressNumber? last).isSome
  | none => false

/-- The number of 32 bits that the numbers of an address make: all but the last are bytes, and the last fills the
bytes that are left. -/
def joinNumbers? (numbers : List Nat) : Option Nat :=
  match numbers.reverse with
  | [] => none
  | last :: before =>
    let bytes := before.reverse
    let room := 4 - bytes.length
    if bytes.length < 4 && bytes.all (· < 256) && last < (256 : Nat).pow room then
      some (bytes.foldl (fun sum byte => 256 * sum + byte) 0 * (256 : Nat).pow room + last)
    else none

/-- The four bytes of a number of 32 bits with dots between them. -/
def dotted (address : Nat) : Text :=
  joinWith ['.'] ([address / 16777216, address / 65536 % 256, address / 256 % 256, address % 256].map Text.ofNat)

/-- Reads an address of four bytes into its normal form. -/
def dottedAddress? (name : Text) : Option Text := do
  let numbers ← (labels name).mapM addressNumber?
  some (dotted (← joinNumbers? numbers))

/-- A byte of an address in decimal digits without a leading zero. -/
def plainByte? (text : Text) : Option Nat :=
  match text with
  | [] => none
  | '0' :: _ :: _ => none
  | _ => (digits? 10 text).filter (· < 256)

/-- The two groups that four bytes with dots between them make. -/
def bytesAsGroups? (text : Text) : Option (List Nat) :=
  match (pieces '.' text).mapM plainByte? with
  | some [a, b, c, d] => some [256 * a + b, 256 * c + d]
  | _ => none

/-- The groups of an address in brackets as they are read. -/
structure Groups where
  found : List Nat
  /-- How many groups stand before the gap, with one zero for the gap itself. -/
  gap : Option Nat

/-- A group of at most four hexadecimal digits. -/
def group? (text : Text) : Option Nat :=
  if text.isEmpty || 4 < text.length then none else digits? 16 text

/-- Adds the gap to the groups before it; there is only one. -/
def Groups.addGap? (groups : Groups) : Option Groups :=
  if groups.gap.isSome then none
  else some { found := groups.found ++ [0], gap := some (groups.found.length + 1) }

def Groups.add (groups : Groups) (more : List Nat) : Groups :=
  { groups with found := groups.found ++ more }

/-- Reads groups from the parts of an address between its colons. The last two groups may be four bytes. -/
def groups? (groups : Groups) : List Text → Option Groups
  | [] => some groups
  | part :: rest =>
    if groups.found.length = 8 then none
    else
      match part, rest with
      | [], [] => none
      | [], [[]] => groups.addGap?
      | [], _ => groups.addGap?.bind fun next => groups? next rest
      | _, [] =>
        if part.contains '.' then
          if 6 < groups.found.length then none else (bytesAsGroups? part).map groups.add
        else (group? part).map fun value => groups.add [value]
      | _, _ => (group? part).bind fun value => groups? (groups.add [value]) rest

/-- The eight groups, with zeros in the gap. -/
def Groups.fill? (groups : Groups) : Option (List Nat) :=
  match groups.gap with
  | some place =>
    some (groups.found.take place ++ List.replicate (8 - groups.found.length) 0 ++ groups.found.drop place)
  | none => if groups.found.length = 8 then some groups.found else none

def eightGroups? (text : Text) : Option (List Nat) :=
  let read : Option Groups := match text with
    | ':' :: ':' :: [] => some { found := [0], gap := some 1 }
    | ':' :: ':' :: rest => groups? { found := [0], gap := some 1 } (pieces ':' rest)
    | ':' :: _ => none
    | _ => groups? { found := [], gap := none } (pieces ':' text)
  read.bind Groups.fill?

def zeros (groups : List Nat) : Nat :=
  (groups.takeWhile (· == 0)).length

/-- Where the first of the longest runs of zeros starts, and its length. -/
def longestZeros (groups : List Nat) : Nat × Nat :=
  (List.range groups.length).foldl (fun (start, length) place =>
    if length < zeros (groups.drop place) then (place, zeros (groups.drop place)) else (start, length)) (0, 0)

/-- Some groups in hexadecimal digits. -/
def groupsText (groups : List Nat) : Text :=
  joinWith [':'] (groups.map (Nat.toDigits 16))

/-- The normal form of eight groups: the first of the longest runs of at least two zeros is left out. -/
def compressed (groups : List Nat) : Text :=
  let (start, length) := longestZeros groups
  if length < 2 then groupsText groups
  else groupsText (groups.take start) ++ [':', ':'] ++ groupsText (groups.drop (start + length))

/-- Reads an address in brackets into its normal form. -/
def bracketAddress? (text : Text) : Option Text :=
  match text.drop 1, text.getLast? with
  | inner, some ']' => (eightGroups? inner.dropLast).map fun groups => '[' :: compressed groups ++ [']']
  | _, _ => none

end RouteComments.Editor.Uri
