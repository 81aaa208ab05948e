import RouteComments.Text.Basic

set_option autoImplicit false

namespace RouteComments.Json

open Text

/-- A JSON value. Fields of an object keep their order. -/
inductive Value where
  | null
  | bool (value : Bool)
  /-- The number `mantissa / 10 ^ decimals`. -/
  | number (mantissa : Int) (decimals : Nat)
  | str (text : Text)
  | arr (items : List Value)
  | obj (fields : List (Text × Value))
  deriving Inhabited

namespace Value

/-- A natural number. -/
def nat (n : Nat) : Value :=
  .number n 0

def field? (key : String) : Value → Option Value
  | .obj fields => fields.lookup key.toList
  | _ => none

/-- An optional value, absent as null. -/
def ofOption {α : Type} (encode : α → Value) : Option α → Value
  | some value => encode value
  | none => .null

def ofList {α : Type} (encode : α → Value) (items : List α) : Value :=
  .arr (items.map encode)

/-- An object with literal field names. -/
def ofFields (fields : List (String × Value)) : Value :=
  .obj (fields.map fun (key, value) => (key.toList, value))

end Value

/-- The digit of a number below sixteen. -/
def hexDigit (n : Nat) : Char :=
  Nat.digitChar n

/-- A character inside quotes. -/
def escapeChar (c : Char) : Text :=
  if c = '"' then ['\\', '"']
  else if c = '\\' then ['\\', '\\']
  else if c = '\n' then ['\\', 'n']
  else if c = '\r' then ['\\', 'r']
  else if c = '\t' then ['\\', 't']
  else if c = '\x08' then ['\\', 'b']
  else if c = '\x0c' then ['\\', 'f']
  else if c.toNat < 0x20 then "\\u00".toList ++ [hexDigit (c.toNat / 16), hexDigit (c.toNat % 16)]
  else [c]

def quote (text : Text) : Text :=
  '"' :: text.flatMap escapeChar ++ ['"']

def numberText (mantissa : Int) (decimals : Nat) : Text :=
  let digits := Text.ofNat mantissa.natAbs
  let padded := List.replicate (decimals + 1 - digits.length) '0' ++ digits
  let whole := padded.take (padded.length - decimals)
  let sign := if mantissa < 0 then ['-'] else []
  sign ++ whole ++ if decimals = 0 then [] else '.' :: padded.drop (padded.length - decimals)

def newLine (depth : Nat) : Text :=
  '\n' :: List.replicate (2 * depth) ' '

mutual

def prettyAt (depth : Nat) : Value → Text
  | .null => "null".toList
  | .bool true => "true".toList
  | .bool false => "false".toList
  | .number mantissa decimals => numberText mantissa decimals
  | .str text => quote text
  | .arr [] => "[]".toList
  | .arr items => '[' :: prettyItems (depth + 1) items ++ newLine depth ++ [']']
  | .obj [] => ['{', '}']
  | .obj fields => '{' :: prettyFields (depth + 1) fields ++ newLine depth ++ ['}']

def prettyItems (depth : Nat) : List Value → Text
  | [] => []
  | [item] => newLine depth ++ prettyAt depth item
  | item :: rest => newLine depth ++ prettyAt depth item ++ ',' :: prettyItems depth rest

/-- The fields of an object, each on a line of its own. -/
def prettyFields (depth : Nat) : List (Text × Value) → Text
  | [] => []
  | [(key, value)] => newLine depth ++ quote key ++ ": ".toList ++ prettyAt depth value
  | (key, value) :: rest =>
    newLine depth ++ quote key ++ ": ".toList ++ prettyAt depth value ++ ',' :: prettyFields depth rest

end

def pretty (value : Value) : Text :=
  prettyAt 0 value

end RouteComments.Json
