import RouteComments.Json.Value

set_option autoImplicit false

namespace RouteComments.Json

open Text

/-- A condition on values. -/
abbrev Shape := Value → Bool

namespace Shape

def any : Shape
  | _ => true

def flag : Shape
  | .bool _ => true
  | _ => false

def string : Shape
  | .str _ => true
  | _ => false

def number : Shape
  | .number _ _ => true
  | _ => false

/-- An integer between two bounds. -/
def integer (low high : Int) : Shape
  | .number mantissa 0 => low ≤ mantissa && mantissa ≤ high
  | _ => false

/-- A signed number of 32 bits. -/
def signed : Shape :=
  integer (-2147483648) 2147483647

/-- An unsigned number of 32 bits. -/
def unsigned : Shape :=
  integer 0 4294967295

/-- One of some words, as a string or as the only name in an object whose value is null. -/
def word (words : List String) : Shape
  | .str text => words.any fun word => word.toList == text
  | .obj [(text, .null)] => words.any fun word => word.toList == text
  | _ => false

/-- A value that may be null. -/
def nullable (shape : Shape) : Shape
  | .null => true
  | value => shape value

def listOf (shape : Shape) : Shape
  | .arr items => items.all shape
  | _ => false

def tuple (shapes : List Shape) : Shape
  | .arr items => items.length == shapes.length && (shapes.zip items).all fun (shape, item) => shape item
  | _ => false

/-- An object with names and values of some shapes. -/
def mapOf (name : Text → Bool) (shape : Shape) : Shape
  | .obj fields => fields.all fun (key, value) => name key && shape value
  | _ => false

def oneOf (shapes : List Shape) (value : Value) : Bool :=
  shapes.any fun shape => shape value

end Shape

structure Field where
  name : String
  shape : Shape
  /-- Whether an object may leave it out. -/
  mayMiss : Bool
  /-- Whether a list may end before it. -/
  mayEnd : Bool

namespace Field

def required (name : String) (shape : Shape) : Field :=
  { name, shape, mayMiss := false, mayEnd := false }

/-- A field that may be null, and that an object may leave out. -/
def optional (name : String) (shape : Shape) : Field :=
  { name, shape := shape.nullable, mayMiss := true, mayEnd := false }

/-- A field that takes a usual value where it is left out. -/
def usual (name : String) (shape : Shape) : Field :=
  { name, shape, mayMiss := true, mayEnd := true }

def optionals (shape : Shape) (names : List String) : List Field :=
  names.map fun name => optional name shape

end Field

structure Record where
  fields : List Field
  /-- Whether the values may also be given in a list. -/
  positional : Bool
  /-- The shape of fields with other names. -/
  others : Shape

namespace Record

def of (fields : List Field) : Record :=
  { fields, positional := true, others := .any }

def named (fields : List Field) : Record :=
  { fields, positional := false, others := .any }

def fitInOrder : List Field → List Value → Bool
  | [], [] => true
  | [], _ :: _ => false
  | field :: fields, [] => field.mayEnd && fitInOrder fields []
  | field :: fields, value :: values => field.shape value && fitInOrder fields values

/-- Whether a field is there in an object and fits, or may be left out. -/
def fitsIn (entries : List (Text × Value)) (field : Field) : Bool :=
  match entries.lookup field.name.toList with
  | some value => field.shape value
  | none => field.mayMiss

/-- The values that have the form of a record. -/
def shape (record : Record) : Shape
  | .obj entries =>
    record.fields.all (fitsIn entries) && entries.all fun (key, value) =>
      (record.fields.any fun field => field.name.toList == key) || record.others value
  | .arr items => record.positional && fitInOrder record.fields items
  | _ => false

/-- A field of a record: by name in an object, by its place in a list. -/
def part? (record : Record) (name : String) : Value → Option Value
  | .obj entries => entries.lookup name.toList
  | .arr items => items[record.fields.findIdx fun field => field.name == name]?
  | _ => none

end Record

end RouteComments.Json
