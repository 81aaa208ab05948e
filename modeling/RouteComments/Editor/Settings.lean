import RouteComments.Json.Value

set_option autoImplicit false

namespace RouteComments.Editor

open Json

structure Settings where
  baseUrl : Option Text
  deriving DecidableEq, Repr

namespace Settings

/-- A base URL that may be null. -/
def ofValue? : Value → Option Settings
  | .null => some { baseUrl := none }
  | .str text => some { baseUrl := some text }
  | _ => none

/-- The settings in an object by name, or in a list by position; both may leave the base URL out. -/
def ofFields? : Value → Option Settings
  | .obj fields =>
    match fields.lookup "baseUrl".toList with
    | some value => ofValue? value
    | none => some { baseUrl := none }
  | .arr [] => some { baseUrl := none }
  | .arr [value] => ofValue? value
  | _ => none

/-- The settings in a value, bare or under the name of this tool. -/
def parse? (value : Value) : Option Settings :=
  ofFields? ((value.field? "endpointComments").getD value)

end Settings

end RouteComments.Editor
