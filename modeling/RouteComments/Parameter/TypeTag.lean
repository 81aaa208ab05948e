import RouteComments.Text.Blank

set_option autoImplicit false

namespace RouteComments

/-- The types that a URL tells apart. -/
inductive TypeTag where
  | int
  | uuid
  | bool
  | number
  | string
  deriving DecidableEq, Repr

namespace TypeTag

open Text

/-- The tag as a URL shows it. -/
def name : TypeTag → Text
  | .int => "int".toList
  | .uuid => "uuid".toList
  | .bool => "bool".toList
  | .number => "number".toList
  | .string => "string".toList

/-- Lower case as far as it yields ASCII letters. Two characters beyond ASCII do, the dotted capital I and
the Kelvin sign; all others have a lower case without ASCII letters, as they have themselves, so for the
search of an ASCII word they may stay. -/
def lowerCase (c : Char) : Text :=
  if c = '\u0130' then ['i', '\u0307']
  else if c = '\u212a' then ['k']
  else [c.toLower]

def integerNames : List Text :=
  ["int".toList, "integer".toList, "long".toList, "short".toList, "byte".toList]

/-- The words inside a type name that make it a number. -/
def decimalWords : List Text :=
  ["double".toList, "float".toList, "bigdecimal".toList]

/-- The tag of a type name, in any case and with blanks around it. -/
def ofName (declared : Text) : TypeTag :=
  let lower := (trim declared).flatMap lowerCase
  if integerNames.contains lower then .int
  else if occursIn "uuid".toList lower then .uuid
  else if occursIn "boolean".toList lower then .bool
  else if decimalWords.any (occursIn · lower) then .number
  else .string

/-- The tag of a declared type; without one it is a string. -/
def ofDeclared : Option Text → TypeTag
  | some declared => ofName declared
  | none => .string

end TypeTag

end RouteComments
