import RouteComments.Editor.Uri.Address
import RouteComments.Editor.Uri.Domain

set_option autoImplicit false

namespace RouteComments.Editor.Uri

open Text

/-- What stands behind the two slashes of a URI. -/
structure Authority where
  /-- The user and the password, in normal form. -/
  user : Text
  host : Text
  port : Option Nat
  deriving DecidableEq, Repr

/-- The authority without a user, a host and a port. -/
def Authority.blank : Authority where
  user := []
  host := []
  port := none

def Authority.text (authority : Authority) : Text :=
  (if authority.user.isEmpty then [] else authority.user ++ ['@']) ++ authority.host ++
    match authority.port with
    | some port => ':' :: Text.ofNat port
    | none => []

/-- The schemes whose URIs always have a host, with the port that is left out. -/
def hostSchemes : List (Text × Nat) :=
  [("http".toList, 80), ("https".toList, 443), ("ws".toList, 80), ("wss".toList, 443), ("ftp".toList, 21)]

/-- Splits a text at the last `@` before its first slash. -/
def splitUser? (text : Text) : Option (Text × Text) :=
  match (text.takeWhile (· != '/')).reverse.dropWhile (· != '@') with
  | [] => none
  | _ :: user => some (user.reverse, text.drop (user.length + 1))

/-- The normal form of a user and a password; an empty password is left out. -/
def normalUser (user : Text) : Text :=
  let name := encode inUserSet (user.takeWhile (· != ':'))
  match (user.dropWhile (· != ':')).drop 1 with
  | [] => name
  | password => name ++ ':' :: encode inUserSet password

/-- Splits a text behind its host, which ends at a slash or at a colon outside brackets. -/
def splitHost (inBrackets : Bool) : Text → Text × Text
  | [] => ([], [])
  | c :: rest =>
    if c = '/' || (c = ':' && !inBrackets) then ([], c :: rest)
    else
      let (host, behind) := splitHost (c == '[' || (inBrackets && c != ']')) rest
      (c :: host, behind)

/-- Reads the port behind a host, if there is a colon: a number of 16 bits or nothing, up to a slash of either
kind. Gives what stands behind it. -/
def port? : Text → Option (Option Nat × Text)
  | ':' :: text =>
    let digits := text.takeWhile Char.isDigit
    let port := digits.foldl (fun sum c => 10 * sum + (c.toNat - '0'.toNat)) 0
    let behind := text.dropWhile Char.isDigit
    if 65535 < port || behind.head?.any fun c => c != '/' && c != '\\' then none
    else some (if digits.isEmpty then none else some port, behind)
  | text => some (none, text)

/-- Reads the name of a host: percent signs stand for bytes, case does not matter, and a name that ends in a number
is an address. Names beyond ASCII have the simple normal form of `domain?`, not that of UTS 46. -/
def hostName? (text : Text) : Option Text :=
  if text.head? = some '[' then bracketAddress? text
  else
    match (decode? text).bind domain? with
    | some name =>
      if name.isEmpty then none
      else if endsInNumber name then dottedAddress? name
      else some name
    | none => none

/-- Reads the host of a scheme that does not say what hosts are. It may be empty. -/
def opaqueHost? (text : Text) : Option Text :=
  if text.head? = some '[' then bracketAddress? text
  else if text.any isForbidden then none
  else some (encode isControl text)

/-- Reads a host and a port with a way to read the host; gives the authority with a user, and what stands behind it.
Without a host there is no user and no port. -/
def hostAndPort? (host? : Text → Option Text) (user text : Text) : Option (Authority × Text) := do
  let (written, behind) := splitHost false text
  let host ← host? written
  if host.isEmpty && (!user.isEmpty || behind.head? = some ':') then none
  else
    let (port, rest) ← port? behind
    some ({ user, host, port }, rest)

/-- Reads the authority at the start of a text with a way to read its host; gives what stands behind it. An empty
user needs a host behind its `@`, unless the whole URI ends there. -/
def Authority.parse? (host? : Text → Option Text) (isLast : Bool) (text : Text) : Option (Authority × Text) :=
  match splitUser? text with
  | none => hostAndPort? host? [] text
  | some ([], rest) =>
    if rest.head? = some '/' || (rest.isEmpty && !isLast) then none else hostAndPort? host? [] rest
  | some (user, rest) => hostAndPort? host? (normalUser user) rest

def Authority.dropPort (usual : Nat) (authority : Authority) : Authority :=
  if authority.port = some usual then { authority with port := none } else authority

end RouteComments.Editor.Uri
