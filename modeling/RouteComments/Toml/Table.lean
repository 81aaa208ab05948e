import RouteComments.Keyed
import RouteComments.Toml.Scalar

set_option autoImplicit false

namespace RouteComments.Toml

/-- How a table came to be: one that a header defined is neither defined again nor extended by dotted keys. -/
inductive Origin where
  /-- As a parent in a header. -/
  | implied
  /-- As a parent in a dotted key. -/
  | dotted
  /-- By a header of its own. -/
  | header
  deriving DecidableEq, Repr

/-- An entry of a table under construction. -/
inductive Node where
  | value (value : Value)
  | table (origin : Origin) (entries : List (Text × Node))
  /-- The elements of an array of tables, last first. -/
  | tables (last : List (Text × Node)) (before : List (List (Text × Node)))

abbrev Entries := List (Text × Node)

namespace Entries

/-- Adds a value under a dotted key; `none` if the key is taken or leads through something else than
tables that may be extended. -/
def define? (value : Value) : List Text → Entries → Option Entries
  | [], _ => none
  | [key], entries =>
    match entries.lookup key with
    | none => some (entries ++ [(key, .value value)])
    | some _ => none
  | key :: next :: path, entries =>
    match entries.lookup key with
    | none => (define? value (next :: path) []).map fun inner => entries ++ [(key, .table .dotted inner)]
    | some (.table origin inner) =>
      if origin = .header ∨ (path = [] ∧ origin ≠ .dotted) then none
      else (define? value (next :: path) inner).map fun inner => Keyed.put key (.table origin inner) entries
    | some (.tables last before) =>
      if path = [] then none
      else (define? value (next :: path) last).map fun last => Keyed.put key (.tables last before) entries
    | some (.value _) => none

/-- Changes the table at a header's path, with missing parents implied. -/
def descend? (change : Entries → Option Entries) : List Text → Entries → Option Entries
  | [], entries => change entries
  | key :: path, entries =>
    match entries.lookup key with
    | none => (descend? change path []).map fun inner => entries ++ [(key, .table .implied inner)]
    | some (.table origin inner) =>
      (descend? change path inner).map fun inner => Keyed.put key (.table origin inner) entries
    | some (.tables last before) =>
      (descend? change path last).map fun last => Keyed.put key (.tables last before) entries
    | some (.value _) => none

/-- Defines a table by a header. -/
def openTable? (path : List Text) (entries : Entries) : Option Entries :=
  match path.getLast? with
  | none => none
  | some key =>
    entries.descend? (fun parent =>
      match parent.lookup key with
      | none => some (parent ++ [(key, .table .header [])])
      | some (.table .implied inner) => some (Keyed.put key (.table .header inner) parent)
      | some _ => none) path.dropLast

/-- Adds an element to an array of tables by a header. -/
def openElement? (path : List Text) (entries : Entries) : Option Entries :=
  match path.getLast? with
  | none => none
  | some key =>
    entries.descend? (fun parent =>
      match parent.lookup key with
      | none => some (parent ++ [(key, .tables [] [])])
      | some (.tables last before) => some (Keyed.put key (.tables [] (last :: before)) parent)
      | some _ => none) path.dropLast

mutual

def nodeValue : Node → Value
  | .value value => value
  | .table _ entries => .table (fields entries)
  | .tables last before => .array (elements before [.table (fields last)])

def fields : List (Text × Node) → List (Text × Value)
  | [] => []
  | (key, node) :: rest => (key, nodeValue node) :: fields rest

/-- The elements of an array of tables before some others. -/
def elements : List (List (Text × Node)) → List Value → List Value
  | [], found => found
  | entries :: rest, found => elements rest (.table (fields entries) :: found)

end

end Entries

end RouteComments.Toml
