/-!
# TOML values

A document is a table whose tables grow while its lines are read: a header opens a table, a dotted
key reaches into one, and each of them creates the tables on its way.  How a table came to be
decides how it may still grow.
-/

namespace Codegen

/-- How a table came to be. -/
inductive Toml.Origin where
  /-- Opened by a header of its own. -/
  | header
  /-- Only passed through by a longer header. -/
  | implied
  /-- Reached by a dotted key. -/
  | dotted
  /-- Written between braces, and complete. -/
  | inline
  deriving DecidableEq

/-- A value.  Tables list their entries in no particular order, with distinct names. -/
inductive Toml where
  | string (text : String)
  | bool (value : Bool)
  | integer (value : Int)
  | float (spelling : String)
  | date (spelling : String)
  | array (items : List Toml)
  | table (origin : Toml.Origin) (entries : List (String × Toml))
  /-- The tables that headers in double brackets have opened, the last one first. -/
  | tables (elements : List (List (String × Toml)))

namespace Toml

/-- The entries of a table. -/
abbrev Entries := List (String × Toml)

/-- A key with its path: the names in front of the last dot, and the last name. -/
structure Key where
  path : List String
  last : String

/-- Entries with the value of one name replaced or added. -/
def put (name : String) (value : Toml) : Entries → Entries
  | [] => [(name, value)]
  | entry :: rest =>
    if entry.1 = name then (name, value) :: rest else entry :: put name value rest

/-- Whether a path may pass through a table.  A header's path may pass through any table that is
not complete, a dotted key only through those that no header has opened. -/
def Origin.admits : Origin → (byKey : Bool) → Bool
  | header, byKey => !byKey
  | implied, _ => true
  | dotted, _ => true
  | inline, _ => false

/-- Changes the entries at the end of a path, creating the tables on the way; of the tables that
headers in double brackets have opened, the path passes through the last one. -/
def grow (byKey : Bool) (change : Origin → Entries → Option Entries) :
    (path : List String) → Origin → Entries → Option Entries
  | [], origin, entries => change origin entries
  | name :: path, _, entries =>
    match entries.lookup name with
    | none =>
      let origin := if byKey then Origin.dotted else Origin.implied
      (grow byKey change path origin []).map fun inner => put name (.table origin inner) entries
    | some (.table origin inner) =>
      if origin.admits byKey then
        (grow byKey change path origin inner).map fun inner =>
          put name (.table origin inner) entries
      else none
    | some (.tables (element :: others)) =>
      (grow byKey change path .header element).map fun inner =>
        put name (.tables (inner :: others)) entries
    | some _ => none

/-- Adds a value under a key that has none; a dotted key may only add to tables that dotted keys
have created. -/
def addValue (key : Key) (value : Toml) (entries : Entries) : Option Entries :=
  grow true (fun origin entries =>
    if (!key.path.isEmpty && origin ≠ .dotted) || (entries.lookup key.last).isSome then none
    else some (put key.last value entries)) key.path .header entries

/-- Opens a table; it must be new or only passed through before. -/
def openTable (key : Key) (entries : Entries) : Option Entries :=
  grow false (fun _ entries =>
    match entries.lookup key.last with
    | none => some (put key.last (.table .header []) entries)
    | some (.table .implied inner) => some (put key.last (.table .header inner) entries)
    | some _ => none) key.path .header entries

/-- Opens the next one of an array of tables. -/
def openElement (key : Key) (entries : Entries) : Option Entries :=
  grow false (fun _ entries =>
    match entries.lookup key.last with
    | none => some (put key.last (.tables [[]]) entries)
    | some (.tables elements) => some (put key.last (.tables ([] :: elements)) entries)
    | some _ => none) key.path .header entries

end Toml

end Codegen
