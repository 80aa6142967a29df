import Codegen.Dict
import Codegen.Json.Basic

/-!
# Decoding JSON

A decoder takes the number of levels that arrays and objects may still nest and a value.  It gives
nothing when the value has the wrong shape or nests too deep.  An object that stands for a record
may have fields the record does not know, which are passed over whatever they hold, and gives no
known field twice; an array stands for the record with its items as the first fields.  An object
that stands for a dictionary may repeat a key, and the last one wins.
-/

namespace Codegen.Json

/-- How values of a type are read from JSON. -/
abbrev Decoder (α : Type) := (levels : Nat) → Json → Option α

namespace Decoder

variable {α β : Type}

/-- A string. -/
def string : Decoder String
  | _, .str text => some text
  | _, _ => none

/-- A truth value. -/
def bool : Decoder Bool
  | _, .bool value => some value
  | _, _ => none

/-- An integer from `low` up to and without `high`. -/
def integer (low high : Int) : Decoder Int
  | _, .int value => if low ≤ value ∧ value < high then some value else none
  | _, _ => none

/-- A signed integer of 64 bits. -/
def int64 : Decoder Int := integer (-0x8000_0000_0000_0000) 0x8000_0000_0000_0000

/-- An unsigned integer of 64 bits. -/
def uint64 : Decoder Nat := fun levels json =>
  (integer 0 0x1_0000_0000_0000_0000 levels json).map Int.toNat

/-- An unsigned integer of 8 bits. -/
def uint8 : Decoder UInt8 := fun levels json =>
  (integer 0 256 levels json).map fun value => UInt8.ofNat value.toNat

/-- Every item of a list, decoded; one that cannot be decoded spoils the list. -/
def all (item : Json → Option α) : List Json → Option (List α)
  | [] => some []
  | json :: rest => do
    let value ← item json
    let values ← all item rest
    some (value :: values)

/-- An array of items of one type. -/
def list (item : Decoder α) : Decoder (List α)
  | levels + 1, .arr items => all (item levels) items
  | _, _ => none

/-- An array of exactly two items. -/
def pair (first : Decoder α) (second : Decoder β) : Decoder (α × β)
  | levels + 1, .arr [a, b] => do
    let x ← first levels a
    let y ← second levels b
    some (x, y)
  | _, _ => none

/-- Null for no value. -/
def nullable (value : Decoder α) : Decoder (Option α)
  | _, .null => some none
  | levels, json => (value levels json).map some

/-- The values of a list of fields. -/
def allFields (value : Json → Option α) : List (String × Json) → Option (List (String × α))
  | [] => some []
  | (name, json) :: rest => do
    let decoded ← value json
    let others ← allFields value rest
    some ((name, decoded) :: others)

/-- An object whose names are keys. -/
def dict (value : Decoder α) : Decoder (Dict α)
  | levels + 1, .obj fields => (allFields (value levels) fields).map Dict.ofList
  | _, _ => none

/-- An array of names as a set. -/
def nameSet : Decoder NameSet := fun levels json => (list string levels json).map NameSet.ofList

end Decoder

/-- The fields of a record and the levels their values may nest. -/
structure Fields where
  levels : Nat
  entries : List (String × Json)

namespace Fields

variable {α : Type}

/-- Values under the first of the names; there may be fewer values than names, not more. -/
def ofItems? (names : List String) (levels : Nat) (items : List Json) : Option Fields :=
  if items.length ≤ names.length then some ⟨levels, names.zip items⟩ else none

/-- The fields of a record with the given names: those of an object, or the items of an array. -/
def of? (names : List String) : (levels : Nat) → Json → Option Fields
  | levels + 1, .obj entries => some ⟨levels, entries⟩
  | levels + 1, .arr items => ofItems? names levels items
  | _, _ => none

/-- The value of a field: nothing when the field is given twice, `some none` when it is missing. -/
def lookup (fields : Fields) (name : String) : Option (Option Json) :=
  match fields.entries.filter fun entry => entry.1 = name with
  | [] => some none
  | [entry] => some (some entry.2)
  | _ => none

/-- A field that must be there. -/
def required (fields : Fields) (name : String) (value : Decoder α) : Option α := do
  let json ← (← fields.lookup name)
  value fields.levels json

/-- A field that may be missing. -/
def withDefault (fields : Fields) (name : String) (value : Decoder α) (absent : α) : Option α := do
  match ← fields.lookup name with
  | some json => value fields.levels json
  | none => some absent

/-- A field that may be missing or null. -/
def optional (fields : Fields) (name : String) (value : Decoder α) : Option (Option α) :=
  fields.withDefault name value.nullable none

end Fields

end Codegen.Json
