import Codegen.Text.Basic

/-!
# JSON values

An object keeps its fields in the order of the text, repeated names included: whether a repeated
name is allowed depends on what the object stands for.  Numbers without fraction and exponent are
integers; any other number is kept by its text.  `unreadable` is a value whose text is well formed
and which stands for nothing: a string with half a surrogate pair, a number beyond the range of
double precision, or an object one of whose names is such a string.  It may be passed over, never
decoded.
-/

namespace Codegen

/-- A JSON value. -/
inductive Json where
  | null
  | bool (value : Bool)
  | int (value : Int)
  | real (text : String)
  | str (text : String)
  | arr (items : List Json)
  | obj (fields : List (String × Json))
  | unreadable
  deriving Inhabited

namespace Json

mutual

/-- Whether every part can be read and arrays and objects nest at most `depth` deep. -/
def fits : (depth : Nat) → Json → Bool
  | 0, .arr _ => false
  | 0, .obj _ => false
  | depth + 1, .arr items => fitsItems depth items
  | depth + 1, .obj fields => fitsFields depth fields
  | _, .unreadable => false
  | _, _ => true

/-- `fits` for every item of an array. -/
def fitsItems (depth : Nat) : List Json → Bool
  | [] => true
  | item :: rest => fits depth item && fitsItems depth rest

/-- `fits` for every field of an object. -/
def fitsFields (depth : Nat) : List (String × Json) → Bool
  | [] => true
  | (_, value) :: rest => fits depth value && fitsFields depth rest

end

/-- The integer of a natural number. -/
def nat (n : Nat) : Json := .int n

/-- An array of texts. -/
def texts (items : List String) : Json := .arr (items.map .str)

/-- The value, or null when there is none. -/
def ofOption {α : Type} (encode : α → Json) : Option α → Json
  | some value => encode value
  | none => .null

end Json

end Codegen
