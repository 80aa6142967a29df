import Codegen.Json.Token

/-!
# Reading JSON

A machine takes the tokens one by one and keeps the arrays and objects that are still open on a
stack.  It accepts exactly one value.
-/

namespace Codegen.Json

/-- An array or object that is still open; its parts, the last one first. -/
inductive Frame where
  | arr (items : List Json)
  /-- `key` is the name whose value comes next, and `readable` says that every name so far is a
  text. -/
  | obj (fields : List (String × Json)) (key : String) (readable : Bool)

/-- What may come next. -/
inductive Reading where
  | value (frames : List Frame)
  /-- A value or the end of an empty array. -/
  | firstItem (frames : List Frame)
  /-- A name or the end of an empty object. -/
  | firstKey (frames : List Frame)
  | key (frames : List Frame)
  | colon (frames : List Frame)
  /-- A comma or the end of the innermost array or object. -/
  | more (frames : List Frame)
  | done (value : Json)

/-- A complete value, put where it belongs. -/
def place (value : Json) : List Frame → Reading
  | [] => .done value
  | .arr items :: rest => .more (.arr (value :: items) :: rest)
  | .obj fields key readable :: rest => .more (.obj ((key, value) :: fields) key readable :: rest)

/-- The value of an object with the given fields, the last one first. -/
def closeObject (fields : List (String × Json)) (readable : Bool) : Json :=
  if readable then .obj fields.reverse else .unreadable

/-- A token where a value may start. -/
def beginValue (frames : List Frame) : Token → Option Reading
  | .openBrace => some (.firstKey (.obj [] "" true :: frames))
  | .openBracket => some (.firstItem (.arr [] :: frames))
  | .str (some text) => some (place (.str text) frames)
  | .str none => some (place .unreadable frames)
  | .scalar value => some (place value frames)
  | _ => none

/-- A name of the innermost object. -/
def takeKey : Option String → List Frame → Option Reading
  | some name, .obj fields _ readable :: rest => some (.colon (.obj fields name readable :: rest))
  | none, .obj fields _ _ :: rest => some (.colon (.obj fields "" false :: rest))
  | _, _ => none

/-- One token. -/
def take : Reading → Token → Option Reading
  | .value frames, token => beginValue frames token
  | .firstItem (.arr items :: rest), .closeBracket => some (place (.arr items.reverse) rest)
  | .firstItem frames, token => beginValue frames token
  | .firstKey (.obj fields _ readable :: rest), .closeBrace =>
    some (place (closeObject fields readable) rest)
  | .firstKey frames, .str name => takeKey name frames
  | .key frames, .str name => takeKey name frames
  | .colon frames, .colon => some (.value frames)
  | .more (.arr items :: rest), .comma => some (.value (.arr items :: rest))
  | .more (.arr items :: rest), .closeBracket => some (place (.arr items.reverse) rest)
  | .more (.obj fields key readable :: rest), .comma =>
    some (.key (.obj fields key readable :: rest))
  | .more (.obj fields _ readable :: rest), .closeBrace =>
    some (place (closeObject fields readable) rest)
  | _, _ => none

/-- All tokens of a value and nothing behind it. -/
def takeAll : Reading → List Token → Option Json
  | .done value, [] => some value
  | _, [] => none
  | reading, token :: rest => do
    let next ← take reading token
    takeAll next rest

/-- The value of a text. -/
def read? (text : String) : Option Json := do
  let tokens ← tokens? text.toList
  takeAll (.value []) tokens

end Codegen.Json
