import Codegen.Json.Basic

/-!
# Writing JSON

Values are written without blanks.  In a string, quotes, backslashes and control characters are
escaped, those that have a letter of their own by this letter; every other character stands for
itself.
-/

namespace Codegen.Json

/-- What stands behind the backslash of an escape, for a character that has an escape of its own. -/
def escapeLetter? (c : Char) : Option Char :=
  if c = '"' || c = '\\' then some c
  else if c = '\x08' then some 'b'
  else if c = '\x0c' then some 'f'
  else if c = '\n' then some 'n'
  else if c = '\r' then some 'r'
  else if c = '\t' then some 't'
  else none

/-- One character of a string. -/
def escapeChar (c : Char) : List Char :=
  match escapeLetter? c with
  | some letter => ['\\', letter]
  | none =>
    if c.toNat < 0x20 then
      ['\\', 'u', '0', '0', Nat.digitChar (c.toNat / 16), Nat.digitChar (c.toNat % 16)]
    else [c]

/-- A string between its quotes. -/
def writeString (text : String) : List Char :=
  '"' :: text.toList.flatMap escapeChar ++ ['"']

/-- A number that reads as out of range. -/
def outOfRange : List Char := "1e999".toList

mutual

/-- The text of a value. -/
def write : Json → List Char
  | .null => "null".toList
  | .bool true => "true".toList
  | .bool false => "false".toList
  | .int value => (Text.signed value).toList
  | .real text => text.toList
  | .str text => writeString text
  | .arr items => '[' :: writeItems items ++ [']']
  | .obj fields => '\x7b' :: writeFields fields ++ ['\x7d']
  | .unreadable => outOfRange

/-- The items of an array with commas between them. -/
def writeItems : List Json → List Char
  | [] => []
  | [item] => write item
  | item :: next :: rest => write item ++ ',' :: writeItems (next :: rest)

/-- The fields of an object with commas between them. -/
def writeFields : List (String × Json) → List Char
  | [] => []
  | [(name, value)] => writeString name ++ ':' :: write value
  | (name, value) :: next :: rest =>
    writeString name ++ ':' :: write value ++ ',' :: writeFields (next :: rest)

end

/-- The text of a value. -/
def text (value : Json) : String := String.ofList value.write

end Codegen.Json
