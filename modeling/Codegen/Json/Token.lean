import Codegen.Json.Number

/-!
# JSON tokens

A machine reads the text character by character.  Between tokens it skips blanks; inside a string,
a number or a word it remembers what it has read.  A step refuses a character that no token can
hold at that place.
-/

namespace Codegen.Json

/-- A token.  A string token holds no text when its escapes spell half a surrogate pair. -/
inductive Token where
  | openBrace
  | closeBrace
  | openBracket
  | closeBracket
  | comma
  | colon
  | str (text : Option String)
  | scalar (value : Json)

/-- A string read so far. -/
structure Partial where
  /-- Characters, the last one first. -/
  read : List Char := []
  /-- First half of a surrogate pair whose second half must come next. -/
  high : Option Nat := none
  /-- Whether the characters so far stand for a text. -/
  readable : Bool := true

namespace Partial

/-- The string with a plain character behind it. -/
def push (s : Partial) (c : Char) : Partial :=
  { read := c :: s.read, high := none, readable := s.readable && s.high.isNone }

/-- Whether a code unit is the first half of a surrogate pair. -/
def isHigh (unit : Nat) : Bool := 0xD800 ≤ unit && unit ≤ 0xDBFF

/-- Whether a code unit is the second half of a surrogate pair. -/
def isLow (unit : Nat) : Bool := 0xDC00 ≤ unit && unit ≤ 0xDFFF

/-- The character of a surrogate pair. -/
def ofPair (high low : Nat) : Char :=
  Char.ofNat (0x10000 + (high - 0xD800) * 0x400 + (low - 0xDC00))

/-- The string with a code unit behind it. -/
def pushUnit (s : Partial) (unit : Nat) : Partial :=
  match s.high with
  | some high =>
    if isLow unit then { s with read := ofPair high unit :: s.read, high := none }
    else { s with high := none, readable := false }
  | none =>
    if isHigh unit then { s with high := some unit }
    else if isLow unit then { s with readable := false }
    else s.push (Char.ofNat unit)

/-- The text of the string, if it has one. -/
def text (s : Partial) : Option String :=
  if s.readable && s.high.isNone then some (String.ofList s.read.reverse) else none

end Partial

/-- Where the machine stands between two characters. -/
inductive Mode where
  /-- Between tokens. -/
  | blank
  | string (s : Partial)
  /-- Behind the backslash of an escape. -/
  | escape (s : Partial)
  /-- Inside a code unit with `left` digits still to come. -/
  | unit (s : Partial) (left value : Nat)
  /-- Inside a number; the characters so far, the last one first. -/
  | number (read : List Char)
  /-- Inside a word; the characters so far, the last one first. -/
  | word (read : List Char)

/-- Whether the character may stand between tokens. -/
def isBlank (c : Char) : Bool := c = ' ' || c = '\n' || c = '\t' || c = '\r'

/-- Whether the character may stand inside a number. -/
def isNumeric (c : Char) : Bool :=
  c.isDigit || c = '+' || c = '-' || c = '.' || c = 'e' || c = 'E'

/-- The value of a word. -/
def word? (text : List Char) : Option Json :=
  if text = "null".toList then some .null
  else if text = "true".toList then some (.bool true)
  else if text = "false".toList then some (.bool false)
  else none

/-- A character between tokens. -/
def begin? (c : Char) : Option (Mode × List Token) :=
  if isBlank c then some (.blank, [])
  else if c = '\x7b' then some (.blank, [.openBrace])
  else if c = '\x7d' then some (.blank, [.closeBrace])
  else if c = '[' then some (.blank, [.openBracket])
  else if c = ']' then some (.blank, [.closeBracket])
  else if c = ',' then some (.blank, [.comma])
  else if c = ':' then some (.blank, [.colon])
  else if c = '"' then some (.string {}, [])
  else if c.isDigit || c = '-' then some (.number [c], [])
  else if c.isLower then some (.word [c], [])
  else none

/-- The character that a one-letter escape stands for. -/
def escaped? (c : Char) : Option Char :=
  if c = '"' || c = '\\' || c = '/' then some c
  else if c = 'b' then some '\x08'
  else if c = 'f' then some '\x0c'
  else if c = 'n' then some '\n'
  else if c = 'r' then some '\r'
  else if c = 't' then some '\t'
  else none

/-- One character: where the machine stands behind it and the tokens it has completed. -/
def step : Mode → Char → Option (Mode × List Token)
  | .blank, c => begin? c
  | .string s, c =>
    if c = '"' then some (.blank, [.str s.text])
    else if c = '\\' then some (.escape s, [])
    else if c.toNat < 0x20 then none
    else some (.string (s.push c), [])
  | .escape s, c =>
    if c = 'u' then some (.unit s 4 0, [])
    else (escaped? c).map fun e => (.string (s.push e), [])
  | .unit s left value, c => do
    let digit ← Text.digitValue? 16 c
    if left ≤ 1 then some (.string (s.pushUnit (16 * value + digit)), [])
    else some (.unit s (left - 1) (16 * value + digit), [])
  | .number read, c =>
    if isNumeric c then some (.number (c :: read), [])
    else do
      let value ← number? read.reverse
      let (mode, tokens) ← begin? c
      some (mode, .scalar value :: tokens)
  | .word read, c =>
    if c.isLower then some (.word (c :: read), [])
    else do
      let value ← word? read.reverse
      let (mode, tokens) ← begin? c
      some (mode, .scalar value :: tokens)

/-- The last token, when the text ends. -/
def finish : Mode → Option (List Token)
  | .blank => some []
  | .number read => (number? read.reverse).map fun value => [.scalar value]
  | .word read => (word? read.reverse).map fun value => [.scalar value]
  | _ => none

/-- The tokens of the rest of a text. -/
def tokensFrom : Mode → List Char → Option (List Token)
  | mode, [] => finish mode
  | mode, c :: rest => do
    let (next, done) ← step mode c
    let tokens ← tokensFrom next rest
    some (done ++ tokens)

/-- The tokens of a text. -/
def tokens? (text : List Char) : Option (List Token) := tokensFrom .blank text

end Codegen.Json
