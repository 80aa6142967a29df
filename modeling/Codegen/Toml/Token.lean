import Codegen.Text.Digits
import Codegen.Toml.Basic

/-!
# TOML tokens

A machine reads the text character by character.  Blanks and line ends are tokens, because lines
matter; comments are not.  A character that no token can hold at its place ends the reading.
-/

namespace Codegen.Toml

/-- A piece of the text. -/
inductive Token where
  | openBrace
  | closeBrace
  | openBracket
  | closeBracket
  | comma
  | equals
  | dot
  | blank (c : Char)
  | newline
  /-- A run of the characters of bare keys, numbers and dates, the dot apart. -/
  | bare (text : List Char)
  /-- A string; only one on a single line may be a key. -/
  | string (text : String) (multiline : Bool)

/-- A string read so far. -/
structure OpenString where
  /-- The quote that ends it; only double quotes allow escapes. -/
  quote : Char
  multiline : Bool
  /-- Characters, the last one first. -/
  read : List Char := []

namespace OpenString

/-- The string with one more character. -/
def push (s : OpenString) (c : Char) : OpenString := { s with read := c :: s.read }

/-- The string with quotes behind it that did not end it. -/
def pushQuotes (s : OpenString) (count : Nat) : OpenString :=
  { s with read := List.replicate count s.quote ++ s.read }

/-- The string as a token. -/
def token (s : OpenString) : Token := .string (String.ofList s.read.reverse) s.multiline

/-- Whether a backslash is special. -/
def allowsEscapes (s : OpenString) : Bool := s.quote = '"'

end OpenString

/-- Where the machine stands between two characters. -/
inductive Mode where
  /-- Between tokens. -/
  | plain
  /-- Inside a bare run; the characters so far, the last one first. -/
  | bare (read : List Char)
  | comment
  /-- Between the two characters of a line end. -/
  | lineEnd
  /-- Behind one opening quote, or two. -/
  | opened (quote : Char) (two : Bool)
  /-- At the very start of a string of several lines. -/
  | fresh (s : OpenString)
  /-- Inside a string, with `quotes` quotes just read that may be its end. -/
  | inside (s : OpenString) (quotes : Nat)
  /-- Between the two characters of a line end inside a string, which may belong to it. -/
  | innerLineEnd (s : OpenString) (keep : Bool)
  /-- Behind a backslash. -/
  | escape (s : OpenString)
  /-- Inside a code point with `left` digits still to come. -/
  | unit (s : OpenString) (left value : Nat)
  /-- Behind a backslash that ends a line, and blanks; `ended` says whether the line end is read. -/
  | trim (s : OpenString) (ended : Bool)
  /-- Between the two characters of a line end that a backslash removes. -/
  | trimLineEnd (s : OpenString)

/-- Whether a character is a blank inside a line. -/
def isBlank (c : Char) : Bool := c = ' ' || c = '\t'

/-- Whether a character may stand as it is in comments and strings. -/
def isText (c : Char) : Bool := c = '\t' || (0x20 ≤ c.toNat && c.toNat ≠ 0x7f)

/-- Whether a character may stand in a bare run. -/
def isBare (c : Char) : Bool := c.isAlphanum || c = '_' || c = '-' || c = '+' || c = ':'

/-- A character between tokens. -/
def begin? (c : Char) : Option (Mode × List Token) :=
  if isBlank c then some (.plain, [.blank c])
  else if c = '\n' then some (.plain, [.newline])
  else if c = '\r' then some (.lineEnd, [])
  else if c = '#' then some (.comment, [])
  else if c = '\x7b' then some (.plain, [.openBrace])
  else if c = '\x7d' then some (.plain, [.closeBrace])
  else if c = '[' then some (.plain, [.openBracket])
  else if c = ']' then some (.plain, [.closeBracket])
  else if c = ',' then some (.plain, [.comma])
  else if c = '=' then some (.plain, [.equals])
  else if c = '.' then some (.plain, [.dot])
  else if c = '"' || c = '\x27' then some (.opened c false, [])
  else if isBare c then some (.bare [c], [])
  else none

/-- A token and then a character between tokens. -/
def beginAfter? (token : Token) (c : Char) : Option (Mode × List Token) :=
  (begin? c).map fun (mode, tokens) => (mode, token :: tokens)

/-- A character that does not end the string. -/
def stepText (s : OpenString) (c : Char) : Option (Mode × List Token) :=
  if s.allowsEscapes && c = '\\' then some (.escape s, [])
  else if s.multiline && c = '\n' then some (.inside (s.push c) 0, [])
  else if s.multiline && c = '\r' then some (.innerLineEnd s true, [])
  else if isText c then some (.inside (s.push c) 0, [])
  else none

/-- A character inside a string.  Three quotes end a string of several lines, and up to two more in
front of them belong to it. -/
def stepInside (s : OpenString) (quotes : Nat) (c : Char) : Option (Mode × List Token) :=
  if c = s.quote then
    if !s.multiline then some (.plain, [s.token])
    else if quotes = 4 then some (.plain, [(s.pushQuotes 2).token])
    else some (.inside s (quotes + 1), [])
  else if 3 ≤ quotes then beginAfter? (s.pushQuotes (quotes - 3)).token c
  else stepText (s.pushQuotes quotes) c

/-- The character that a one-letter escape stands for. -/
def escaped? (c : Char) : Option Char :=
  if c = '"' || c = '\\' then some c
  else if c = 'b' then some '\x08'
  else if c = 'f' then some '\x0c'
  else if c = 'n' then some '\n'
  else if c = 'r' then some '\r'
  else if c = 't' then some '\t'
  else none

/-- The character with a given code point. -/
def ofCodePoint? (value : Nat) : Option Char :=
  if value.isValidChar then some (Char.ofNat value) else none

/-- One character: where the machine stands behind it and the tokens it has completed. -/
def step : Mode → Char → Option (Mode × List Token)
  | .plain, c => begin? c
  | .bare read, c =>
    if isBare c then some (.bare (c :: read), []) else beginAfter? (.bare read.reverse) c
  | .comment, c =>
    if c = '\n' then some (.plain, [.newline])
    else if c = '\r' then some (.lineEnd, [])
    else if isText c then some (.comment, [])
    else none
  | .lineEnd, c => if c = '\n' then some (.plain, [.newline]) else none
  | .opened quote false, c =>
    if c = quote then some (.opened quote true, []) else stepInside ⟨quote, false, []⟩ 0 c
  | .opened quote true, c =>
    if c = quote then some (.fresh ⟨quote, true, []⟩, []) else beginAfter? (.string "" false) c
  | .fresh s, c =>
    if c = '\n' then some (.inside s 0, [])
    else if c = '\r' then some (.innerLineEnd s false, [])
    else stepInside s 0 c
  | .inside s quotes, c => stepInside s quotes c
  | .innerLineEnd s keep, c =>
    if c = '\n' then some (.inside (if keep then s.push c else s) 0, []) else none
  | .escape s, c =>
    if c = 'u' then some (.unit s 4 0, [])
    else if c = 'U' then some (.unit s 8 0, [])
    else if s.multiline && isBlank c then some (.trim s false, [])
    else if s.multiline && c = '\n' then some (.trim s true, [])
    else if s.multiline && c = '\r' then some (.trimLineEnd s, [])
    else (escaped? c).map fun e => (.inside (s.push e) 0, [])
  | .unit s left value, c => do
    let digit ← Text.digitValue? 16 c
    if left ≤ 1 then
      let e ← ofCodePoint? (16 * value + digit)
      some (.inside (s.push e) 0, [])
    else some (.unit s (left - 1) (16 * value + digit), [])
  | .trim s ended, c =>
    if isBlank c then some (.trim s ended, [])
    else if c = '\n' then some (.trim s true, [])
    else if c = '\r' then some (.trimLineEnd s, [])
    else if ended then stepInside s 0 c
    else none
  | .trimLineEnd s, c => if c = '\n' then some (.trim s true, []) else none

/-- The last token, when the text ends. -/
def finish : Mode → Option (List Token)
  | .plain => some []
  | .bare read => some [.bare read.reverse]
  | .comment => some []
  | .opened _ true => some [.string "" false]
  | .inside s quotes =>
    if 3 ≤ quotes then some [(s.pushQuotes (quotes - 3)).token] else none
  | _ => none

/-- The tokens of the rest of a text. -/
def tokensFrom : Mode → List Char → Option (List Token)
  | mode, [] => finish mode
  | mode, c :: rest => do
    let (next, done) ← step mode c
    let tokens ← tokensFrom next rest
    some (done ++ tokens)

/-- The tokens of a text, behind a byte order mark if it starts with one. -/
def tokens? : List Char → Option (List Token)
  | '\ufeff' :: text => tokensFrom .plain text
  | text => tokensFrom .plain text

end Codegen.Toml
