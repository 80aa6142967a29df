import Codegen.Text.Digits
import Codegen.Toml.Basic

/-!
# Bare TOML values

Truth values, numbers and dates, the values that stand without quotes.  A single underscore may
stand between two digits of a number.
-/

namespace Codegen.Toml

/-- Digits without the underscores between them. -/
def ungroup? (isDigit : Char → Bool) : List Char → Option (List Char)
  | [] => none
  | [c] => if isDigit c then some [c] else none
  | c :: '_' :: rest => if isDigit c then (ungroup? isDigit rest).map (c :: ·) else none
  | c :: rest => if isDigit c then (ungroup? isDigit rest).map (c :: ·) else none

/-- Whether there is a minus sign, and what follows the sign if there is one. -/
def splitSign : List Char → Bool × List Char
  | '-' :: rest => (true, rest)
  | '+' :: rest => (false, rest)
  | text => (false, text)

/-- Decimal digits without a superfluous leading zero. -/
def wholeDigits? (text : List Char) : Option (List Char) :=
  match ungroup? Char.isDigit text with
  | some ('0' :: _ :: _) => none
  | digits => digits

/-- An integer of 64 bits. -/
def bounded? (value : Int) : Option Toml :=
  if -0x8000_0000_0000_0000 ≤ value ∧ value < 0x8000_0000_0000_0000 then some (.integer value)
  else none

/-- An integer whose digits follow the mark of their base. -/
def based? (base : Nat) (text : List Char) : Option Toml := do
  let digits ← ungroup? (fun c => (Text.digitValue? base c).isSome) text
  let value ← Text.number? base digits
  bounded? value

/-- An integer, in base ten unless it has the mark of another base. -/
def integer? : List Char → Option Toml
  | '0' :: 'x' :: text => based? 16 text
  | '0' :: 'o' :: text => based? 8 text
  | '0' :: 'b' :: text => based? 2 text
  | text => do
    let (negative, text) := splitSign text
    let digits ← wholeDigits? text
    bounded? (if negative then -(Text.ofDigits digits : Int) else Text.ofDigits digits)

/-- Whether the character may stand among the digits of a number. -/
def isGrouped (c : Char) : Bool := c.isDigit || c = '_'

/-- The digits behind a decimal point, if there is one, and what follows them. -/
def fraction? : List Char → Option (List Char × List Char)
  | '.' :: rest => (ungroup? Char.isDigit (rest.takeWhile isGrouped)).map fun digits =>
      (digits, rest.dropWhile isGrouped)
  | text => some ([], text)

/-- The exponent that ends a number; no text is the exponent zero. -/
def exponent? : List Char → Option Int
  | [] => some 0
  | c :: rest =>
    if c = 'e' || c = 'E' then
      let (negative, rest) := splitSign rest
      (ungroup? Char.isDigit rest).map fun digits =>
        if negative then -(Text.ofDigits digits : Int) else Text.ofDigits digits
    else none

/-- A floating-point number, which has a fraction or an exponent; a positive one must be in the
range of double precision. -/
def float? (spelling : List Char) : Option Toml := do
  let (negative, text) := splitSign spelling
  if text = "inf".toList || text = "nan".toList then
    some (.float (String.ofList spelling))
  else
    let whole ← wholeDigits? (text.takeWhile isGrouped)
    let (decimals, rest) ← fraction? (text.dropWhile isGrouped)
    let exponent ← exponent? rest
    if text.all isGrouped then none
    else if !negative && Text.exceedsDouble (whole ++ decimals) (exponent - decimals.length) then
      none
    else some (.float (String.ofList spelling))

/-! ## Dates and times -/

/-- A number of two digits inside bounds, and what follows it. -/
def twoDigits? (low high : Nat) : List Char → Option (Nat × List Char)
  | a :: b :: rest =>
    if a.isDigit && b.isDigit && low ≤ Text.ofDigits [a, b] && Text.ofDigits [a, b] ≤ high then
      some (Text.ofDigits [a, b], rest)
    else none
  | _ => none

/-- What follows a given character. -/
def behind? (c : Char) : List Char → Option (List Char)
  | d :: rest => if c = d then some rest else none
  | [] => none

/-- The length of a month. -/
def daysOfMonth (year month : Nat) : Nat :=
  if month = 2 then
    if year % 4 = 0 && (year % 100 ≠ 0 || year % 400 = 0) then 29 else 28
  else if month ∈ [4, 6, 9, 11] then 30
  else 31

/-- What follows a date. -/
def afterDate? (text : List Char) : Option (List Char) := do
  let year := text.take 4
  if year.length < 4 || !year.all Char.isDigit then none
  else
    let (month, rest) ← twoDigits? 1 12 (← behind? '-' (text.drop 4))
    let (_, rest) ← twoDigits? 1 (daysOfMonth (Text.ofDigits year) month) (← behind? '-' rest)
    some rest

/-- What follows the fraction of a second, if there is one. -/
def afterFraction? : List Char → Option (List Char)
  | '.' :: rest =>
    if (rest.takeWhile Char.isDigit).isEmpty then none else some (rest.dropWhile Char.isDigit)
  | text => some text

/-- What follows a time of day. -/
def afterTime? (text : List Char) : Option (List Char) := do
  let (_, rest) ← twoDigits? 0 23 text
  let (_, rest) ← twoDigits? 0 59 (← behind? ':' rest)
  let (_, rest) ← twoDigits? 0 60 (← behind? ':' rest)
  afterFraction? rest

/-- Whether a text is the offset of a time zone, or empty. -/
def isOffset : List Char → Bool
  | [] => true
  | [c] => c = 'Z' || c = 'z'
  | c :: rest =>
    (c = '+' || c = '-') &&
      (do
        let (_, rest) ← twoDigits? 0 23 rest
        let (_, rest) ← twoDigits? 0 59 (← behind? ':' rest)
        some rest) = some []

/-- Whether a character may stand between a date and a time. -/
def joinsTime (c : Char) : Bool := c = 'T' || c = 't' || c = ' '

/-- Whether a text is a time of day, a date, or both joined, then possibly with an offset. -/
def isDate (text : List Char) : Bool :=
  afterTime? text = some [] ||
    match afterDate? text with
    | none => false
    | some [] => true
    | some (c :: rest) => joinsTime c && ((afterTime? rest).map isOffset).getD false

/-- A date or time, kept as it is written. -/
def date? (text : List Char) : Option Toml :=
  if isDate text then some (.date (String.ofList text)) else none

/-- A value without quotes. -/
def scalar? (text : List Char) : Option Toml :=
  if text = "true".toList then some (.bool true)
  else if text = "false".toList then some (.bool false)
  else (integer? text).or ((float? text).or (date? text))

end Codegen.Toml
