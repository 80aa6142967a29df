import Codegen.Json.Basic
import Codegen.Text.Digits

/-!
# JSON numbers

The spelling of a number is an optional minus sign, digits without a leading zero, an optional
fraction and an optional exponent.  A spelling without fraction and exponent is an integer, with
one exception: a negative zero is not.

A number must be in the range of double precision.  It is measured with as many leading digits as
64 bits hold, times a power of ten, both rounded to double precision.
-/

namespace Codegen.Json

open Text (ofDigits nearestDouble doubleLimit)

/-- Digits without a superfluous leading zero, and what follows them. -/
def wholePart? (text : List Char) : Option (List Char × List Char) :=
  match text.takeWhile Char.isDigit, text.dropWhile Char.isDigit with
  | [], _ => none
  | '0' :: _ :: _, _ => none
  | digits, rest => some (digits, rest)

/-- The digits behind a decimal point, if there is one, and what follows them. -/
def fraction? : List Char → Option (List Char × List Char)
  | '.' :: rest =>
    match rest.takeWhile Char.isDigit with
    | [] => none
    | digits => some (digits, rest.dropWhile Char.isDigit)
  | text => some ([], text)

/-- The digits of an exponent, which must be all of the text. -/
def exponentDigits? (text : List Char) : Option Nat :=
  if text.isEmpty || !text.all Char.isDigit then none else some (ofDigits text)

/-- The exponent behind its letter. -/
def signedExponent? : List Char → Option Int
  | '+' :: digits => (exponentDigits? digits).map fun n => n
  | '-' :: digits => (exponentDigits? digits).map fun n => -n
  | digits => (exponentDigits? digits).map fun n => n

/-- The exponent that ends a number; no text is the exponent zero. -/
def exponent? : List Char → Option Int
  | [] => some 0
  | c :: rest => if c = 'e' || c = 'E' then signedExponent? rest else none

/-- A number with digits behind it, as long as it fits 64 bits, and how many digits are left out. -/
def fillWord : (before : Nat) → List Char → Nat × Nat
  | before, [] => (before, 0)
  | before, c :: rest =>
    let next := ofDigits [c] + 10 * before
    if next < 0x1_0000_0000_0000_0000 then fillWord next rest else (before, rest.length + 1)

/-- Whether `significand · 10 ^ exponent` is beyond the range of double precision. -/
def overflows (significand : Nat) (exponent : Int) : Bool :=
  if significand = 0 || exponent < 0 then false
  else if 308 < exponent then true
  else decide (doubleLimit ≤ nearestDouble significand * nearestDouble (Nat.pow 10 exponent.toNat))

/-- Whether a number is beyond the range of double precision. -/
def isBeyondRange (whole decimals : List Char) (exponent : Int) : Bool :=
  let (wholeDigits, skipped) := fillWord 0 whole
  let (significand, unread) := fillWord wholeDigits decimals
  overflows significand (exponent + skipped - (decimals.length - unread))

/-- A number with its sign taken off; `spelling` is the whole text. -/
def unsignedNumber? (spelling : List Char) (negative : Bool) (text : List Char) : Option Json := do
  let (whole, rest) ← wholePart? text
  let (decimals, rest') ← fraction? rest
  let exponent ← exponent? rest'
  if isBeyondRange whole decimals exponent then
    some .unreadable
  else if !rest.isEmpty || (negative && ofDigits whole = 0) then
    some (.real (String.ofList spelling))
  else if negative then
    some (.int (-(ofDigits whole : Int)))
  else
    some (.int (ofDigits whole))

/-- The value of the spelling of a number. -/
def number? : List Char → Option Json
  | '-' :: digits => unsignedNumber? ('-' :: digits) true digits
  | digits => unsignedNumber? digits false digits

end Codegen.Json
