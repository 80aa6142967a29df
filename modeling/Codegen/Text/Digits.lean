/-!
# Digits

The numbers that digits spell, and the range of double precision.
-/

namespace Codegen.Text

/-- The number that decimal digits spell. -/
def ofDigits (digits : List Char) : Nat := Nat.ofDigitChars 10 digits 0

/-- The value of a digit, of either case, in a base of at most sixteen. -/
def digitValue? (base : Nat) (c : Char) : Option Nat :=
  let value :=
    if c.isDigit then some (c.toNat - '0'.toNat)
    else if 'a' ≤ c ∧ c ≤ 'f' then some (c.toNat - 'a'.toNat + 10)
    else if 'A' ≤ c ∧ c ≤ 'F' then some (c.toNat - 'A'.toNat + 10)
    else none
  value.filter (· < base)

/-- The number that digits spell behind a number read before. -/
def digitsFrom? (base : Nat) : (before : Nat) → List Char → Option Nat
  | before, [] => some before
  | before, c :: rest => do
    let digit ← digitValue? base c
    digitsFrom? base (base * before + digit) rest

/-- The number that digits spell, if there is one at least. -/
def number? (base : Nat) (digits : List Char) : Option Nat :=
  if digits.isEmpty then none else digitsFrom? base 0 digits

/-- A number rounded to the 53 binary digits of double precision, a half to the even neighbour. -/
def nearestDouble (n : Nat) : Nat :=
  let unit := 1 <<< (n.log2 + 1 - 53)
  let below := n / unit
  let rest := n % unit
  if 2 * rest < unit || (2 * rest = unit && below % 2 = 0) then below * unit
  else (below + 1) * unit

/-- The least number that double precision rounds beyond its range. -/
def doubleLimit : Nat := (1 <<< 1024) - (1 <<< 970)

/-- Whether `digits · 10 ^ exponent` is beyond the range of double precision.  The number of digits
decides except next to the limit, where the numbers are compared. -/
def exceedsDouble (digits : List Char) (exponent : Int) : Bool :=
  let significand := ofDigits digits
  let magnitude := (Nat.toDigits 10 significand).length + exponent
  if significand = 0 || magnitude < 309 then false
  else if 309 < magnitude then true
  else if 0 ≤ exponent then decide (doubleLimit ≤ significand * Nat.pow 10 exponent.toNat)
  else decide (doubleLimit * Nat.pow 10 (-exponent).toNat ≤ significand)

end Codegen.Text
