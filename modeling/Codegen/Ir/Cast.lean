import Codegen.Ir.Basic
import Codegen.Text.Digits

/-!
# Choosing a conversion

The conversion between two printed types depends on their form alone, and for numbers on which of
them is unsigned: pointers end in `*`, floating-point types are `float` and `double`, and integer
types are `i` followed by a width.
-/

namespace Codegen.Ir

/-- The greatest width of an integer type. -/
def maxWidth : Nat := 0xffff_ffff

/-- The number that decimal digits spell, if all characters are digits, there is one at least and
the number is at most `bound`. -/
def boundedDigits? (bound : Nat) (digits : List Char) : Option Nat :=
  if digits.isEmpty || !digits.all Char.isDigit then none
  else if Text.ofDigits digits ≤ bound then some (Text.ofDigits digits) else none

/-- A width: digits, with or without a plus sign in front of them. -/
def width? : List Char → Option Nat
  | '+' :: digits => boundedDigits? maxWidth digits
  | digits => boundedDigits? maxWidth digits

/-- The width of an integer type. -/
def intWidth? (type : String) : Option Nat :=
  match type.toList with
  | 'i' :: width => width? width
  | _ => none

/-- The width of a floating-point type. -/
def floatWidth? (type : String) : Option Nat :=
  if type = "float" then some 32 else if type = "double" then some 64 else none

/-- Whether a printed type is a pointer. -/
def isPointerType (type : String) : Bool :=
  type.toList.getLast? = some '*'

namespace Cast

/-- The conversion between floating-point types of the given widths. -/
def betweenFloats (a b : Nat) : Cast :=
  if a < b then fpext else if b < a then fptrunc else bitcast

/-- The conversion between integers of the given widths.  A truth value is never negative. -/
def betweenInts (a b : Nat) (fromUnsigned : Bool) : Cast :=
  if a < b then (if fromUnsigned || a = 1 then zext else sext)
  else if b < a then trunc
  else copy

/-- The conversion between types that are no pointers. -/
def betweenNumbers (fromType toType : String) (fromUnsigned toUnsigned : Bool) : Cast :=
  match floatWidth? fromType, floatWidth? toType with
  | some a, some b => betweenFloats a b
  | some _, none => if toUnsigned then fptoui else fptosi
  | none, some _ => if fromUnsigned then uitofp else sitofp
  | none, none =>
    match intWidth? fromType, intWidth? toType with
    | some a, some b => betweenInts a b fromUnsigned
    | _, _ => bitcast

/-- The conversion between two printed types. -/
def select (fromType toType : String) (fromUnsigned toUnsigned : Bool) : Cast :=
  match isPointerType fromType, isPointerType toType with
  | true, true => bitcast
  | true, false => ptrtoint
  | false, true => inttoptr
  | false, false => betweenNumbers fromType toType fromUnsigned toUnsigned

/-- The name of the conversion. -/
def name : Cast → String
  | zext => "zext"
  | sext => "sext"
  | trunc => "trunc"
  | copy => "copy"
  | sitofp => "sitofp"
  | uitofp => "uitofp"
  | fptosi => "fptosi"
  | fptoui => "fptoui"
  | fpext => "fpext"
  | fptrunc => "fptrunc"
  | bitcast => "bitcast"
  | inttoptr => "inttoptr"
  | ptrtoint => "ptrtoint"

/-- The instruction that does the conversion. -/
def mnemonic : Cast → String
  | copy => "add"
  | op => op.name

end Cast

end Codegen.Ir
