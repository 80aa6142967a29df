import Codegen.Ir.Cast
import Codegen.Lowering.Access
import Codegen.Text.Bytes
import Codegen.Text.Digits

/-!
# Operators and literals

What the operators, conversions and literals of a body become, once their operands have been
walked.
-/

namespace Codegen.Lowering

open Ir (Value Inst Label)

/-! ## Number literals -/

/-- The number that digits spell, if there is one at least and the number has at most 64 bits. -/
def word64? (base : Nat) (digits : List Char) : Option Nat :=
  (Text.number? base digits).filter (· < 0x1_0000_0000_0000_0000)

/-- Digits behind their base mark, with or without a plus sign. -/
def basedNumber? (base : Nat) : List Char → Option Nat
  | '+' :: digits => word64? base digits
  | digits => word64? base digits

/-- A whole number in decimal digits; hexadecimal and octal spellings that are no number of 64
bits, and all others, stay as they are. -/
def wholeText (literal : List Char) : List Char :=
  match literal with
  | '0' :: 'x' :: digits => ((basedNumber? 16 digits).map (Nat.toDigits 10)).getD literal
  | '0' :: 'o' :: digits => ((basedNumber? 8 digits).map (Nat.toDigits 10)).getD literal
  | _ => literal

/-- Whether the character starts the exponent of a number. -/
def isExponentMark (c : Char) : Bool := c = 'e' || c = 'E'

/-- A floating-point number with a fraction in front of its exponent. -/
def floatText (literal : List Char) : List Char :=
  if literal.contains '.' then literal
  else
    literal.takeWhile (fun c => !isExponentMark c) ++ ['.', '0'] ++
      literal.dropWhile (fun c => !isExponentMark c)

/-- A number literal as a constant of its type is printed. -/
def numberText (literal : String) (type : Ty) : String :=
  String.ofList (if type.isFloat then floatText literal.toList else wholeText literal.toList)

/-! ## Operators -/

/-- What a binary operator asks for. -/
inductive Operation where
  | arithmetic (op : Ir.BinOp)
  | comparison (kind : Ir.Comparison)
  /-- A conjunction or disjunction that may skip its right operand. -/
  | shortCircuit (isAnd : Bool)
  deriving DecidableEq, Inhabited

/-- What a binary operator asks for. -/
def operation : BinaryOp → Operation
  | .add => .arithmetic .add
  | .sub => .arithmetic .sub
  | .mult => .arithmetic .mul
  | .div => .arithmetic .div
  | .rem => .arithmetic .rem
  | .band => .arithmetic .and
  | .bxor => .arithmetic .xor
  | .bor => .arithmetic .or
  | .cmpEq => .comparison .eq
  | .cmpNeq => .comparison .ne
  | .less => .comparison .lt
  | .leq => .comparison .le
  | .grt => .comparison .gt
  | .geq => .comparison .ge
  | .cmpAnd => .shortCircuit true
  | .cmpOr => .shortCircuit false

/-- The operation of a compound assignment. -/
def compound? : AssignOp → Option Ir.BinOp
  | .eq => none
  | .addEq => some .add
  | .subEq => some .sub
  | .multEq => some .mul
  | .divEq => some .div
  | .remEq => some .rem
  | .andEq => some .and
  | .xorEq => some .xor
  | .orEq => some .or

/-- An operation on one operand. -/
def applyUnary (env : Env) (op : UnaryOp) (type : Ty) (source : Operand) : Line Unit := do
  let dest ← temp
  let operandType := env.map source.type
  emit <|
    match op with
    | .neg => .neg (.var dest) source.value (!source.type.isFloat) operandType
    | .bnot => .bnot (.var dest) source.value operandType
    | .lnot => .lnot (.var dest) source.value operandType
  pushVar dest type

/-- An arithmetic operation; its kind is decided by the type of the left operand. -/
def applyArithmetic (env : Env) (op : Ir.BinOp) (type : Ty) (left right : Operand) :
    Line Unit := do
  let dest ← temp
  emit (.binary op (.var dest) left.value right.value (!left.type.isFloat)
    (!left.type.isUnsigned) (env.map left.type))
  pushVar dest type

/-- A comparison; pointers, truth values and enums compare like integers. -/
def applyComparison (env : Env) (kind : Ir.Comparison) (type : Ty) (left right : Operand) :
    Line Unit := do
  let dest ← temp
  emit (.compare kind (.var dest) left.value right.value (!left.type.isFloat)
    (!left.type.isUnsigned) (env.map left.type))
  pushVar dest type

/-- A conversion; signs and widths of both types decide the cast. -/
def applyConvert (env : Env) (target : Ty) (source : Operand) : Line Unit := do
  let fromType := env.map source.type
  let toType := env.map target
  let op := Ir.Cast.select fromType toType source.type.isUnsigned target.isUnsigned
  let dest ← temp
  emit (.cast op (.var dest) source.value fromType toType)
  pushVar dest target

/-- The address of a string constant. -/
def pushString (literal : String) (type : Ty) : Line Unit := do
  let index ← internString literal
  let dest ← temp
  emit (.str (.var dest) index (Text.byteLength literal + 1))
  pushVar dest type

/-! ## Conjunction and disjunction -/

/-- The constant that decides the result without the right operand. -/
def decisive (isAnd : Bool) : String := if isAnd then "0" else "1"

/-- Whether a constant left operand decides the result. -/
def decides (isAnd : Bool) (left : Operand) : Bool :=
  left.kind = .lit && left.content = decisive isAnd

/-- Stores the left operand; gives the slot of the result. -/
def storeLeft (left : Operand) : Line String := do
  let result ← hiddenSlot "i1"
  emit (.store "i1" left.value (.var result))
  pure result

/-- Stores the right operand as the result. -/
def storeRight (result : String) (right : Operand) : Line Unit :=
  emit (.store "i1" right.value (.var result))

/-- Loads the result where both ways have joined. -/
def loadResult (type : Ty) (result : String) : Line Unit := do
  let dest ← temp
  emit (.load "i1" (.var result) (.var dest))
  pushVar dest type

/-! ## Arrays -/

/-- The type of the elements of an array literal. -/
def elementType (env : Env) (type : Ty) : String := env.map type.pointee.notArray

/-- The storage of an array literal; gives the address of its first element. -/
def beginArray (size : Nat) (element : String) : Line String := do
  let id ← freshArray
  let storage := "arr." ++ Text.decimal id ++ ".ptr"
  let first := "arr." ++ Text.decimal id ++ ".cast_ptr"
  addSlot storage ("[" ++ Text.decimal size ++ " x " ++ element ++ "]")
  emit (.decay (.var first) (.var storage) element size)
  pure first

/-- The address of an element of an array literal. -/
def elementSlot (first element : String) (index : Nat) : Line String := do
  let slot ← temp
  emit (.getIndex (.var slot) (.var first) (.lit (Text.decimal index)) element "i64")
  pure slot

/-! ## Struct initializers -/

/-- A zeroed hidden slot for a value of a struct or tagged union type. -/
def beginInit (env : Env) (type : Ty) : Line Operand := do
  let slot ← hiddenSlot (env.map type)
  emit (.zeroInit (.var slot) (env.map type))
  pure (.var slot type.pointer)

/-- Stores values into the fields with the given positions. -/
def storeFields (env : Env) (location : Operand) (structType : String) :
    List (Nat × Operand) → Line Unit
  | [] => pure ()
  | (index, value) :: rest => do
    let dest ← fieldAddress location structType index
    emit (.store (env.map value.type) value.value (.var dest))
    storeFields env location structType rest

/-- Values in the order of their fields; values of one field stay in order. -/
def inFieldOrder (values : List (Nat × Operand)) : List (Nat × Operand) :=
  values.mergeSort fun a b => a.1 ≤ b.1

/-- Stores the tag of a member and gives the address of the member. -/
def beginMember (env : Env) (location : Operand) (type : Ty) (member : UnionMember)
    (span : Span) : Line String := do
  let tag ← fieldAddress location (env.map type) 0
  emit (.store "i64" (.lit (Text.signed member.tag)) (.var tag))
  unionPayload env location type member.type span

end Codegen.Lowering
