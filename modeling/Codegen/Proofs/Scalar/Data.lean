import Codegen.Program
import Codegen.Text.Digits

/-!
# Scalar data

The integers of 64 bits, with and without a sign, and truth values; what the operators of the
language mean on them; and the trees that are built from nothing else.

Integers are words.  Sums, differences and products are exact up to a multiple of `2 ^ 64`.  A
quotient is rounded towards zero, and it is undefined by zero and where it is not an integer of its
type, and so is its remainder.
-/

namespace Codegen

/-- The scalar types. -/
inductive Scalar where
  | i64
  | u64
  | bool
  deriving DecidableEq, Inhabited

/-- A scalar value. -/
inductive Datum where
  | word (bits : BitVec 64)
  | bit (holds : Bool)
  deriving DecidableEq, Inhabited

namespace Scalar

/-- The scalar as a type of the language. -/
def ty : Scalar → Ty
  | i64 => .i64
  | u64 => .u64
  | bool => .bool

/-- The scalar that a type is. -/
def of? : Ty → Option Scalar
  | ⟨"i64", "", 0, [], false, false, false, 0, false⟩ => some i64
  | ⟨"u64", "", 0, [], false, false, false, 0, false⟩ => some u64
  | ⟨"bool", "", 0, [], false, false, false, 0, false⟩ => some bool
  | _ => none

theorem of?_eq_some {ty : Ty} {s : Scalar} (h : of? ty = some s) : ty = s.ty := by
  unfold of? at h
  split at h <;> cases h <;> rfl

theorem of?_ty (s : Scalar) : of? s.ty = some s := by
  cases s <;> rfl

/-- Whether the scalar is an integer. -/
def isInteger : Scalar → Bool
  | bool => false
  | _ => true

/-- Whether the scalar has a sign. -/
def isSigned : Scalar → Bool
  | u64 => false
  | _ => true

/-- The number that a word stands for. -/
def number (s : Scalar) (w : BitVec 64) : Int := if s.isSigned then w.toInt else w.toNat

/-- Whether a number is an integer of the scalar. -/
def represents (s : Scalar) (n : Int) : Bool :=
  if s.isSigned then -0x8000_0000_0000_0000 ≤ n && n < 0x8000_0000_0000_0000
  else 0 ≤ n && n < 0x1_0000_0000_0000_0000

/-- Whether a datum is a value of the scalar. -/
def has : Scalar → Datum → Bool
  | bool, .bit _ => true
  | i64, .word _ => true
  | u64, .word _ => true
  | _, _ => false

end Scalar

/-! ## Operators -/

/-- What an operator with one operand gives. -/
def UnaryOp.apply : UnaryOp → Datum → Option Datum
  | .neg, .word w => some (.word (-w))
  | .bnot, .word w => some (.word (~~~w))
  | .bnot, .bit b => some (.bit (!b))
  | .lnot, .bit b => some (.bit (!b))
  | _, _ => none

namespace BinaryOp

/-- The quotient of two numbers, where it is defined. -/
def quotient? (s : Scalar) (x y : Int) : Option Int :=
  if y = 0 then none else (some (x.tdiv y)).filter s.represents

/-- What an arithmetic operator gives on integers of a type. -/
def arithmetic (op : BinaryOp) (s : Scalar) (a b : BitVec 64) : Option (BitVec 64) :=
  let x := s.number a
  let y := s.number b
  match op with
  | .add => some (.ofInt 64 (x + y))
  | .sub => some (.ofInt 64 (x - y))
  | .mult => some (.ofInt 64 (x * y))
  | .div => (quotient? s x y).map (.ofInt 64)
  | .rem => (quotient? s x y).map fun q => .ofInt 64 (x - q * y)
  | .band => some (a &&& b)
  | .bxor => some (a ^^^ b)
  | .bor => some (a ||| b)
  | _ => none

/-- How two numbers compare. -/
def compare (op : BinaryOp) (x y : Int) : Option Bool :=
  match op with
  | .cmpEq => some (x = y)
  | .cmpNeq => some (x ≠ y)
  | .less => some (x < y)
  | .leq => some (x ≤ y)
  | .grt => some (x > y)
  | .geq => some (x ≥ y)
  | _ => none

/-- What an operator gives on truth values. -/
def logical (op : BinaryOp) (a b : Bool) : Option Bool :=
  match op with
  | .cmpEq => some (a = b)
  | .cmpNeq => some (a ≠ b)
  | .band => some (a && b)
  | .bxor => some (a ^^ b)
  | .bor => some (a || b)
  | _ => none

/-- What an operator gives that needs both operands, which have the type `s`. -/
def apply (op : BinaryOp) (s : Scalar) : Datum → Datum → Option Datum
  | .word a, .word b =>
    if op.isComparison then (op.compare (s.number a) (s.number b)).map .bit
    else (op.arithmetic s a b).map .word
  | .bit a, .bit b => (op.logical a b).map .bit
  | _, _ => none

/-- Whether operands can have the type: conjunction and disjunction are for truth values. -/
def takes (op : BinaryOp) (s : Scalar) : Bool := !op.isShortCircuit || s = .bool

/-- The type of the result. -/
def gives (op : BinaryOp) (s : Scalar) : Scalar :=
  if op.isShortCircuit || op.isComparison then .bool else s

end BinaryOp

/-- The operator of a compound assignment. -/
def AssignOp.operator? : AssignOp → Option BinaryOp
  | .eq => none
  | .addEq => some .add
  | .subEq => some .sub
  | .multEq => some .mult
  | .divEq => some .div
  | .remEq => some .rem
  | .andEq => some .band
  | .xorEq => some .bxor
  | .orEq => some .bor

/-! ## Scalar trees -/

/-- The number that a decimal literal spells. -/
def decimal? (literal : String) : Option Int :=
  match literal.toList with
  | '-' :: digits => (Text.number? 10 digits).map fun n => -(n : Int)
  | digits => (Text.number? 10 digits).map fun n => (n : Int)

mutual

/-- The type of a scalar expression, if the tree is one and is well typed. -/
def Node.scalar? : Node → Option Scalar
  | .mk kind _ => kind.scalar?

/-- The type of a scalar expression by its kind. -/
def NodeKind.scalar? : NodeKind → Option Scalar
  | .number literal type =>
    (Scalar.of? type).filter fun s => s.isInteger && (decimal? literal).isSome
  | .bool _ type => (Scalar.of? type).filter (· = .bool)
  | .call type [.mk (.callId _ declared) _] =>
    (Scalar.of? type).filter fun s => Scalar.of? declared = some s
  | .unary _ type value =>
    value.scalar?.filter fun s => Scalar.of? type = some s
  | .binary op type left right =>
    (left.scalar?.filter fun s => op.takes s && right.scalar? = some s).bind fun s =>
      (Scalar.of? type).filter (· = op.gives s)
  | _ => none

end

/-- Whether the tree is a local of the given type. -/
def Node.isLocal (node : Node) (s : Scalar) : Bool :=
  match node with
  | .mk (.call type [.mk (.callId _ declared) _]) _ =>
    Scalar.of? type = some s && Scalar.of? declared = some s
  | _ => false

mutual

/-- Whether the tree is a statement of the scalar fragment. -/
def Node.isScalar : Node → Bool
  | .mk kind _ => kind.isScalar

/-- Whether a node of a kind is a statement of the scalar fragment. -/
def NodeKind.isScalar : NodeKind → Bool
  | .block content => Node.areScalar content
  | .define _ type init => init.scalar?.any fun s => Scalar.of? type = some s
  | .assign _ target value => value.scalar?.any target.isLocal
  | .branch arms => Arm.areScalar arms
  | .switch condition cases otherwise =>
    condition.scalar? = some .i64 && Case.areScalar cases && Node.isScalar? otherwise
  | .breakLoop => true
  | .continueLoop => true
  | .loop condition body update =>
    condition.scalar? = some .bool && body.isScalar && Node.isScalar? update
  | .ret none _ => true
  | .ret (some value) byReference => value.scalar?.isSome && !byReference
  | kind => kind.scalar?.isSome

/-- Whether the trees are statements of the scalar fragment. -/
def Node.areScalar : List Node → Bool
  | [] => true
  | node :: rest => node.isScalar && Node.areScalar rest

/-- Whether the tree, if there is one, is a statement of the scalar fragment. -/
def Node.isScalar? : Option Node → Bool
  | none => true
  | some node => node.isScalar

/-- Whether the arms are arms of the scalar fragment. -/
def Arm.areScalar : List Arm → Bool
  | [] => true
  | .mk none body _ :: rest => body.isScalar && Arm.areScalar rest
  | .mk (some condition) body _ :: rest =>
    condition.scalar? = some .bool && body.isScalar && Arm.areScalar rest

/-- Whether the cases are cases of the scalar fragment. -/
def Case.areScalar : List Case → Bool
  | [] => true
  | .mk _ body _ :: rest => body.isScalar && Case.areScalar rest

end

/-- A function of the scalar fragment. -/
structure Func.IsScalar (f : Func) : Prop where
  params : ∀ param ∈ f.params, (Scalar.of? param.2).isSome
  distinct : (f.params.map Prod.fst).Nodup
  body : ∀ body ∈ f.body, body.isScalar = true

end Codegen
