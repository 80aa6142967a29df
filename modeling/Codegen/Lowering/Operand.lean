import Codegen.Ir.Basic
import Codegen.Ty

/-!
# Operands

What the nodes of a body leave on the value stack: values, constants, and names that are not values
but the start of a path or a call.
-/

namespace Codegen.Lowering

/-- What an entry of the value stack stands for. -/
inductive OperandKind where
  /-- No value: `nil`, or the result of a call without one. -/
  | nil
  /-- A temporary or a stack slot. -/
  | var
  /-- The text of a constant. -/
  | lit
  /-- The name of a built-in type. -/
  | primitive
  /-- The name of a function. -/
  | function
  /-- The name of a method, whose receiver lies below it on the stack. -/
  | method
  | struct
  | union
  | enum
  deriving DecidableEq, Inhabited

/-- The name of the kind in messages. -/
def OperandKind.title : OperandKind → String
  | nil => "Nil"
  | var => "Variable"
  | lit => "Literal"
  | primitive => "Primitive"
  | function => "FuncSymbol"
  | method => "Method"
  | struct => "StructSymbol"
  | union => "TaggedUnionSymbol"
  | enum => "EnumSymbol"

/-- An entry of the value stack. -/
structure Operand where
  kind : OperandKind
  content : String
  type : Ty
  deriving Inhabited

namespace Operand

/-- The null value of a type. -/
def nil (type : Ty) : Operand := ⟨.nil, "", type⟩

/-- What a name of the function holds. -/
def var (name : String) (type : Ty) : Operand := ⟨.var, name, type⟩

/-- A constant. -/
def lit (text : String) (type : Ty) : Operand := ⟨.lit, text, type⟩

/-- Whether the operand has a name in the function. -/
def isVar (operand : Operand) : Bool := operand.kind = .var

/-- The operand as instructions take it; a name that is not a value has none. -/
def value (operand : Operand) : Ir.Value :=
  match operand.kind with
  | .nil => .lit "null"
  | .var => .var operand.content
  | .lit => .lit operand.content
  | kind => .null (kind.title ++ " " ++ operand.content)

end Operand

end Codegen.Lowering
