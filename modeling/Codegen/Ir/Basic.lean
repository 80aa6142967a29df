import Codegen.Span

/-!
# Modules of basic blocks

The output of the library before it is printed: functions made of labelled blocks, each block a
list of instructions closed by one terminator.  Types stand in it as they are printed.  A target
of a terminator is missing as long as the block it leads to has no label yet.
-/

namespace Codegen.Ir

/-- A block label, unique in its function. -/
abbrev Label := Nat

/-- The label of the block where a function starts. -/
def entryLabel : Label := 0

/-- An operand of an instruction. -/
inductive Value where
  /-- No value at run time; the note says what was there instead. -/
  | null (note : String)
  /-- A temporary or a stack slot. -/
  | var (name : String)
  /-- The text of a constant. -/
  | lit (text : String)
  deriving DecidableEq, Inhabited

/-- The name of a temporary or slot. -/
def Value.name? : Value → Option String
  | .var name => some name
  | _ => none

/-- Arithmetic and bitwise operations. -/
inductive BinOp where
  | add | sub | mul | div | rem | and | xor | or
  deriving DecidableEq, Inhabited

/-- Comparisons. -/
inductive Comparison where
  | eq | ne | ge | gt | le | lt
  deriving DecidableEq, Inhabited

/-- Conversions between printed types. -/
inductive Cast where
  | zext | sext | trunc
  /-- Integers of one width: the operand plus zero. -/
  | copy
  | sitofp | uitofp | fptosi | fptoui | fpext | fptrunc | bitcast | inttoptr | ptrtoint
  deriving DecidableEq, Inhabited

/-- An instruction. -/
inductive Inst where
  /-- The address of a hidden stack slot. -/
  | slotPtr (target source type : String)
  /-- The address of a string constant of `length` bytes. -/
  | str (target : Value) (index length : Nat)
  | zeroInit (dest : Value) (type : String)
  | getIndex (dest source index : Value) (type indexType : String)
  | getField (dest source : Value) (structType : String) (index : Nat)
  /-- A call; a callee with further arguments needs its full `signature`. -/
  | call (name returnType : String) (dest : Value) (args : List (String × Value))
      (signature : Option String) (location : Option Nat)
  | neg (dest source : Value) (isInteger : Bool) (type : String)
  | bnot (dest source : Value) (type : String)
  | lnot (dest source : Value) (type : String)
  | binary (op : BinOp) (dest left right : Value) (isInteger isSigned : Bool) (type : String)
  | compare (kind : Comparison) (dest left right : Value) (isInteger isSigned : Bool)
      (type : String)
  | store (type : String) (source dest : Value)
  | load (type : String) (source dest : Value)
  | cast (op : Cast) (dest source : Value) (fromType toType : String)
  /-- The address of the first of the `size` elements of an array. -/
  | decay (dest source : Value) (type : String) (size : Nat)
  deriving DecidableEq, Inhabited

/-- The end of a block. -/
inductive Terminator where
  | goto (target : Option Label)
  | branch (cond : Value) (onTrue onFalse : Option Label)
  | switch (value : Value) (type : String) (cases : List (Int × Label))
      (otherwise : Option Label)
  | ret (type : String) (value : Option Value)
  | unreachable
  deriving DecidableEq, Inhabited

namespace Terminator

/-- Every place the terminator may jump to, in the order it is written. -/
def targets : Terminator → List (Option Label)
  | goto target => [target]
  | branch _ onTrue onFalse => [onTrue, onFalse]
  | switch _ _ cases otherwise => cases.map (fun case => some case.2) ++ [otherwise]
  | ret .. => []
  | unreachable => []

/-- Whether control leaves the function here. -/
def isReturn : Terminator → Bool
  | ret .. => true
  | _ => false

/-- The return of a function without a result. -/
def retVoid : Terminator := ret "void" none

end Terminator

/-- A labelled list of instructions closed by a terminator. -/
structure Block where
  label : Label
  /-- Printed behind the label. -/
  comment : String := ""
  insts : List Inst := []
  terminator : Terminator
  deriving DecidableEq, Inhabited

/-- The labels a block may jump to. -/
def Block.successors (block : Block) : List Label :=
  block.terminator.targets.filterMap id

/-- A stack slot. -/
structure Slot where
  name : String
  type : String
  deriving DecidableEq, Inhabited

/-- A function; it is only declared when it has no blocks. -/
structure Function where
  name : String
  /-- Names and printed types. -/
  params : List (String × String) := []
  returnType : String
  attributes : List String := []
  isVariadic : Bool := false
  slots : List Slot := []
  blocks : List Block := []
  /-- The debug record of the function. -/
  record : Option Nat := none
  span : Span := {}
  file : String := ""
  deriving DecidableEq, Inhabited

namespace Function

/-- Whether the function has no body. -/
def isDeclaration (f : Function) : Bool := f.blocks.isEmpty

/-- The first block with the label. -/
def block? (f : Function) (label : Label) : Option Block :=
  f.blocks.find? fun block => block.label = label

/-- All instructions in the order of the blocks. -/
def insts (f : Function) : List Inst := f.blocks.flatMap Block.insts

end Function

/-- A declared struct or tagged union: the printed types of its parts, without the tag of a tagged
union, and its size and alignment in bytes. -/
structure TypeDecl where
  name : String
  parts : List String := []
  size : Nat := 0
  align : Nat := 0
  deriving DecidableEq, Inhabited

end Codegen.Ir
