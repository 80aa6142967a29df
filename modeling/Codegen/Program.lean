import Codegen.Span
import Codegen.Symbol

/-!
# Programs

A program is a symbol table with struct and tagged union definitions, function declarations and
function bodies.  A body is a tree of nodes with structured control flow; every node carries its
source position, and every node that has a value carries the type of that value.

The tree is one inductive family for all kinds of nodes: a statement where an operand belongs is
a tree like any other, and what it means is decided where bodies are turned into blocks.
-/

namespace Codegen

/-- Operators with one operand. -/
inductive UnaryOp where
  /-- Arithmetic negation. -/
  | neg
  /-- Bitwise complement. -/
  | bnot
  /-- Negation of a truth value. -/
  | lnot
  deriving DecidableEq, Inhabited

/-- Operators with two operands. -/
inductive BinaryOp where
  | add | sub | mult | div | rem
  | cmpEq | cmpNeq | less | leq | grt | geq
  /-- Conjunction, whose right operand runs only when the left one is true. -/
  | cmpAnd
  /-- Disjunction, whose right operand runs only when the left one is false. -/
  | cmpOr
  | band | bxor | bor
  deriving DecidableEq, Inhabited

namespace BinaryOp

/-- Whether the right operand may be skipped. -/
def isShortCircuit (op : BinaryOp) : Bool := op = .cmpAnd || op = .cmpOr

/-- Whether the operator compares its operands. -/
def isComparison (op : BinaryOp) : Bool :=
  [cmpEq, cmpNeq, less, leq, grt, geq].contains op

end BinaryOp

/-- Plain and compound assignments. -/
inductive AssignOp where
  | eq | addEq | subEq | multEq | divEq | remEq | andEq | xorEq | orEq
  deriving DecidableEq, Inhabited

mutual

/-- A node of a function body. -/
inductive Node where
  | mk (kind : NodeKind) (span : Span)

/-- What a node is. -/
inductive NodeKind where
  /-- Statements in a scope of their own. -/
  | block (content : List Node)
  | unary (op : UnaryOp) (type : Ty) (value : Node)
  | binary (op : BinaryOp) (type : Ty) (left right : Node)
  | convert (source : Node) (target : Ty)
  | nil (type : Ty)
  | number (literal : String) (type : Ty)
  | string (literal : String) (type : Ty)
  | char (literal : UInt8) (type : Ty)
  | bool (literal : Bool) (type : Ty)
  /-- A stack array; without values it is left as it is. -/
  | array (size : Nat) (type : Ty) (values : List Node)
  | structInit (type : Ty) (fields : List FieldInit)
  /-- A head and the links applied to it from left to right. -/
  | call (type : Ty) (chain : List Node)
  | callId (name : String) (type : Ty)
  | callIndex (type : Ty) (index : Node)
  /-- A call of what the chain has reached; `byReference` says which arguments pass an address. -/
  | callFunc (type : Ty) (args : List Node) (byReference : List Bool)
  | getField (name : String) (type : Ty)
  | getPath (name : String) (type : Ty)
  | ptrGetField (name : String) (type : Ty)
  | define (name : String) (type : Ty) (init : Node)
  | assign (op : AssignOp) (left right : Node)
  /-- Arms tried in order; only the last may lack a condition. -/
  | branch (arms : List Arm)
  | switch (condition : Node) (cases : List Case) (otherwise : Option Node)
  | breakLoop
  | continueLoop
  | loop (condition body : Node) (update : Option Node)
  /-- A return; with `byReference` it returns the address of its value. -/
  | ret (value : Option Node) (byReference : Bool)

/-- An arm of a branch. -/
inductive Arm where
  | mk (condition : Option Node) (body : Node) (span : Span)

/-- A case of a switch. -/
inductive Case where
  | mk (value : Int) (body : Node) (span : Span)

/-- A field of a struct initializer. -/
inductive FieldInit where
  | mk (name : String) (content : Node) (type : Ty)

end

namespace NodeKind

/-- Whether the node has a value. -/
def isExpression : NodeKind → Bool
  | .unary .. | .binary .. | .convert .. | .nil .. | .number .. | .string .. | .char ..
  | .bool .. | .array .. | .structInit .. | .call .. | .callId .. => true
  | _ => false

/-- Whether the node makes sense only behind the head of a chain. -/
def isCallLink : NodeKind → Bool
  | .callIndex .. | .callFunc .. | .getField .. | .getPath .. | .ptrGetField .. => true
  | _ => false

/-- Type of the value of the node, or of what it declares. -/
def type? : NodeKind → Option Ty
  | .unary _ type _ | .binary _ type _ _ | .nil type | .number _ type | .string _ type
  | .char _ type | .bool _ type | .array _ type _ | .structInit type _ | .call type _
  | .callId _ type | .callIndex type _ | .callFunc type _ _ | .getField _ type
  | .getPath _ type | .ptrGetField _ type | .define _ type _ => some type
  | .convert _ target => some target
  | .block _ | .assign .. | .branch _ | .switch .. | .breakLoop | .continueLoop | .loop ..
  | .ret .. => none

/-- The name of the kind in messages. -/
def title : NodeKind → String
  | .block .. => "block"
  | .unary .. => "unary"
  | .binary .. => "binary"
  | .convert .. => "type-convert"
  | .nil .. => "nil"
  | .number .. => "number"
  | .string .. => "string"
  | .char .. => "char"
  | .bool .. => "bool"
  | .array .. => "array"
  | .structInit .. => "struct-init"
  | .call .. => "call"
  | .callId .. => "call-id"
  | .callIndex .. => "call-index"
  | .callFunc .. => "call-func-args"
  | .getField .. => "get-field"
  | .getPath .. => "get-path"
  | .ptrGetField .. => "ptr-get-field"
  | .define .. => "define"
  | .assign .. => "assign"
  | .branch .. => "branch"
  | .switch .. => "switch"
  | .breakLoop => "break"
  | .continueLoop => "continue"
  | .loop .. => "loop"
  | .ret .. => "return"

/-- Whether the node is a chain. -/
def isCall : NodeKind → Bool
  | .call .. => true
  | _ => false

/-- Whether the node is the link that calls a function. -/
def isCallFunc : NodeKind → Bool
  | .callFunc .. => true
  | _ => false

end NodeKind

namespace Node

/-- What the node is. -/
def kind : Node → NodeKind
  | .mk kind _ => kind

/-- Where the node stands in its file. -/
def span : Node → Span
  | .mk _ span => span

/-- Whether the node has a value. -/
def isExpression (node : Node) : Bool := node.kind.isExpression

end Node

/-- A struct or tagged union definition: the types of its fields or members. -/
structure Aggregate where
  name : String
  path : String := ""
  file : String := ""
  span : Span := {}
  parts : List Ty := []
  deriving Inhabited

/-- The type a definition defines. -/
def Aggregate.type (a : Aggregate) : Ty := .named a.name a.path

/-- The name under which a definition is found. -/
def Aggregate.fullPath (a : Aggregate) : String := a.type.fullPath

/-- A function: only declared when it has no body. -/
structure Func where
  name : String
  file : String := ""
  span : Span := {}
  params : List (String × Ty) := []
  returnType : Ty
  attributes : List String := []
  /-- Whether further arguments may follow the declared ones. -/
  isVariadic : Bool := false
  body : Option Node := none

/-- What a program defines. -/
structure Context where
  structs : List Aggregate := []
  unions : List Aggregate := []
  decls : List Func := []
  impls : List Func := []

/-- A program: its symbols and its definitions. -/
structure Program where
  symbols : SymbolTable := {}
  context : Context := {}

end Codegen
