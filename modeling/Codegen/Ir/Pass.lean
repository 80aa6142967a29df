import Codegen.Error
import Codegen.Ir.Module

/-!
# Passes over a module

Three passes run over every module: one refuses functions declared twice, one replaces the size
helpers of built-in types by constants, and one replaces `__ptr__` calls by the address of the
receiver.  The first pass that reports an error ends the run.
-/

namespace Codegen.Ir

/-- A pass over a module. -/
inductive Pass where
  /-- Refuses a function that is declared twice. -/
  | redefinition
  /-- Replaces the sizes of built-in types. -/
  | primitiveSize
  /-- Replaces the calls that give the address of their receiver. -/
  | receiverPtr
  deriving DecidableEq, Inhabited

/-- What a pass leaves behind. -/
structure PassResult where
  module : Module
  /-- What the pass did, in one line. -/
  info : String
  errors : List Error := []

/-- Functions whose name stands in the list before, in order. -/
def redeclared (seen : List String) : List Function → List Function
  | [] => []
  | f :: rest =>
    if seen.contains f.name then f :: redeclared seen rest else redeclared (f.name :: seen) rest

/-- The error about a function that is declared again. -/
def redefinitionError (f : Function) : Error :=
  .internal ("redefinition of extern function \"" ++ f.name ++ "\"") f.span f.file

/-- The size in bytes of a built-in type, printed. -/
def primitiveSize? (name : String) : Option String :=
  if name ∈ ["i8", "u8", "bool"] then some "1"
  else if name ∈ ["i16", "u16"] then some "2"
  else if name ∈ ["i32", "u32", "f32"] then some "4"
  else if name ∈ ["i64", "u64", "f64"] then some "8"
  else none

/-- The size that a call of a size helper of a built-in type gives. -/
def calleeSize? (callee : String) : Option String :=
  (Text.dropEnding? ".__size__".toList callee.toList).bind fun name =>
    primitiveSize? (String.ofList name)

/-- What replaces a call of a size helper of a built-in type. -/
def sizeReplacement? : Inst → Option Inst
  | .call name _ dest _ _ _ =>
    (calleeSize? name).map fun size => .binary .add dest (.lit size) (.lit "0") true true "i64"
  | _ => none

/-- What replaces a call that gives the address of its receiver. -/
def ptrReplacement? : Inst → Option Inst
  | .call name returnType dest [(_, receiver)] _ _ => do
    guard (Text.occurs ".__ptr__".toList name.toList)
    let pointee ← Text.dropEnding? ['*'] returnType.toList
    let target ← dest.name?
    let source ← receiver.name?
    some (.slotPtr target source (String.ofList pointee))
  | _ => none

/-- The instruction, or what replaces it. -/
def replaceInst (replacement? : Inst → Option Inst) (inst : Inst) : Inst :=
  (replacement? inst).getD inst

/-- The block with every instruction replaced that has a replacement. -/
def Block.replace (replacement? : Inst → Option Inst) (block : Block) : Block :=
  { block with insts := block.insts.map (replaceInst replacement?) }

/-- The function with every instruction replaced that has a replacement. -/
def Function.replace (replacement? : Inst → Option Inst) (f : Function) : Function :=
  { f with blocks := f.blocks.map (Block.replace replacement?) }

namespace Module

/-- The module with every instruction replaced that has a replacement. -/
def replace (replacement? : Inst → Option Inst) (m : Module) : Module :=
  { m with impls := m.impls.map (Function.replace replacement?) }

/-- The number of instructions that have a replacement. -/
def replaceable (replacement? : Inst → Option Inst) (m : Module) : Nat :=
  (m.impls.flatMap Function.insts).countP fun inst => (replacement? inst).isSome

end Module

namespace Pass

/-- The name of a pass in its report. -/
def name : Pass → String
  | redefinition => "detect redef extern"
  | primitiveSize => "primitive size opt"
  | receiverPtr => "replace struct __ptr__ call"

/-- One pass over a module. -/
def run : Pass → Module → PassResult
  | redefinition, m =>
    { module := m, info := "checked declarations",
      errors := (redeclared [] m.decls).map redefinitionError }
  | primitiveSize, m =>
    { module := m.replace sizeReplacement?,
      info := "replaced " ++ Text.decimal (m.replaceable sizeReplacement?) ++
        " primitive size call(s)" }
  | receiverPtr, m =>
    { module := m.replace ptrReplacement?,
      info := "replaced " ++ Text.decimal (m.replaceable ptrReplacement?) ++ " __ptr__ call(s)" }

/-- Passes in order, up to the first one that reports an error. -/
def runAll : List Pass → Module → Module × List Error
  | [], m => (m, [])
  | pass :: rest, m =>
    let result := pass.run m
    if result.errors.isEmpty then runAll rest result.module else (result.module, result.errors)

/-- The passes that every module goes through. -/
def standard : List Pass := [redefinition, primitiveSize, receiverPtr]

end Pass

end Codegen.Ir
