import Codegen.Ir.Flow
import Codegen.Lowering.Tree

/-!
# Functions

A function spills its parameters into stack slots, walks its body and loses the blocks that
nothing reaches.
-/

namespace Codegen.Lowering

open Ir (Terminator)

/-- The head of a function, without a body. -/
def declaration (types : TypeMap) (f : Func) : Ir.Function where
  name := f.name
  params := f.params.map fun param => (param.1 ++ ".param", types.map param.2)
  returnType := types.map f.returnType
  attributes := f.attributes
  isVariadic := f.isVariadic
  span := f.span
  file := f.file

/-- Stores every parameter in a slot of its own and binds its name to the slot. -/
def lowerParams (env : Env) : List (String × Ty) → Line Unit
  | [] => pure ()
  | (name, type) :: rest => do
    addSlot (name ++ ".slot") (env.map type)
    emit (.store (env.map type) (.var (name ++ ".param")) (.var (name ++ ".slot")))
    bindLocal name (name ++ ".slot")
    lowerParams env rest

/-- How a body ends that does not return. -/
def fallback (f : Func) : Terminator :=
  if f.returnType.isVoid then .retVoid else .unreachable

/-- Parameters and body of a function. -/
def walkFunction {m : Type → Type} [Assembler m] (env : Env) (f : Func) : m Unit := do
  pushScope
  lowerParams env f.params
  match f.body with
  | some body => lowerNode env body
  | none => fault f.span (.noBody f.name)

/-- The blocks of a function. -/
def lowerBody (env : Env) (f : Func) : Lower Unit := do
  walkFunction env f
  closeLast (fallback f)

/-- What the walk over a function gives: the function, the string constants and debug records of
the module behind it, and what is wrong with it. -/
structure Lowered where
  function : Ir.Function
  strings : List String
  debugInfo : Ir.DebugInfo
  errors : List Error

/-- The final state of the walk over a function. -/
def finalState (env : Env) (f : Func) (strings : List String) (debugInfo : Ir.DebugInfo) : State :=
  ((lowerBody env f).run { strings, debugInfo }).2

/-- A function before the blocks that nothing reaches are removed. -/
def unpruned (env : Env) (f : Func) (s : State) : Ir.Function :=
  { declaration env.types f with slots := s.notes.slots, blocks := s.blocks, record := env.record }

/-- A function of a module with the given string constants and debug records. -/
def lowerFunction (env : Env) (f : Func) (strings : List String) (debugInfo : Ir.DebugInfo) :
    Lowered :=
  let s := finalState env f strings debugInfo
  { function := (unpruned env f s).prune
    strings := s.strings
    debugInfo := s.debugInfo
    errors := s.notes.faults.map fun (fault, span) => fault.toError span f.file }

end Codegen.Lowering
