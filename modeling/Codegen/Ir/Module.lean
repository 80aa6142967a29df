import Codegen.Ir.Basic
import Codegen.Ir.Record

/-!
# Modules

A module collects type declarations, string constants, functions and debug records.  A string
constant is stored once; its index is its position.
-/

namespace Codegen.Ir

/-- A module. -/
structure Module where
  targetTriple : String := ""
  unions : List TypeDecl := []
  structs : List TypeDecl := []
  /-- String constants in the order of their first use. -/
  strings : List String := []
  decls : List Function := []
  impls : List Function := []
  debugInfo : DebugInfo := {}
  deriving DecidableEq, Inhabited

/-- The index of a string constant and the constants with it among them. -/
def intern (strings : List String) (text : String) : Nat × List String :=
  match strings.idxOf? text with
  | some index => (index, strings)
  | none => (strings.length, strings ++ [text])

namespace Module

/-- The implemented function called `name`. -/
def findImpl (m : Module) (name : String) : Option Function :=
  m.impls.find? fun f => f.name = name

/-- Whether a function called `name` is declared or implemented. -/
def declares (m : Module) (name : String) : Bool :=
  (m.decls ++ m.impls).any fun f => f.name = name

end Module

end Codegen.Ir
