import Codegen.Dict
import Codegen.Ir.Module
import Codegen.Layout
import Codegen.Lowering.Fault
import Codegen.Lowering.Operand
import Codegen.TypeMap

/-!
# Names and straight-line code

A body is turned into blocks by a walk over its tree.  One half of what the walk knows are names
and values: the scopes of the locals, the value stack and the counters of new names.  Most steps of
a walk only change this half, append instructions and note down stack slots and faults; they are
`Line` steps, which can neither open nor close a block.
-/

namespace Codegen.Lowering

open Ir (Inst Slot)

/-- What a walk over a body looks up and never changes. -/
structure Env where
  symbols : SymbolTable
  types : TypeMap
  layouts : LayoutTable
  /-- The parameter lists of the functions that take further arguments. -/
  variadic : Dict String
  /-- The debug record of the function. -/
  record : Option Nat

namespace Env

/-- The printed form of a type. -/
def map (env : Env) (ty : Ty) : String := env.types.map ty

end Env

/-- The names and values of a walk over a body. -/
structure Names where
  /-- String constants of the module. -/
  strings : List String := []
  /-- Debug records of the module. -/
  debugInfo : Ir.DebugInfo := {}
  /-- Names of locals with the names of their slots, the innermost scope and the latest binding
  first. -/
  scopes : List (List (String × String)) := []
  nextTemp : Nat := 0
  nextLocal : Nat := 0
  nextArray : Nat := 0
  /-- The value stack, its top first. -/
  stack : List Operand := []
  deriving Inhabited

/-- What a walk notes down and never looks at again. -/
structure Notes where
  /-- Stack slots of the function. -/
  slots : List Slot := []
  faults : List (Fault × Span) := []
  deriving Inhabited

instance : Append Notes := ⟨fun a b => ⟨a.slots ++ b.slots, a.faults ++ b.faults⟩⟩

/-! ## Straight-line steps -/

/-- What a straight-line step leaves behind: its result, the names, the instructions it appends and
its notes. -/
structure Stretch (α : Type) where
  value : α
  names : Names
  insts : List Inst := []
  notes : Notes := {}

/-- A step of a walk that appends instructions and stays in its block. -/
def Line (α : Type) : Type := Names → Stretch α

instance : Monad Line where
  pure a n := { value := a, names := n }
  bind x f n :=
    let first := x n
    let second := f first.value first.names
    { value := second.value
      names := second.names
      insts := first.insts ++ second.insts
      notes := first.notes ++ second.notes }

instance : MonadStateOf Names Line where
  get n := { value := n, names := n }
  set n _ := { value := (), names := n }
  modifyGet f n := { value := (f n).1, names := (f n).2 }

/-- Appends an instruction. -/
def emit (inst : Inst) : Line Unit := fun n => { value := (), names := n, insts := [inst] }

/-! ## Faults and values -/

/-- Records a fault. -/
def fault (span : Span) (fault : Fault) : Line Unit := fun n =>
  { value := (), names := n, notes := { faults := [(fault, span)] } }

/-- Puts an operand on the value stack. -/
def push (operand : Operand) : Line Unit :=
  modify fun n => { n with stack := operand :: n.stack }

/-- Takes the top of the value stack. -/
def pop (span : Span) : Line Operand := do
  match (← get).stack with
  | operand :: rest =>
    modify fun n => { n with stack := rest }
    pure operand
  | [] =>
    fault span .emptyStack
    pure (.nil .void)

/-- Takes the top of the value stack on, if there is one. -/
def withTop {α : Type} (absent : α) (step : Operand → Line α) : Line α := do
  match (← get).stack with
  | operand :: rest =>
    modify fun n => { n with stack := rest }
    step operand
  | [] => pure absent

/-- The number of values on the stack. -/
def height : Line Nat := do
  return (← get).stack.length

/-- Takes values off the stack until at most `limit` are left. -/
def dropTo (limit : Nat) : Line Unit :=
  modify fun n => { n with stack := n.stack.drop (n.stack.length - limit) }

/-- Makes the stack `size` values high, with stand-ins for missing ones. -/
def resize (size : Nat) : Line Unit := do
  dropTo size
  modify fun n =>
    { n with stack := List.replicate (size - n.stack.length) (.nil .void) ++ n.stack }

/-! ## Names -/

/-- The name of a temporary. -/
def tempName (number : Nat) : String := "_" ++ Text.decimal number

/-- A new temporary. -/
def temp : Line String := do
  let n ← get
  set { n with nextTemp := n.nextTemp + 1 }
  pure (tempName n.nextTemp)

/-- A new slot name for a local. -/
def freshLocal (name : String) : Line String := do
  let n ← get
  set { n with nextLocal := n.nextLocal + 1 }
  pure (name ++ "." ++ Text.decimal n.nextLocal)

/-- The number of a new stack array. -/
def freshArray : Line Nat := do
  let n ← get
  set { n with nextArray := n.nextArray + 1 }
  pure n.nextArray

/-- Adds a stack slot to the function. -/
def addSlot (name type : String) : Line Unit := fun n =>
  { value := (), names := n, notes := { slots := [⟨name, type⟩] } }

/-- Opens a scope. -/
def pushScope : Line Unit :=
  modify fun n => { n with scopes := [] :: n.scopes }

/-- Closes the innermost scope. -/
def popScope : Line Unit :=
  modify fun n => { n with scopes := n.scopes.tail }

/-- Binds a local in the innermost scope. -/
def bindLocal (name slot : String) : Line Unit :=
  modify fun n =>
    { n with
      scopes :=
        match n.scopes with
        | [] => [[(name, slot)]]
        | scope :: rest => ((name, slot) :: scope) :: rest }

/-- The innermost slot bound to a local. -/
def findLocal (name : String) : Line (Option String) := do
  return (← get).scopes.findSome? fun scope => scope.lookup name

/-- The index of a string constant, which is added when it is new. -/
def internString (text : String) : Line Nat := do
  let n ← get
  let (index, strings) := Ir.intern n.strings text
  set { n with strings }
  pure index

/-- A debug record for a place in the function, if the function has a record. -/
def addLocation (env : Env) (span : Span) : Line (Option Nat) := do
  match env.record with
  | some scope =>
    let n ← get
    set { n with debugInfo := n.debugInfo.add (.location span.line span.column scope) }
    pure (some n.debugInfo.next)
  | none => pure none

end Codegen.Lowering
