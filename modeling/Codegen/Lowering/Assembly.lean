import Codegen.Lowering.Jumps

/-!
# Assembling a body

A walk over a body runs straight-line steps and puts walks over parts of the body together by
control flow.  `Assembler` lists what it can do; how the parts end up in the output is left to the
instance.  `Lower` is the one that builds blocks.
-/

namespace Codegen.Lowering

open Ir (Value)

/-- The walks over an arm of a branch; an arm without a condition has no check.  The check gives
the value that is tested. -/
structure ArmWalk (m : Type → Type) where
  check? : Option (m Value)
  body : m Unit

/-- What a walk over a body can do. -/
class Assembler (m : Type → Type) extends Monad m where
  /-- A straight-line step. -/
  line {α : Type} (step : Line α) : m α
  /-- A walk that runs only when the value is true (`isAnd`), or only when it is false. -/
  guarded (isAnd : Bool) (cond : Value) (right : m Unit) : m Unit
  /-- Arms tried in order. -/
  branching (arms : List (ArmWalk m)) : m Unit
  /-- The first case with the value, or the default. -/
  switching (value : Value) (type : String) (cases : List (Int × m Unit))
    (otherwise : Option (m Unit)) : m Unit
  /-- Body and update as long as the check gives a true value. -/
  looping (check : m Value) (body update : m Unit) : m Unit
  /-- A jump out of the innermost loop or to its next round. -/
  jumping (kind : Jump) (span : Span) : m Unit
  /-- A return. -/
  returning (type : String) (value : Option Value) : m Unit

instance {m : Type → Type} [Assembler m] : MonadLift Line m := ⟨Assembler.line⟩

/-! ## Blocks -/

/-- The state of a walk that builds blocks, with its notes so far. -/
structure State extends Names, Graph where
  notes : Notes := {}
  deriving Inhabited

/-- A step of a walk that builds blocks. -/
abbrev Lower := StateM State

namespace Lower

instance : MonadLift Build Lower :=
  ⟨fun step s => let (a, g) := step s.toGraph; (a, ⟨s.toNames, g, s.notes⟩)⟩

/-- A straight-line step, whose instructions go to the open block. -/
def line {α : Type} (step : Line α) : Lower α := fun s =>
  let stretch := step s.toNames
  (stretch.value, ⟨stretch.names, (appendAll stretch.insts s.toGraph).2, s.notes ++ stretch.notes⟩)

/-- Runs a walk in a block of its own that may be skipped. -/
def guarded (isAnd : Bool) (cond : Value) (right : Lower Unit) : Lower Unit := do
  let past ← beginGuard isAnd cond
  right
  endGuard isAnd past

/-- The arms of a branch. -/
def arms : List (ArmWalk Lower) → Lower Unit
  | [] => pure ()
  | ⟨none, body⟩ :: rest => do
    body
    endArm
    arms rest
  | ⟨some check, body⟩ :: rest => do
    let cond ← check
    let notTaken ← beginArm cond
    body
    endArm
    elseArm rest.isEmpty notTaken
    arms rest

/-- The cases of a switch; gives the jumps behind it. -/
def cases (switch : Nat) (exits : List Pending) : List (Int × Lower Unit) → Lower (List Pending)
  | [] => pure exits
  | (value, body) :: rest => do
    beginCase switch value
    body
    let exits ← endCase exits
    cases switch exits rest

/-- The default of a switch, and what lies behind it. -/
def switchEnd (switch : Nat) (otherwise : Option (Lower Unit)) (exits : List Pending) :
    Lower Unit := do
  let default ← beginDefault switch
  match otherwise with
  | some body => do
    body
    endSwitch (← endCase exits)
  | none => patchAll exits default

/-- A switch, its cases and its default. -/
def switching (value : Value) (type : String) (walks : List (Int × Lower Unit))
    (otherwise : Option (Lower Unit)) : Lower Unit := do
  let switch ← beginSwitch value type
  let exits ← cases switch [] walks
  switchEnd switch otherwise exits

/-- A loop: its check, its body and its update. -/
def looping (check : Lower Value) (body update : Lower Unit) : Lower Unit := do
  let entry ← beginLoop
  let cond ← check
  let out ← beginLoopBody cond
  body
  let next ← beginUpdate
  update
  endLoop entry next out

instance : Assembler Lower where
  line := line
  guarded := guarded
  branching walks := do
    pushExits
    arms walks
    endBranch
  switching := switching
  looping := looping
  jumping kind span := do
    if (kind.waiting (← get).toGraph).isEmpty then line (fault span kind.outside) else kind.leave
  returning type value := leave type value

/-- A jump, or the fault where there is no loop. -/
theorem jumping_run (kind : Jump) (span : Span) (s : State) :
    (Assembler.jumping kind span : Lower Unit) s =
      (if (kind.waiting s.toGraph).isEmpty then line (fault span kind.outside)
        else liftM kind.leave) s := rfl

end Lower

end Codegen.Lowering
