import Codegen.Lowering.Blocks

/-!
# Branches, loops and switches as blocks

The block steps that lie between the parts of a construct of structured control flow.  Every label
is opened right after it is drawn, so a missing target waits for a construct to end and for
nothing else.
-/

namespace Codegen.Lowering

open Ir (Value Label Terminator)

/-- Ends a block by a test and opens the block for when the condition is `holds`; gives the other
jump. -/
def branchOn (holds : Bool) (cond : Value) (comment : String) : Build Pending := do
  let label ← freshLabel
  let check ← finishBlock <|
    if holds then .branch cond (some label) none else .branch cond none (some label)
  startBlock label comment
  pure ⟨check, if holds then .onFalse else .onTrue⟩

/-- Opens a block where jumps come together; an open block falls through into it. -/
def join (jumps : List Pending) (comment : String) : Build Label := do
  let label ← freshLabel
  patchAll jumps label
  startBlock label comment
  pure label

/-- Opens a block when the last one is closed. -/
def ensureOpen (comment : String) : Build Unit := do
  if ← isClosed then
    let _ ← join [] comment

/-- Leaves a jump open and starts a block that nothing jumps to. -/
def jump (comment : String) : Build Pending := do
  let position ← finishBlock (.goto none)
  let _ ← join [] comment
  pure ⟨position, .goto⟩

/-! ## Instructions -/

/-- Appends to the open block.  Behind a terminator that is a new block that nothing jumps to. -/
def append (inst : Ir.Inst) : Build Unit := do
  ensureOpen "unreachable"
  modify fun g =>
    { g with current := g.current.map fun block => { block with insts := block.insts ++ [inst] } }

/-- Appends instructions in order. -/
def appendAll : List Ir.Inst → Build Unit
  | [] => pure ()
  | inst :: rest => do
    append inst
    appendAll rest

/-! ## Conjunction and disjunction -/

/-- Branches to the block of the right operand; gives the jump past it. -/
def beginGuard (isAnd : Bool) (cond : Value) : Build Pending :=
  branchOn isAnd cond (if isAnd then "and.true" else "or.false")

/-- Joins the ways with and without the right operand. -/
def endGuard (isAnd : Bool) (past : Pending) : Build Unit := do
  let _ ← join [past] (if isAnd then "and.end" else "or.end")

/-! ## Branches -/

/-- Branches on the condition of an arm and opens its body; gives the jump past it. -/
def beginArm (cond : Value) : Build Pending := branchOn true cond "cond.true"

/-- Ends the body of an arm with a jump behind the branch. -/
def endArm : Build Unit := do
  ensureOpen "block.end.ret"
  let exit ← finishBlock (.goto none)
  addExit ⟨exit, .goto⟩

/-- Leads the jump of a condition that does not hold: behind the branch when the arm is the last
one, otherwise to the next arm. -/
def elseArm (isLast : Bool) (notTaken : Pending) : Build Unit := do
  if isLast then
    addExit notTaken
  else
    let _ ← join [notTaken] "cond.false"

/-- Joins the ways through a branch. -/
def endBranch : Build Unit := do
  let _ ← join (← popExits) "branch.end"

/-! ## Loops -/

/-- Opens the block that checks the condition of a loop. -/
def beginLoop : Build Label := do
  let entry ← join [] "loop.entry"
  pushLoop
  pure entry

/-- Branches on the condition of a loop and opens its body; gives the jump out of the loop. -/
def beginLoopBody (cond : Value) : Build Pending := branchOn true cond "loop.body"

/-- Ends the body of a loop and opens the block of its update. -/
def beginUpdate : Build Label := do
  ensureOpen "loop.ret.end"
  join [] "loop.continue"

/-- Ends a loop: jumps back to its check and fills in the jumps out of it and to its update. -/
def endLoop (entry next : Label) (out : Pending) : Build Unit := do
  let _ ← finishBlock (.goto (some entry))
  let (breaks, continues) ← popLoop
  patchAll continues next
  let _ ← join (out :: breaks) "loop.exit"

/-- A jump behind the innermost loop; what follows it starts a block of its own. -/
def jumpOut : Build Unit := do
  addBreak (← jump "break.end")

/-- A jump to the next round of the innermost loop; what follows it starts a block of its own. -/
def jumpOn : Build Unit := do
  addContinue (← jump "continue.end")

/-- Where a jump inside of a loop goes: behind the loop, or on to its next round. -/
inductive Jump where
  | out
  | on
  deriving DecidableEq

namespace Jump

/-- The jumps of a kind that wait, those of the innermost loop first. -/
def waiting : Jump → Graph → List (List Pending)
  | out => Graph.breaks
  | on => Graph.continues

/-- Jumps from where the last block ends. -/
def leave : Jump → Build Unit
  | out => jumpOut
  | on => jumpOn

/-- What is wrong with a jump where there is no loop. -/
def outside : Jump → Fault
  | out => .breakOutside
  | on => .continueOutside

end Jump

/-! ## Switches -/

/-- Ends a block by a switch that has no cases yet; gives its position. -/
def beginSwitch (value : Value) (type : String) : Build Nat :=
  finishBlock (.switch value type [] none)

/-- Opens the block of a case and adds the case to the switch. -/
def beginCase (switch : Nat) (value : Int) : Build Unit := do
  let label ← join [] ("switch.case " ++ Text.signed value)
  addCase switch value label

/-- Ends a case or the default of a switch; gives the jump behind the switch, if control gets
there. -/
def endCase (exits : List Pending) : Build (List Pending) := do
  if ← isClosed then
    pure exits
  else
    let exit ← finishBlock (.goto none)
    pure (exits ++ [⟨exit, .goto⟩])

/-- Opens the default of a switch. -/
def beginDefault (switch : Nat) : Build Label := join [⟨switch, .otherwise⟩] "switch.default"

/-- Joins the ways through a switch that has a default. -/
def endSwitch (exits : List Pending) : Build Unit := do
  let _ ← join exits "switch.end"

/-! ## Ends -/

/-- Leaves the function. -/
def leave (type : String) (value : Option Value) : Build Unit := do
  let _ ← finishBlock (.ret type value)

/-- Closes the last block if it is still open. -/
def closeLast (terminator : Terminator) : Build Unit := do
  if !(← isClosed) then
    let _ ← finishBlock terminator

end Codegen.Lowering
