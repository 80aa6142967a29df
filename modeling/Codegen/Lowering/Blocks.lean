import Codegen.Lowering.Names

/-!
# Blocks in progress

The other half of what a walk over a body knows are its blocks.  Blocks are built one at a time.  A
jump to a block that does not exist yet leaves its target open and is remembered by its place; the
target is filled in when the block is opened.
-/

namespace Codegen.Lowering

open Ir (Label Value Inst Terminator Block)

/-- The place of a target in the terminator of a block. -/
inductive TargetSlot where
  | goto
  | onTrue
  | onFalse
  | otherwise
  deriving DecidableEq, Inhabited

/-- A target that is still missing: its place in the terminator of a finished block. -/
structure Pending where
  /-- Position among the finished blocks. -/
  block : Nat
  slot : TargetSlot
  deriving DecidableEq, Inhabited

/-- A block without its terminator. -/
structure OpenBlock where
  label : Label
  comment : String := ""
  insts : List Inst := []
  deriving Inhabited

/-- The blocks of a walk over a body. -/
structure Graph where
  /-- Finished blocks in order. -/
  blocks : List Block := []
  /-- The block in progress; there is none behind a terminator. -/
  current : Option OpenBlock := some { label := Ir.entryLabel }
  nextLabel : Label := 1
  /-- Jumps behind the enclosing branches, the innermost branch first. -/
  exits : List (List Pending) := []
  /-- Jumps out of the enclosing loops, the innermost loop first. -/
  breaks : List (List Pending) := []
  /-- Jumps to the next round of the enclosing loops, the innermost loop first. -/
  continues : List (List Pending) := []
  deriving Inhabited

/-- A step of a walk that works on its blocks. -/
abbrev Build := StateM Graph

/-! ## Opening and closing blocks -/

/-- A new label. -/
def freshLabel : Build Label := do
  let g ← get
  set { g with nextLabel := g.nextLabel + 1 }
  pure g.nextLabel

/-- Whether the last block is closed and no new one is open. -/
def isClosed : Build Bool := do
  return (← get).current.isNone

/-- The block with its terminator. -/
def OpenBlock.close (block : OpenBlock) (terminator : Terminator) : Block :=
  ⟨block.label, block.comment, block.insts, terminator⟩

/-- The open block, or a new one that nothing jumps to. -/
def Graph.takeOpen (g : Graph) : OpenBlock × Graph :=
  match g.current with
  | some block => (block, { g with current := none })
  | none => ({ label := g.nextLabel, comment := "unreachable" },
      { g with nextLabel := g.nextLabel + 1 })

/-- Closes the open block and gives its position.  Without an open block, the terminator closes a
new one that nothing jumps to. -/
def finishBlock (terminator : Terminator) : Build Nat := do
  let (block, g) := (← get).takeOpen
  set { g with blocks := g.blocks ++ [block.close terminator] }
  pure g.blocks.length

/-- Opens a block; an open one falls through into it. -/
def startBlock (label : Label) (comment : String) : Build Unit := do
  if (← get).current.isSome then
    let _ ← finishBlock (.goto (some label))
  modify fun g => { g with current := some { label, comment } }

/-! ## Filling in targets -/

/-- A terminator with a target filled in. -/
def fillTarget (slot : TargetSlot) (label : Label) : Terminator → Terminator
  | .goto target => if slot = .goto then .goto (some label) else .goto target
  | .branch cond onTrue onFalse =>
    .branch cond (if slot = .onTrue then some label else onTrue)
      (if slot = .onFalse then some label else onFalse)
  | .switch value type cases otherwise =>
    .switch value type cases (if slot = .otherwise then some label else otherwise)
  | terminator => terminator

/-- A block with a target filled in. -/
def fill (slot : TargetSlot) (label : Label) (block : Block) : Block :=
  { block with terminator := fillTarget slot label block.terminator }

/-- Finished blocks with missing targets filled in. -/
def fillAll (label : Label) : List Pending → List Block → List Block
  | [], blocks => blocks
  | pending :: rest, blocks =>
    fillAll label rest (blocks.modify pending.block (fill pending.slot label))

/-- Fills in missing targets. -/
def patchAll (jumps : List Pending) (label : Label) : Build Unit :=
  modify fun g => { g with blocks := fillAll label jumps g.blocks }

/-- A terminator with one more case. -/
def appendCase (value : Int) (label : Label) : Terminator → Terminator
  | .switch operand type cases otherwise =>
    .switch operand type (cases ++ [(value, label)]) otherwise
  | terminator => terminator

/-- A block with one more case. -/
def withCase (value : Int) (label : Label) (block : Block) : Block :=
  { block with terminator := appendCase value label block.terminator }

/-- Adds a case to a finished switch. -/
def addCase (switch : Nat) (value : Int) (label : Label) : Build Unit :=
  modify fun g => { g with blocks := g.blocks.modify switch (withCase value label) }

/-! ## Jumps of enclosing branches and loops -/

/-- Adds a jump to the innermost of several lists. -/
def appendInnermost (pending : Pending) : List (List Pending) → List (List Pending)
  | [] => []
  | jumps :: rest => (jumps ++ [pending]) :: rest

/-- Remembers a jump behind the innermost branch. -/
def addExit (pending : Pending) : Build Unit :=
  modify fun g => { g with exits := appendInnermost pending g.exits }

/-- Remembers a jump out of the innermost loop. -/
def addBreak (pending : Pending) : Build Unit :=
  modify fun g => { g with breaks := appendInnermost pending g.breaks }

/-- Remembers a jump to the next round of the innermost loop. -/
def addContinue (pending : Pending) : Build Unit :=
  modify fun g => { g with continues := appendInnermost pending g.continues }

/-- Starts the jump list of a branch. -/
def pushExits : Build Unit := modify fun g => { g with exits := [] :: g.exits }

/-- The jumps behind the innermost branch, which ends. -/
def popExits : Build (List Pending) := do
  let g ← get
  set { g with exits := g.exits.tail }
  pure (g.exits.headD [])

/-- Starts the jump lists of a loop. -/
def pushLoop : Build Unit :=
  modify fun g => { g with breaks := [] :: g.breaks, continues := [] :: g.continues }

/-- The jumps out of the innermost loop and to its next round; the loop ends. -/
def popLoop : Build (List Pending × List Pending) := do
  let g ← get
  set { g with breaks := g.breaks.tail, continues := g.continues.tail }
  pure (g.breaks.headD [], g.continues.headD [])

end Codegen.Lowering
