import Codegen.Proofs.Code
import Codegen.Proofs.Lists

/-!
# What the block steps do

One equation for every block step from a graph with an open block (`_open`) and from a graph
without one (`_closed`), where a step that closes a block first has to invent one.  Everything else
about blocks is proved from these equations.
-/

namespace Codegen.Lowering

open Ir (Inst Value Label Terminator Block)

/-- The test that ends a block, with the way for `holds` filled in. -/
def testing (holds : Bool) (cond : Value) (label : Label) : Terminator :=
  if holds then .branch cond (some label) none else .branch cond none (some label)

/-- The place of the way that a test leaves open. -/
def otherWay (holds : Bool) : TargetSlot := if holds then .onFalse else .onTrue

section Open

variable {g : Graph} {b : OpenBlock} (h : g.current = some b)
include h

theorem append_open (inst : Inst) :
    append inst g = ((), { g with current := some { b with insts := b.insts ++ [inst] } }) := by
  obtain ⟨⟩ := g; cases h; rfl

theorem finishBlock_open (t : Terminator) :
    finishBlock t g =
      (g.blocks.length, { g with blocks := g.blocks ++ [b.close t], current := none }) := by
  obtain ⟨⟩ := g; cases h; rfl

theorem branchOn_open (holds : Bool) (cond : Value) (comment : String) :
    branchOn holds cond comment g =
      (⟨g.blocks.length, otherWay holds⟩,
        { g with
          blocks := g.blocks ++ [b.close (testing holds cond g.nextLabel)]
          current := some { label := g.nextLabel, comment }
          nextLabel := g.nextLabel + 1 }) := by
  obtain ⟨⟩ := g; cases h; rfl

theorem join_open (jumps : List Pending) (comment : String) :
    join jumps comment g =
      (g.nextLabel,
        { g with
          blocks := fillAll g.nextLabel jumps g.blocks ++ [b.close (.goto (some g.nextLabel))]
          current := some { label := g.nextLabel, comment }
          nextLabel := g.nextLabel + 1 }) := by
  obtain ⟨⟩ := g; cases h; rfl

theorem ensureOpen_open (comment : String) : ensureOpen comment g = ((), g) := by
  obtain ⟨⟩ := g; cases h; rfl

theorem endCase_open (exits : List Pending) :
    endCase exits g = (exits ++ [⟨g.blocks.length, .goto⟩],
      { g with blocks := g.blocks ++ [b.close (.goto none)], current := none }) := by
  obtain ⟨⟩ := g; cases h; rfl

theorem closeLast_open (t : Terminator) :
    closeLast t g = ((), { g with blocks := g.blocks ++ [b.close t], current := none }) := by
  obtain ⟨⟩ := g; cases h; rfl

end Open

section Closed

variable {g : Graph} (h : g.current = none)
include h

theorem append_closed (inst : Inst) :
    append inst g = ((),
      { g with
        current := some ⟨g.nextLabel, "unreachable", [inst]⟩
        nextLabel := g.nextLabel + 1 }) := by
  obtain ⟨⟩ := g; cases h; rfl

theorem finishBlock_closed (t : Terminator) :
    finishBlock t g = (g.blocks.length,
      { g with
        blocks := g.blocks ++ [⟨g.nextLabel, "unreachable", [], t⟩]
        nextLabel := g.nextLabel + 1 }) := by
  obtain ⟨⟩ := g; cases h; rfl

theorem branchOn_closed (holds : Bool) (cond : Value) (comment : String) :
    branchOn holds cond comment g =
      (⟨g.blocks.length, otherWay holds⟩,
        { g with
          blocks := g.blocks ++
            [⟨g.nextLabel + 1, "unreachable", [], testing holds cond g.nextLabel⟩]
          current := some { label := g.nextLabel, comment }
          nextLabel := g.nextLabel + 2 }) := by
  obtain ⟨⟩ := g; cases h; rfl

theorem join_closed (jumps : List Pending) (comment : String) :
    join jumps comment g =
      (g.nextLabel,
        { g with
          blocks := fillAll g.nextLabel jumps g.blocks
          current := some { label := g.nextLabel, comment }
          nextLabel := g.nextLabel + 1 }) := by
  obtain ⟨⟩ := g; cases h; rfl

theorem ensureOpen_closed (comment : String) :
    ensureOpen comment g = ((),
      { g with
        current := some { label := g.nextLabel, comment }
        nextLabel := g.nextLabel + 1 }) := by
  obtain ⟨⟩ := g; cases h; rfl

theorem endCase_closed (exits : List Pending) : endCase exits g = (exits, g) := by
  obtain ⟨⟩ := g; cases h; rfl

theorem closeLast_closed (t : Terminator) : closeLast t g = ((), g) := by
  obtain ⟨⟩ := g; cases h; rfl

end Closed

/-! ## What filling in keeps -/

theorem map_fillAll {β : Type} {view : Block → β}
    (hview : ∀ slot label b, view (fill slot label b) = view b) (label : Label)
    (jumps : List Pending) (blocks : List Block) :
    (fillAll label jumps blocks).map view = blocks.map view := by
  induction jumps generalizing blocks with
  | nil => rfl
  | cons p jumps ih =>
    rw [fillAll, ih]
    exact map_modify_of_eq (hview p.slot label) blocks p.block

/-! ## What block steps are composed of -/

/-- A block step composed of basic ones.  All it may change of the instructions is the block that
they stand in. -/
inductive Composed : {α : Type} → Build α → Prop where
  | pure {α : Type} (a : α) : Composed (Pure.pure a : Build α)
  | bind {α β : Type} {x : Build α} {f : α → Build β} (hx : Composed x)
      (hf : ∀ a, Composed (f a)) : Composed (x >>= f)
  | freshLabel : Composed freshLabel
  | isClosed : Composed isClosed
  | finishBlock (t : Terminator) : Composed (finishBlock t)
  | startBlock (label : Label) (comment : String) : Composed (startBlock label comment)
  | patchAll (jumps : List Pending) (label : Label) : Composed (patchAll jumps label)
  | addCase (switch : Nat) (value : Int) (label : Label) : Composed (addCase switch value label)
  | addExit (pending : Pending) : Composed (addExit pending)
  | addBreak (pending : Pending) : Composed (addBreak pending)
  | addContinue (pending : Pending) : Composed (addContinue pending)
  | pushExits : Composed pushExits
  | popExits : Composed popExits
  | pushLoop : Composed pushLoop
  | popLoop : Composed popLoop

namespace Composed

theorem branchOn (holds : Bool) (cond : Value) (comment : String) :
    Composed (branchOn holds cond comment) :=
  freshLabel.bind fun _ => (finishBlock _).bind fun _ => (startBlock _ _).bind fun _ => pure _

theorem join (jumps : List Pending) (comment : String) : Composed (join jumps comment) :=
  freshLabel.bind fun _ => (patchAll _ _).bind fun _ => (startBlock _ _).bind fun _ => pure _

theorem ensureOpen (comment : String) : Composed (ensureOpen comment) :=
  isClosed.bind fun closed => by
    cases closed with
    | true => exact (join _ _).bind fun _ => pure _
    | false => exact pure _

theorem jump (comment : String) : Composed (jump comment) :=
  (finishBlock _).bind fun _ => (join _ _).bind fun _ => pure _

theorem endGuard (isAnd : Bool) (past : Pending) : Composed (endGuard isAnd past) :=
  (join _ _).bind fun _ => pure _

theorem endArm : Composed endArm :=
  (ensureOpen _).bind fun _ => (finishBlock _).bind fun _ => addExit _

theorem elseArm (isLast : Bool) (notTaken : Pending) : Composed (elseArm isLast notTaken) := by
  cases isLast with
  | true => exact addExit _
  | false => exact (join _ _).bind fun _ => pure _

theorem endBranch : Composed endBranch := popExits.bind fun _ => (join _ _).bind fun _ => pure _

theorem beginLoop : Composed beginLoop :=
  (join _ _).bind fun _ => pushLoop.bind fun _ => pure _

theorem beginUpdate : Composed beginUpdate := (ensureOpen _).bind fun _ => join _ _

theorem endLoop (entry next : Label) (out : Pending) : Composed (endLoop entry next out) :=
  (finishBlock _).bind fun _ => popLoop.bind fun _ => (patchAll _ _).bind fun _ =>
    (join _ _).bind fun _ => pure _

theorem leaveLoop (kind : Jump) : Composed kind.leave := by
  cases kind with
  | out => exact (jump _).bind fun _ => addBreak _
  | on => exact (jump _).bind fun _ => addContinue _

theorem beginCase (switch : Nat) (value : Int) : Composed (beginCase switch value) :=
  (join _ _).bind fun _ => addCase _ _ _

theorem endCase (exits : List Pending) : Composed (endCase exits) :=
  isClosed.bind fun closed => by
    cases closed with
    | true => exact pure _
    | false => exact (finishBlock _).bind fun _ => pure _

theorem endSwitch (exits : List Pending) : Composed (endSwitch exits) :=
  (join _ _).bind fun _ => pure _

theorem leave (type : String) (value : Option Value) : Composed (leave type value) :=
  (finishBlock _).bind fun _ => pure _

theorem closeLast (t : Terminator) : Composed (closeLast t) :=
  isClosed.bind fun closed => by
    cases closed with
    | true => exact pure _
    | false => exact (finishBlock _).bind fun _ => pure _

end Composed

/-! ## Instructions -/

/-- The instructions of all blocks, the open one last. -/
def Graph.insts (g : Graph) : List Inst :=
  g.blocks.flatMap Block.insts ++ g.current.toList.flatMap OpenBlock.insts

theorem insts_append (inst : Inst) (g : Graph) : (append inst g).2.insts = g.insts ++ [inst] := by
  obtain ⟨blocks, current, nextLabel, exits, breaks, continues⟩ := g
  cases current with
  | none =>
    change blocks.flatMap Block.insts ++ [inst] = blocks.flatMap Block.insts ++ [] ++ [inst]
    rw [List.append_nil]
  | some block =>
    change blocks.flatMap Block.insts ++ (block.insts ++ [inst] ++ []) =
      blocks.flatMap Block.insts ++ (block.insts ++ []) ++ [inst]
    simp only [List.append_nil, List.append_assoc]

theorem insts_appendAll (insts : List Inst) (g : Graph) :
    (appendAll insts g).2.insts = g.insts ++ insts := by
  induction insts generalizing g with
  | nil => exact (List.append_nil _).symm
  | cons inst rest ih =>
    change (appendAll rest (append inst g).2).2.insts = _
    rw [ih, insts_append, List.append_assoc, List.singleton_append]

end Codegen.Lowering
