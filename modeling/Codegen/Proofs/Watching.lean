import Codegen.Proofs.Placement
import Codegen.Proofs.Watched

/-!
# Watching blocks while jumps wait

A jump out of a loop or to its next round is written before the block it leads to exists.  It waits
in a list of the loop around it, through all walks that follow, and gets its target when that loop
ends.  `Watching` says what holds of the blocks in the meantime: a jump in the log still waits, no
waiting jump is an end of a loop that is done, and the loops that are done are bound, which means
that their jumps lead where they should.
-/

namespace Codegen.Lowering

open Ir (Inst Value Label Terminator Block)

/-! ## Beginnings and ends of blocks -/

/-- How a block begins. -/
def headOf (b : Block) : Label × String := (b.label, b.comment)

@[simp]
theorem headOf_close (b : OpenBlock) (t : Terminator) : headOf (b.close t) = (b.label, b.comment) :=
  rfl

/-- How the blocks of a graph begin, with the block in progress. -/
def Graph.heads (g : Graph) : List (Label × String) :=
  g.blocks.map headOf ++ g.current.toList.map fun b => (b.label, b.comment)

/-- How the block at a position ends. -/
def endingAt (blocks : List Block) (p : Nat) : Option Terminator := blocks[p]?.map Block.terminator

theorem endingAt_modify (blocks : List Block) (i p : Nat) (f : Block → Block) :
    endingAt (blocks.modify i f) p =
      blocks[p]?.map fun b => (if i = p then f b else b).terminator := by
  rw [endingAt, List.getElem?_modify, Option.map_eq_map, Option.map_map]
  rfl

theorem lt_of_endingAt {blocks : List Block} {p : Nat} {t : Terminator}
    (h : endingAt blocks p = some t) : p < blocks.length := by
  obtain ⟨b, hb, -⟩ := Option.map_eq_some_iff.1 h
  exact (List.getElem?_eq_some_iff.1 hb).1

theorem endingAt_of_isPrefix {blocks blocks' : List Block} (h : blocks <+: blocks') {p : Nat}
    (hp : p < blocks.length) : endingAt blocks' p = endingAt blocks p := by
  obtain ⟨more, rfl⟩ := h
  rw [endingAt, List.getElem?_append_left hp, endingAt]

theorem map_headOf_fillAll (label : Label) (jumps : List Pending) (blocks : List Block) :
    (fillAll label jumps blocks).map headOf = blocks.map headOf :=
  map_fillAll (fun _ _ _ => rfl) label jumps blocks

/-- A block without a missing target stays as it is. -/
theorem getElem?_fillAll {label : Label} {jumps : List Pending} {blocks : List Block} {p : Nat}
    (h : ∀ j ∈ jumps, j.block ≠ p) : (fillAll label jumps blocks)[p]? = blocks[p]? := by
  induction jumps generalizing blocks with
  | nil => rfl
  | cons j jumps ih =>
    obtain ⟨hj, hjumps⟩ := List.forall_mem_cons.1 h
    rw [fillAll, ih hjumps, List.getElem?_modify]
    simp only [if_neg hj, id_map']

/-- A jump with its target keeps it. -/
theorem endingAt_fillAll_of_filled {label : Label} {jumps : List Pending} {blocks : List Block}
    {p : Nat} (h : endingAt blocks p = some (.goto (some label))) :
    endingAt (fillAll label jumps blocks) p = some (.goto (some label)) := by
  induction jumps generalizing blocks with
  | nil => exact h
  | cons j jumps ih =>
    refine ih ?_
    obtain ⟨b, hb, ht⟩ := Option.map_eq_some_iff.1 h
    rw [endingAt_modify, hb, Option.map_some]
    split <;> simp [fill, fillTarget, ht]

/-- A jump among those with a missing target gets it. -/
theorem endingAt_fillAll_of_mem {label : Label} {jumps : List Pending} {blocks : List Block}
    {p : Nat} {t : Option Label} (hp : ⟨p, .goto⟩ ∈ jumps)
    (h : endingAt blocks p = some (.goto t)) :
    endingAt (fillAll label jumps blocks) p = some (.goto (some label)) := by
  induction jumps generalizing blocks t with
  | nil => cases hp
  | cons j jumps ih =>
    obtain ⟨b, hb, ht⟩ := Option.map_eq_some_iff.1 h
    rcases List.mem_cons.1 hp with rfl | hp
    · rw [fillAll]
      refine endingAt_fillAll_of_filled ?_
      rw [endingAt_modify, hb, Option.map_some, if_pos rfl, fill, ht]
      rfl
    · refine ih (t := if j.block = p ∧ j.slot = .goto then some label else t) hp ?_
      rw [endingAt_modify, hb, Option.map_some]
      by_cases hj : j.block = p <;> by_cases hs : j.slot = .goto <;>
        simp [hj, hs, fill, fillTarget, ht]

/-! ## Growing graphs -/

/-- Blocks come behind the others, and no list of jumps changes. -/
structure Graph.Adds (g g' : Graph) : Prop where
  blocks : g.blocks <+: g'.blocks
  heads : g.heads <+: g'.heads
  exits : g'.exits = g.exits
  breaks : g'.breaks = g.breaks
  continues : g'.continues = g.continues

namespace Graph.Adds

variable {g g' g'' : Graph}

theorem refl (g : Graph) : g.Adds g :=
  ⟨List.prefix_rfl, List.prefix_rfl, rfl, rfl, rfl⟩

theorem trans (h : g.Adds g') (h' : g'.Adds g'') : g.Adds g'' :=
  ⟨h.blocks.trans h'.blocks, h.heads.trans h'.heads, h'.exits.trans h.exits,
    h'.breaks.trans h.breaks, h'.continues.trans h.continues⟩

theorem finishBlock (t : Terminator) (g : Graph) : g.Adds (finishBlock t g).2 := by
  cases hc : g.current with
  | none =>
    rw [finishBlock_closed hc]
    exact ⟨List.prefix_append _ _, by simp [Graph.heads, hc], rfl, rfl, rfl⟩
  | some b =>
    rw [finishBlock_open hc]
    exact ⟨List.prefix_append _ _, by simp [Graph.heads, hc], rfl, rfl, rfl⟩

theorem branchOn (holds : Bool) (cond : Value) (comment : String) (g : Graph) :
    g.Adds (branchOn holds cond comment g).2 := by
  cases hc : g.current with
  | none =>
    rw [branchOn_closed hc]
    exact ⟨List.prefix_append _ _, by simp [Graph.heads, hc], rfl, rfl, rfl⟩
  | some b =>
    rw [branchOn_open hc]
    exact ⟨List.prefix_append _ _, by simp [Graph.heads, hc], rfl, rfl, rfl⟩

/-- Where jumps come together, their targets are filled in first. -/
theorem join (jumps : List Pending) (comment : String) (g : Graph) :
    { g with blocks := fillAll g.nextLabel jumps g.blocks }.Adds (join jumps comment g).2 := by
  cases hc : g.current with
  | none =>
    rw [join_closed hc]
    exact ⟨List.prefix_rfl, by simp [Graph.heads], rfl, rfl, rfl⟩
  | some b =>
    rw [join_open hc]
    exact ⟨List.prefix_append _ _, by simp [Graph.heads], rfl, rfl, rfl⟩

theorem ensureOpen (comment : String) (g : Graph) : g.Adds (ensureOpen comment g).2 := by
  cases hc : g.current with
  | none =>
    rw [ensureOpen_closed hc]
    exact ⟨List.prefix_rfl, by simp [Graph.heads, hc], rfl, rfl, rfl⟩
  | some b =>
    rw [ensureOpen_open hc]
    exact .refl g

theorem append (inst : Inst) (g : Graph) : g.Adds (append inst g).2 := by
  cases hc : g.current with
  | none =>
    rw [append_closed hc]
    exact ⟨List.prefix_rfl, by simp [Graph.heads, hc], rfl, rfl, rfl⟩
  | some b =>
    rw [append_open hc]
    exact ⟨List.prefix_rfl, by simp [Graph.heads, hc], rfl, rfl, rfl⟩

theorem appendAll (insts : List Inst) (g : Graph) : g.Adds (appendAll insts g).2 := by
  induction insts generalizing g with
  | nil => exact .refl g
  | cons inst insts ih => exact (append inst g).trans (ih _)

theorem closeLast (t : Terminator) (g : Graph) : g.Adds (closeLast t g).2 := by
  cases hc : g.current with
  | none =>
    rw [closeLast_closed hc]
    exact .refl g
  | some b =>
    rw [closeLast_open hc]
    exact ⟨List.prefix_append _ _, by simp [Graph.heads, hc], rfl, rfl, rfl⟩

end Graph.Adds

/-- The block in progress begins with its label and its comment. -/
theorem Graph.heads_current {g : Graph} {b : OpenBlock} (h : g.current = some b) :
    g.heads[g.blocks.length]? = some (b.label, b.comment) := by
  simp [heads, h]

theorem finishBlock_fst (t : Terminator) (g : Graph) : (finishBlock t g).1 = g.blocks.length := by
  cases hc : g.current with
  | none => rw [finishBlock_closed hc]
  | some b => rw [finishBlock_open hc]

theorem finishBlock_current (t : Terminator) (g : Graph) : (finishBlock t g).2.current = none := by
  cases hc : g.current with
  | none => rw [finishBlock_closed hc, hc]
  | some b => rw [finishBlock_open hc]

/-- The block that is finished ends with the terminator. -/
theorem finishBlock_blocks (t : Terminator) (g : Graph) :
    (finishBlock t g).2.blocks.length = g.blocks.length + 1 ∧
      endingAt (finishBlock t g).2.blocks g.blocks.length = some t := by
  cases hc : g.current with
  | none =>
    rw [finishBlock_closed hc]
    simp [endingAt]
  | some b =>
    rw [finishBlock_open hc]
    simp [endingAt, OpenBlock.close]

theorem join_current (jumps : List Pending) (comment : String) (g : Graph) :
    (join jumps comment g).2.current = some { label := (join jumps comment g).1, comment } := by
  cases hc : g.current with
  | none => rw [join_closed hc]
  | some b => rw [join_open hc]

/-- A test that leaves its second way open ends a block, and the first way begins with a new one. -/
theorem branchOn_true (cond : Value) (comment : String) (g : Graph) :
    (branchOn true cond comment g).1 = ⟨g.blocks.length, .onFalse⟩ ∧
      (branchOn true cond comment g).2.heads[g.blocks.length + 1]? =
        some (g.nextLabel, comment) ∧
      endingAt (branchOn true cond comment g).2.blocks g.blocks.length =
        some (.branch cond (some g.nextLabel) none) := by
  cases hc : g.current with
  | none =>
    rw [branchOn_closed hc]
    simp [endingAt, testing, otherWay, Graph.heads]
  | some b =>
    rw [branchOn_open hc]
    simp [endingAt, testing, otherWay, Graph.heads, OpenBlock.close]

/-! ## Loops whose jumps lead where they should -/

/-- The blocks whose ends belong to a loop. -/
def LoopTrace.ends (loop : LoopTrace) : List Nat :=
  loop.check :: loop.latch :: (loop.breaks ++ loop.continues)

/-- The parts of a loop begin with the given labels.  The test leads to the body or out of the loop,
the end of the update leads to the check, and the jumps of the loop lead where their names say. -/
structure LoopTrace.Binds (loop : LoopTrace) (g : Graph) (entry body next exit : Label) :
    Prop where
  entered : g.heads[loop.entry]? = some (entry, "loop.entry")
  taken : g.heads[loop.check + 1]? = some (body, "loop.body")
  updated : g.heads[loop.next]? = some (next, "loop.continue")
  left : g.heads[loop.latch + 1]? = some (exit, "loop.exit")
  tested : ∃ cond, endingAt g.blocks loop.check = some (.branch cond (some body) (some exit))
  repeated : endingAt g.blocks loop.latch = some (.goto (some entry))
  breaks : ∀ p ∈ loop.breaks, endingAt g.blocks p = some (.goto (some exit))
  continues : ∀ p ∈ loop.continues, endingAt g.blocks p = some (.goto (some next))

/-- All jumps of a loop lead where they should. -/
def LoopTrace.Bound (loop : LoopTrace) (g : Graph) : Prop :=
  ∃ entry body next exit, loop.Binds g entry body next exit

/-- The parts of a loop begin with the given labels, but the jumps out of the loop and to its next
round still wait. -/
structure LoopTrace.Waits (loop : LoopTrace) (g : Graph) (entry body next : Label) : Prop where
  entered : g.heads[loop.entry]? = some (entry, "loop.entry")
  taken : g.heads[loop.check + 1]? = some (body, "loop.body")
  updated : g.heads[loop.next]? = some (next, "loop.continue")
  tested : ∃ cond, endingAt g.blocks loop.check = some (.branch cond (some body) none)
  repeated : endingAt g.blocks loop.latch = some (.goto (some entry))
  ended : loop.latch + 1 = g.blocks.length

/-- A loop stays bound while its blocks keep their beginnings and ends. -/
theorem LoopTrace.Bound.keep {loop : LoopTrace} {g g' : Graph} (h : loop.Bound g)
    (heads : g.heads <+: g'.heads)
    (ends : ∀ p ∈ loop.ends, endingAt g'.blocks p = endingAt g.blocks p) : loop.Bound g' := by
  obtain ⟨entry, body, next, exit, h⟩ := h
  have kept {p : Nat} (hp : p ∈ loop.breaks ++ loop.continues) :
      endingAt g'.blocks p = endingAt g.blocks p :=
    ends p (List.mem_cons_of_mem _ (List.mem_cons_of_mem _ hp))
  obtain ⟨cond, tested⟩ := h.tested
  refine ⟨entry, body, next, exit, ?_⟩
  constructor
  case entered => exact getElem?_of_isPrefix heads h.entered
  case taken => exact getElem?_of_isPrefix heads h.taken
  case updated => exact getElem?_of_isPrefix heads h.updated
  case left => exact getElem?_of_isPrefix heads h.left
  case tested => exact ⟨cond, (ends _ List.mem_cons_self).trans tested⟩
  case repeated =>
    exact (ends _ (List.mem_cons_of_mem _ List.mem_cons_self)).trans h.repeated
  case breaks => exact fun p hp => (kept (List.mem_append_left _ hp)).trans (h.breaks p hp)
  case continues => exact fun p hp => (kept (List.mem_append_right _ hp)).trans (h.continues p hp)

/-- No target is missing where a bound loop ends a block. -/
theorem LoopTrace.Bound.ne_goto_none {loop : LoopTrace} {g : Graph} (h : loop.Bound g) {p : Nat}
    (hp : p ∈ loop.ends) : endingAt g.blocks p ≠ some (.goto none) := by
  obtain ⟨entry, body, next, exit, h⟩ := h
  obtain ⟨cond, tested⟩ := h.tested
  simp only [LoopTrace.ends, List.mem_cons, List.mem_append] at hp
  rcases hp with rfl | rfl | hp | hp
  · simp [tested]
  · simp [h.repeated]
  · simp [h.breaks p hp]
  · simp [h.continues p hp]

/-! ## Watching blocks -/

/-- The blocks whose ends the log speaks of. -/
def Log.ends (log : Log) : List Nat :=
  log.breaks ++ log.continues ++ log.loops.flatMap LoopTrace.ends

theorem Log.mem_ends {log : Log} {p : Nat} : p ∈ log.ends ↔
    p ∈ log.breaks ∨ p ∈ log.continues ∨ ∃ loop ∈ log.loops, p ∈ loop.ends := by
  simp [Log.ends]

theorem Log.mem_ends_append {a b : Log} {p : Nat} :
    p ∈ (a ++ b).ends ↔ p ∈ a.ends ∨ p ∈ b.ends := by
  simp only [Log.mem_ends, Log.breaks_append, Log.continues_append, Log.loops_append,
    List.mem_append]
  grind

/-- From `base` on, blocks have come behind the others, with the log and with further jumps that
wait for a construct in progress. -/
structure Watching (base g : Graph) (log : Log) (waiting : List Pending) : Prop where
  blocks : base.blocks <+: g.blocks
  heads : base.heads <+: g.heads
  inside : ∀ p ∈ log.ends, base.blocks.length ≤ p ∧ p < g.blocks.length
  breaks : ∀ p ∈ log.breaks, endingAt g.blocks p = some (.goto none)
  continues : ∀ p ∈ log.continues, endingAt g.blocks p = some (.goto none)
  apart : ∀ p ∈ log.breaks, p ∉ log.continues
  bound : ∀ loop ∈ log.loops, loop.Bound g
  waiting : ∀ j ∈ waiting,
    base.blocks.length ≤ j.block ∧ j.block < g.blocks.length ∧ j.block ∉ log.ends

namespace Watching

variable {base g g' : Graph} {log more : Log} {waiting : List Pending}

theorem refl (g : Graph) : Watching g g {} [] where
  blocks := List.prefix_rfl
  heads := List.prefix_rfl
  inside := by simp [Log.ends]
  breaks := by simp
  continues := by simp
  apart := by simp
  bound := by simp
  waiting := by simp

theorem length_le (h : Watching base g log waiting) : base.blocks.length ≤ g.blocks.length :=
  h.blocks.length_le

theorem fewer (h : Watching base g log waiting) {fewer : List Pending}
    (hf : ∀ j ∈ fewer, j ∈ waiting) : Watching base g log fewer :=
  { h with waiting := fun j hj => h.waiting j (hf j hj) }

/-- Blocks are watched from an earlier graph on. -/
theorem rebase (h : Watching base g log waiting) {first : Graph}
    (blocks : first.blocks <+: base.blocks) (heads : first.heads <+: base.heads) :
    Watching first g log waiting :=
  { h with
    blocks := blocks.trans h.blocks
    heads := heads.trans h.heads
    inside := fun p hp => (h.inside p hp).imp_left blocks.length_le.trans
    waiting := fun j hj => (h.waiting j hj).imp_left blocks.length_le.trans }

/-- The log speaks only of the ends of its blocks and of the beginnings of all, so it fits any graph
that keeps these. -/
theorem carry (h : Watching base g log waiting) (blocks : base.blocks <+: g'.blocks)
    (heads : g.heads <+: g'.heads) (length : g.blocks.length ≤ g'.blocks.length)
    (kept : ∀ p ∈ log.ends, endingAt g'.blocks p = endingAt g.blocks p) :
    Watching base g' log waiting where
  blocks := blocks
  heads := h.heads.trans heads
  inside p hp := (h.inside p hp).imp_right (·.trans_le length)
  breaks p hp := (kept p (Log.mem_ends.2 (.inl hp))).trans (h.breaks p hp)
  continues p hp := (kept p (Log.mem_ends.2 (.inr (.inl hp)))).trans (h.continues p hp)
  apart := h.apart
  bound loop hl := (h.bound loop hl).keep heads fun p hp =>
    kept p (Log.mem_ends.2 (.inr (.inr ⟨loop, hl, hp⟩)))
  waiting j hj := (h.waiting j hj).imp_right fun hj => hj.imp_left (·.trans_le length)

/-- New blocks come behind the others. -/
theorem grow (h : Watching base g log waiting) (blocks : g.blocks <+: g'.blocks)
    (heads : g.heads <+: g'.heads) : Watching base g' log waiting :=
  h.carry (h.blocks.trans blocks) heads blocks.length_le fun p hp =>
    endingAt_of_isPrefix blocks (h.inside p hp).2

theorem adds (h : Watching base g log waiting) (ha : g.Adds g') : Watching base g' log waiting :=
  h.grow ha.blocks ha.heads

/-- A new block has a target that waits. -/
theorem wait (h : Watching base g log waiting) (blocks : g.blocks <+: g'.blocks)
    (heads : g.heads <+: g'.heads) (slot : TargetSlot) (new : g.blocks.length < g'.blocks.length) :
    Watching base g' log (⟨g.blocks.length, slot⟩ :: waiting) := by
  have grown := h.grow blocks heads
  refine { grown with waiting := List.forall_mem_cons.2 ⟨⟨h.length_le, new, fun hp => ?_⟩,
    grown.waiting⟩ }
  exact (h.inside _ hp).2.false

/-- The blocks of waiting jumps may change, as long as they keep their beginnings. -/
theorem change (h : Watching base g log waiting) {blocks : List Block}
    (heads : blocks.map headOf = g.blocks.map headOf)
    (same : ∀ p, (∀ j ∈ waiting, j.block ≠ p) → blocks[p]? = g.blocks[p]?) :
    Watching base { g with blocks := blocks } log waiting := by
  have length : blocks.length = g.blocks.length := by simpa using congrArg List.length heads
  have sameHeads : Graph.heads { g with blocks := blocks } = g.heads := by
    simp only [Graph.heads, heads]
  refine h.carry ?_ (sameHeads ▸ List.prefix_rfl) length.ge fun p hp => ?_
  · refine List.prefix_iff_getElem?.2 fun i hi => ?_
    rw [same i fun j hj hjp => (hjp ▸ (h.waiting j hj).1).not_gt hi]
    exact List.prefix_iff_getElem?.1 h.blocks i hi
  · have block : blocks[p]? = g.blocks[p]? := same p fun j hj hjp =>
      (h.waiting j hj).2.2 (hjp ▸ hp)
    rw [endingAt, block, endingAt]

/-- Targets of waiting jumps are filled in. -/
theorem fill (h : Watching base g log waiting) (label : Label) {jumps : List Pending}
    (hj : ∀ j ∈ jumps, j ∈ waiting) :
    Watching base { g with blocks := fillAll label jumps g.blocks } log waiting :=
  h.change (map_headOf_fillAll label jumps g.blocks) fun _ hp =>
    getElem?_fillAll fun j hjm => hp j (hj j hjm)

/-- A new block ends with a jump that the log speaks of. -/
theorem jump (blocks : g.blocks <+: g'.blocks) (heads : g.heads <+: g'.heads)
    (ending : endingAt g'.blocks g.blocks.length = some (.goto none))
    (hp : ∀ p ∈ log.breaks ++ log.continues, p = g.blocks.length) (loops : log.loops = [])
    (apart : ∀ p ∈ log.breaks, p ∉ log.continues) : Watching g g' log [] where
  blocks := blocks
  heads := heads
  inside p h := by
    obtain rfl : p = g.blocks.length := hp p (by simpa [Log.ends, loops] using h)
    exact ⟨le_rfl, lt_of_endingAt ending⟩
  breaks p h := hp p (List.mem_append_left _ h) ▸ ending
  continues p h := hp p (List.mem_append_right _ h) ▸ ending
  apart := apart
  bound := by simp [loops]
  waiting := by simp

/-- A walk goes on from where blocks are watched. -/
theorem walk (h : Watching base g log waiting) (h' : Watching g g' more []) :
    Watching base g' (log ++ more) waiting := by
  have grown := h.grow h'.blocks h'.heads
  constructor
  case blocks => exact grown.blocks
  case heads => exact grown.heads
  case inside =>
    intro p hp
    rcases Log.mem_ends_append.1 hp with hp | hp
    · exact grown.inside p hp
    · exact (h'.inside p hp).imp_left h.length_le.trans
  case breaks =>
    exact fun p hp => (List.mem_append.1 hp).elim (grown.breaks p) (h'.breaks p)
  case continues =>
    exact fun p hp => (List.mem_append.1 hp).elim (grown.continues p) (h'.continues p)
  case apart =>
    -- a jump of the first part lies in front of all jumps of the second
    have front {p : Nat} (hp : p ∈ log.ends) (hp' : p ∈ more.ends) : False :=
      ((h.inside p hp).2.trans_le (h'.inside p hp').1).false
    intro p hp hp'
    rcases List.mem_append.1 hp with hb | hb <;> rcases List.mem_append.1 hp' with hc | hc
    · exact h.apart p hb hc
    · exact front (Log.mem_ends.2 (.inl hb)) (Log.mem_ends.2 (.inr (.inl hc)))
    · exact front (Log.mem_ends.2 (.inr (.inl hc))) (Log.mem_ends.2 (.inl hb))
    · exact h'.apart p hb hc
  case bound =>
    exact fun loop hl => (List.mem_append.1 hl).elim (grown.bound loop) (h'.bound loop)
  case waiting =>
    intro j hj
    obtain ⟨hbase, hlt, hends⟩ := grown.waiting j hj
    refine ⟨hbase, hlt, fun hp => ?_⟩
    rcases Log.mem_ends_append.1 hp with hp | hp
    · exact hends hp
    · exact ((h.waiting j hj).2.1.trans_le (h'.inside _ hp).1).false

/-- A test ends a block and leaves one way open. -/
theorem branchOn (h : Watching base g log waiting) (holds : Bool) (cond : Value)
    (comment : String) :
    Watching base (branchOn holds cond comment g).2 log
      ((branchOn holds cond comment g).1 :: waiting) := by
  have adds := Graph.Adds.branchOn holds cond comment g
  cases hc : g.current with
  | none =>
    rw [branchOn_closed hc] at adds ⊢
    exact h.wait adds.blocks adds.heads _ (by simp)
  | some b =>
    rw [branchOn_open hc] at adds ⊢
    exact h.wait adds.blocks adds.heads _ (by simp)

/-- A block ends with a missing target. -/
theorem finishBlock (h : Watching base g log waiting) (t : Terminator) (slot : TargetSlot) :
    Watching base (finishBlock t g).2 log (⟨(finishBlock t g).1, slot⟩ :: waiting) := by
  have adds := Graph.Adds.finishBlock t g
  rw [finishBlock_fst]
  exact h.wait adds.blocks adds.heads slot ((finishBlock_blocks t g).1 ▸ Nat.lt_succ_self _)

end Watching

/-! ## The end of a loop -/

/-- Jumps without their targets. -/
def pendings (positions : List Nat) : List Pending := positions.map (⟨·, .goto⟩)

theorem mem_pendings {positions : List Nat} {j : Pending} :
    j ∈ pendings positions ↔ j.block ∈ positions ∧ j.slot = .goto := by
  obtain ⟨block, slot⟩ := j
  simp [pendings, eq_comm]

theorem pendings_append (a b : List Nat) : pendings (a ++ b) = pendings a ++ pendings b :=
  List.map_append

/-- The graph behind a loop, by the graph behind its update: the jumps to the next round and the
jumps out of the loop get their targets. -/
def Graph.leaving (g : Graph) (out : Pending) (next : Label) (log : Log) : Graph :=
  { g with
    blocks := fillAll g.nextLabel (out :: pendings log.breaks)
      (fillAll next (pendings log.continues) g.blocks)
    current := some { label := g.nextLabel, comment := "loop.exit" }
    nextLabel := g.nextLabel + 1 }

namespace Watching

variable {base g : Graph} {log : Log} {waiting : List Pending} {e c n l : Nat}
  {entry body next : Label}

/-- When a loop ends, it takes the jumps of the log. -/
theorem release (h : Watching base g log waiting) :
    Watching base g { loops := log.loops }
      (waiting ++ pendings log.continues ++ pendings log.breaks) := by
  have below {p : Nat} (hp : p ∈ Log.ends { loops := log.loops }) :
      ∃ loop ∈ log.loops, p ∈ loop.ends := by simpa [Log.mem_ends] using hp
  have own {p : Nat} (hp : p ∈ log.ends) (hg : endingAt g.blocks p = some (.goto none)) :
      base.blocks.length ≤ p ∧ p < g.blocks.length ∧ p ∉ Log.ends { loops := log.loops } := by
    refine ⟨(h.inside p hp).1, (h.inside p hp).2, fun hb => ?_⟩
    obtain ⟨loop, hl, hb⟩ := below hb
    exact (h.bound loop hl).ne_goto_none hb hg
  constructor
  case blocks => exact h.blocks
  case heads => exact h.heads
  case inside => exact fun p hp => h.inside p (Log.mem_ends.2 (.inr (.inr (below hp))))
  case breaks => simp
  case continues => simp
  case apart => simp
  case bound => exact h.bound
  case waiting =>
    intro j hj
    simp only [List.mem_append, mem_pendings] at hj
    rcases hj with (hj | ⟨hj, -⟩) | ⟨hj, -⟩
    · obtain ⟨hbase, hlt, hends⟩ := h.waiting j hj
      exact ⟨hbase, hlt, fun hp => hends (Log.mem_ends.2 (.inr (.inr (below hp))))⟩
    · exact own (Log.mem_ends.2 (.inr (.inl hj))) (h.continues _ hj)
    · exact own (Log.mem_ends.2 (.inl hj)) (h.breaks _ hj)

/-- A loop that is bound is one more loop in the log. -/
theorem conclude (h : Watching base g { loops := log.loops } waiting) {loop : LoopTrace}
    (bound : loop.Bound g)
    (inside : ∀ p ∈ loop.ends, base.blocks.length ≤ p ∧ p < g.blocks.length) :
    Watching base g { loops := log.loops ++ [loop] } [] := by
  constructor
  case blocks => exact h.blocks
  case heads => exact h.heads
  case inside =>
    intro p hp
    have : p ∈ Log.ends { loops := log.loops } ∨ p ∈ loop.ends := by
      simpa [Log.ends, List.flatMap_append] using hp
    exact this.elim (h.inside p) (inside p)
  case breaks => simp
  case continues => simp
  case apart => simp
  case bound => exact List.forall_mem_append.2 ⟨h.bound, by simpa using bound⟩
  case waiting => simp

/-- The graph behind a loop keeps the beginnings of all blocks. -/
theorem heads_leaving (closed : g.current = none) (out : Pending) (next : Label) :
    (g.leaving out next log).heads = g.heads ++ [(g.nextLabel, "loop.exit")] := by
  simp only [Graph.leaving, Graph.heads, map_headOf_fillAll, closed]
  simp

/-- Where a loop ends, its jumps get their targets: those to the next round first, and then those
out of the loop together with the test. -/
theorem binds (h : Watching base g log [⟨c, .onFalse⟩]) (closed : g.current = none)
    (waits : (log.around e c n l).Waits g entry body next) :
    (log.around e c n l).Binds (g.leaving ⟨c, .onFalse⟩ next log) entry body next g.nextLabel := by
  let onward := fillAll next (pendings log.continues) g.blocks
  let left := g.leaving ⟨c, .onFalse⟩ next log
  have ahead : g.heads <+: left.heads := by
    rw [heads_leaving closed]
    exact List.prefix_append _ _
  have notLogged : c ∉ log.ends := (h.waiting _ List.mem_cons_self).2.2
  have noBreak : c ∉ log.breaks := fun hp => notLogged (Log.mem_ends.2 (.inl hp))
  have noContinue : c ∉ log.continues := fun hp => notLogged (Log.mem_ends.2 (.inr (.inl hp)))
  -- the first filling keeps all blocks but those that go on
  have first {p : Nat} (hp : p ∉ log.continues) : onward[p]? = g.blocks[p]? :=
    getElem?_fillAll fun j hj hjp => hp (hjp ▸ (mem_pendings.1 hj).1)
  -- the second one keeps all blocks but the test and those that leave
  have second {p : Nat} (hpc : c ≠ p) (hp : p ∉ log.breaks) : left.blocks[p]? = onward[p]? :=
    getElem?_fillAll (List.forall_mem_cons.2
      ⟨hpc, fun j hj hjp => hp (hjp ▸ (mem_pendings.1 hj).1)⟩)
  obtain ⟨cond, tested : endingAt g.blocks c = _⟩ := waits.tested
  have latched : endingAt g.blocks l = some (.goto (some entry)) := waits.repeated
  constructor
  case entered => exact getElem?_of_isPrefix ahead waits.entered
  case taken => exact getElem?_of_isPrefix ahead waits.taken
  case updated => exact getElem?_of_isPrefix ahead waits.updated
  case left =>
    have length : l + 1 = g.heads.length := by
      simpa [Graph.heads, closed, Log.around] using waits.ended
    change left.heads[l + 1]? = _
    rw [heads_leaving closed, length]
    exact List.getElem?_concat_length
  case tested =>
    have kept : left.blocks[c]? = (onward.modify c (Lowering.fill .onFalse g.nextLabel))[c]? :=
      getElem?_fillAll fun j hj (hjp : j.block = c) => noBreak (hjp ▸ (mem_pendings.1 hj).1)
    obtain ⟨b, hb, ht⟩ := Option.map_eq_some_iff.1 tested
    refine ⟨cond, ?_⟩
    change endingAt left.blocks c = _
    rw [endingAt, kept, ← endingAt, endingAt_modify, first noContinue, hb, Option.map_some,
      if_pos rfl]
    simp [Lowering.fill, fillTarget, ht]
  case repeated =>
    have noJump (hp : endingAt g.blocks l = some (.goto none)) : False := by
      simp [latched] at hp
    have noTest : c ≠ l := by
      rintro rfl
      simp [latched] at tested
    change endingAt left.blocks l = _
    rw [endingAt, second noTest fun hp => noJump (h.breaks _ hp),
      first fun hp => noJump (h.continues _ hp)]
    exact latched
  case breaks =>
    intro p hp
    refine endingAt_fillAll_of_mem (t := none)
      (List.mem_cons_of_mem _ (mem_pendings.2 ⟨hp, rfl⟩)) ?_
    rw [endingAt, first (h.apart p hp)]
    exact h.breaks p hp
  case continues =>
    intro p hp
    have going : endingAt onward p = some (.goto (some next)) :=
      endingAt_fillAll_of_mem (mem_pendings.2 ⟨hp, rfl⟩) (h.continues p hp)
    change endingAt left.blocks p = _
    rw [endingAt, second (fun hpc => noContinue (hpc ▸ hp)) fun hb => h.apart p hb hp]
    exact going

/-- Behind a loop, the loop is in the log, and its jumps wait no longer. -/
theorem leaving (h : Watching base g log [⟨c, .onFalse⟩]) (closed : g.current = none)
    (waits : (log.around e c n l).Waits g entry body next) (hbase : base.blocks.length ≤ l) :
    Watching base (g.leaving ⟨c, .onFalse⟩ next log) (log.closing e c n l) [] := by
  have filled := (h.release.fill next fun _ hj => List.mem_append_left _
    (List.mem_append_right _ hj)).fill g.nextLabel (List.forall_mem_cons.2
      ⟨List.mem_append_left _ (List.mem_append_left _ List.mem_cons_self), fun _ hj =>
        List.mem_append_right _ hj⟩)
  have left : Watching base (g.leaving ⟨c, .onFalse⟩ next log) { loops := log.loops } _ :=
    filled.grow List.prefix_rfl (by simp [Graph.leaving, Graph.heads, closed])
  refine left.conclude ⟨_, _, _, _, h.binds closed waits⟩ fun p hp => ?_
  have length : (g.leaving ⟨c, .onFalse⟩ next log).blocks.length = g.blocks.length :=
    (length_fillAll _ _ _).trans (length_fillAll _ _ _)
  rw [length]
  simp only [LoopTrace.ends, Log.around, List.mem_cons, List.mem_append] at hp
  rcases hp with rfl | rfl | hp | hp
  · have := h.waiting _ List.mem_cons_self
    exact ⟨this.1, this.2.1⟩
  · exact ⟨hbase, waits.ended ▸ Nat.lt_succ_self _⟩
  · exact h.inside p (Log.mem_ends.2 (.inl hp))
  · exact h.inside p (Log.mem_ends.2 (.inr (.inl hp)))

end Watching

end Codegen.Lowering
