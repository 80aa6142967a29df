import Codegen.Proofs.StackDiscipline
import Codegen.Proofs.Watching

/-!
# Jumps belong to the innermost loop

What `Watching` says of blocks holds behind every walk, because every way to put walks together
keeps it (`heeding`).  So behind a walk over any tree, from any state, all loops inside are bound.
-/

namespace Codegen.Lowering

open Ir (Inst Value Label Terminator Block)

/-! ## Lists of jumps -/

/-- The jumps of the log are added to the lists of the innermost loop; outside of all loops there
are none. -/
structure Graph.Passes (g g' : Graph) (log : Log) : Prop where
  breaks : g'.breaks = g.breaks.modifyHead (· ++ pendings log.breaks)
  continues : g'.continues = g.continues.modifyHead (· ++ pendings log.continues)
  noBreaks : g.breaks = [] → log.breaks = []
  noContinues : g.continues = [] → log.continues = []

namespace Graph.Passes

variable {g g' g'' : Graph} {a b : Log}

theorem of_eq (breaks : g'.breaks = g.breaks) (continues : g'.continues = g.continues) :
    g.Passes g' {} where
  breaks := by simp [pendings, breaks, modifyHead_self]
  continues := by simp [pendings, continues, modifyHead_self]
  noBreaks _ := rfl
  noContinues _ := rfl

theorem trans (h : g.Passes g' a) (h' : g'.Passes g'' b) : g.Passes g'' (a ++ b) where
  breaks := by
    rw [h'.breaks, h.breaks, List.modifyHead_modifyHead]
    simp only [Function.comp_def, List.append_assoc, Log.breaks_append, pendings_append]
  continues := by
    rw [h'.continues, h.continues, List.modifyHead_modifyHead]
    simp only [Function.comp_def, List.append_assoc, Log.continues_append, pendings_append]
  noBreaks hg := by
    have empty : g'.breaks = [] := by rw [h.breaks, hg, List.modifyHead_nil]
    rw [Log.breaks_append, h.noBreaks hg, h'.noBreaks empty, List.append_nil]
  noContinues hg := by
    have empty : g'.continues = [] := by rw [h.continues, hg, List.modifyHead_nil]
    rw [Log.continues_append, h.noContinues hg, h'.noContinues empty, List.append_nil]

theorem of_lists (h : g.Passes g' a) (breaks : g''.breaks = g'.breaks)
    (continues : g''.continues = g'.continues) : g.Passes g'' a :=
  ⟨breaks.trans h.breaks, continues.trans h.continues, h.noBreaks, h.noContinues⟩

end Graph.Passes

/-! ## What walks keep -/

/-- What holds of a part of a walk, from `base` on: blocks are watched, the jumps of the log wait in
the lists of the loop around the walk, and the lists of jumps behind branches are `exits`. -/
structure Heeds (base g : Graph) (log : Log) (exits : List (List Pending))
    (waiting : List Pending) : Prop where
  watching : Watching base g log waiting
  exits : g.exits = exits
  passes : base.Passes g log

namespace Heeds

variable {base g g' : Graph} {log inner : Log} {exits : List (List Pending)}
  {waiting : List Pending}

theorem refl (g : Graph) : Heeds g g {} g.exits [] := ⟨.refl g, rfl, .of_eq rfl rfl⟩

theorem fewer (h : Heeds base g log exits waiting) {fewer : List Pending}
    (hf : ∀ j ∈ fewer, j ∈ waiting) : Heeds base g log exits fewer :=
  { h with watching := h.watching.fewer hf }

theorem adds (h : Heeds base g log exits waiting) (ha : g.Adds g') :
    Heeds base g' log exits waiting :=
  ⟨h.watching.adds ha, ha.exits.trans h.exits, h.passes.of_lists ha.breaks ha.continues⟩

/-- Other jumps wait behind the branches around. -/
theorem setExits (h : Heeds base g log exits waiting) (other : List (List Pending)) :
    Heeds base { g with exits := other } log other waiting where
  watching := h.watching.grow List.prefix_rfl List.prefix_rfl
  exits := rfl
  passes := h.passes.of_lists rfl rfl

/-- The targets of waiting jumps may change, as long as blocks keep their beginnings. -/
theorem change (h : Heeds base g log exits waiting) {blocks : List Block}
    (heads : blocks.map headOf = g.blocks.map headOf)
    (same : ∀ p, (∀ j ∈ waiting, j.block ≠ p) → blocks[p]? = g.blocks[p]?) :
    Heeds base { g with blocks := blocks } log exits waiting where
  watching := h.watching.change heads same
  exits := h.exits
  passes := h.passes.of_lists rfl rfl

/-- Targets of waiting jumps are filled in. -/
theorem fill (h : Heeds base g log exits waiting) (label : Label) {jumps : List Pending}
    (hj : ∀ j ∈ jumps, j ∈ waiting) :
    Heeds base { g with blocks := fillAll label jumps g.blocks } log exits waiting where
  watching := h.watching.fill label hj
  exits := h.exits
  passes := h.passes.of_lists rfl rfl

/-- Jumps come together in a new block. -/
theorem join (h : Heeds base g log exits waiting) {jumps : List Pending}
    (hj : ∀ j ∈ jumps, j ∈ waiting) (comment : String) :
    Heeds base (join jumps comment g).2 log exits waiting :=
  (h.fill g.nextLabel hj).adds (.join jumps comment g)

theorem branchOn (h : Heeds base g log exits waiting) (holds : Bool) (cond : Value)
    (comment : String) :
    Heeds base (branchOn holds cond comment g).2 log exits
      ((branchOn holds cond comment g).1 :: waiting) :=
  { h.adds (.branchOn holds cond comment g) with
    watching := h.watching.branchOn holds cond comment }

theorem finishBlock (h : Heeds base g log exits waiting) (t : Terminator) (slot : TargetSlot) :
    Heeds base (finishBlock t g).2 log exits (⟨(finishBlock t g).1, slot⟩ :: waiting) :=
  { h.adds (.finishBlock t g) with watching := h.watching.finishBlock t slot }

theorem walk (h : Heeds base g log exits waiting) (h' : Heeds g g' inner g.exits []) :
    Heeds base g' (log ++ inner) exits waiting :=
  ⟨h.watching.walk h'.watching, h'.exits.trans h.exits, h.passes.trans h'.passes⟩

end Heeds

/-! ## Branches -/

/-- In a branch, the jumps behind the branch wait in the innermost list of exits, and `more` jumps
wait elsewhere. -/
def InBranch (base g : Graph) (log : Log) (outer : List (List Pending)) (more : List Pending) :
    Prop :=
  ∃ exits, Heeds base g log (exits :: outer) (exits ++ more)

namespace InBranch

variable {base g g' : Graph} {log inner : Log} {outer : List (List Pending)} {more : List Pending}

theorem walk (h : InBranch base g log outer more) (h' : Heeds g g' inner g.exits []) :
    InBranch base g' (log ++ inner) outer more :=
  h.imp fun _ h => h.walk h'

theorem beginArm (h : InBranch base g log outer []) (cond : Value) :
    InBranch base (beginArm cond g).2 log outer [(beginArm cond g).1] := by
  obtain ⟨exits, h⟩ := h
  refine ⟨exits, (h.branchOn true cond "cond.true").fewer fun j hj => ?_⟩
  simpa [Lowering.beginArm, or_comm] using hj

/-- One more jump waits behind the branch. -/
theorem addExit {exit : Pending} {exits : List Pending}
    (h : Heeds base g log (exits :: outer) (exit :: (exits ++ more))) :
    InBranch base (addExit exit g).2 log outer more := by
  have added : (Lowering.addExit exit g).2 = { g with exits := (exits ++ [exit]) :: outer } := by
    obtain ⟨⟩ := g
    cases h.exits
    rfl
  rw [added]
  refine ⟨exits ++ [exit], (h.setExits _).fewer fun j hj => ?_⟩
  simp only [List.mem_append, List.mem_cons, List.not_mem_nil] at hj ⊢
  tauto

theorem endArm (h : InBranch base g log outer more) :
    InBranch base (endArm g).2 log outer more := by
  obtain ⟨exits, h⟩ := h
  exact addExit ((h.adds (.ensureOpen "block.end.ret" g)).finishBlock (.goto none) .goto)

theorem elseArm {notTaken : Pending} (h : InBranch base g log outer [notTaken]) (isLast : Bool) :
    InBranch base (elseArm isLast notTaken g).2 log outer [] := by
  obtain ⟨exits, h⟩ := h
  cases isLast with
  | true => exact addExit (h.fewer (by simp [or_comm]))
  | false =>
    have joined : Heeds base (join [notTaken] "cond.false" g).2 log (exits :: outer)
        (exits ++ [notTaken]) := h.join (by simp) _
    refine ⟨exits, joined.fewer fun j hj => ?_⟩
    exact List.mem_append_left _ (List.append_nil exits ▸ hj)

theorem endBranch (h : InBranch base g log outer []) :
    Heeds base (endBranch g).2 log outer [] := by
  obtain ⟨exits, h⟩ := h
  rw [List.append_nil] at h
  have joined : Lowering.endBranch g =
      ((), (join exits "branch.end" { g with exits := outer }).2) := by
    obtain ⟨⟩ := g
    cases h.exits
    rfl
  rw [joined]
  exact ((h.setExits outer).join (fun _ => id) _).fewer (by simp)

end InBranch

/-! ## Switches -/

namespace Heeds

variable {base g : Graph} {log : Log} {exits : List (List Pending)} {waiting : List Pending}

theorem addCase {switch : Pending} (h : Heeds base g log exits waiting) (hs : switch ∈ waiting)
    (value : Int) (label : Label) :
    Heeds base (addCase switch.block value label g).2 log exits waiting := by
  refine h.change (map_modify_of_eq (f := withCase value label) (fun _ => rfl) _ _) fun p hp => ?_
  rw [List.getElem?_modify]
  simp only [if_neg (hp switch hs), id_map']

theorem beginCase {switch : Pending} (h : Heeds base g log exits waiting) (hs : switch ∈ waiting)
    (value : Int) : Heeds base (beginCase switch.block value g).2 log exits waiting :=
  have joined : Heeds base (Lowering.join [] ("switch.case " ++ Text.signed value) g).2 log exits
      waiting := h.join (by simp) _
  joined.addCase hs value _

theorem endCase {switch : Pending} {ends : List Pending}
    (h : Heeds base g log exits (switch :: ends)) :
    Heeds base (endCase ends g).2 log exits (switch :: (endCase ends g).1) := by
  cases hc : g.current with
  | none =>
    rw [endCase_closed hc]
    exact h
  | some b =>
    have finished := h.finishBlock (.goto none) .goto
    rw [finishBlock_open hc] at finished
    rw [endCase_open hc]
    refine finished.fewer fun j hj => ?_
    simp only [List.mem_append, List.mem_cons, List.not_mem_nil] at hj ⊢
    tauto

end Heeds

/-! ## Loops and their jumps -/

/-- A jump ends a block with a missing target. -/
theorem jump_spec (comment : String) (g : Graph) :
    (jump comment g).1 = ⟨g.blocks.length, .goto⟩ ∧ g.Adds (jump comment g).2 ∧
      endingAt (jump comment g).2.blocks g.blocks.length = some (.goto none) := by
  let finished := finishBlock (.goto none) g
  have joins : finished.2.Adds (jump comment g).2 := .join [] comment finished.2
  obtain ⟨length, ending⟩ := finishBlock_blocks (.goto none) g
  refine ⟨congrArg (Pending.mk · .goto) (finishBlock_fst (.goto none) g),
    (Graph.Adds.finishBlock (.goto none) g).trans joins, ?_⟩
  rw [endingAt_of_isPrefix joins.blocks (length ▸ Nat.lt_succ_self _)]
  exact ending

theorem Heeds.jumpOut {g : Graph} (hg : g.breaks ≠ []) :
    Heeds g (jumpOut g).2 { breaks := [g.blocks.length] } g.exits [] := by
  obtain ⟨place, adds, ending⟩ := jump_spec "break.end" g
  refine ⟨.jump adds.blocks adds.heads ending (by simp) rfl (by simp), adds.exits, ?_, ?_,
    fun empty => absurd empty hg, fun _ => rfl⟩
  · change appendInnermost (jump "break.end" g).1 (jump "break.end" g).2.breaks = _
    rw [place, adds.breaks, appendInnermost_eq]
    rfl
  · exact (Graph.Passes.of_eq adds.breaks adds.continues).continues

theorem Heeds.jumpOn {g : Graph} (hg : g.continues ≠ []) :
    Heeds g (jumpOn g).2 { continues := [g.blocks.length] } g.exits [] := by
  obtain ⟨place, adds, ending⟩ := jump_spec "continue.end" g
  refine ⟨.jump adds.blocks adds.heads ending (by simp) rfl (by simp), adds.exits, ?_, ?_,
    fun _ => rfl, fun empty => absurd empty hg⟩
  · exact (Graph.Passes.of_eq adds.breaks adds.continues).breaks
  · change appendInnermost (jump "continue.end" g).1 (jump "continue.end" g).2.continues = _
    rw [place, adds.continues, appendInnermost_eq]
    rfl

theorem Heeds.leave {kind : Jump} {g : Graph} (hg : kind.waiting g ≠ []) :
    Heeds g (kind.leave g).2 (kind.log g.blocks.length) g.exits [] := by
  cases kind with
  | out => exact .jumpOut hg
  | on => exact .jumpOn hg

/-- The end of a loop takes the jumps from the innermost lists and fills them in. -/
theorem endLoop_eq_leaving {g : Graph} {log : Log} {breaks continues : List (List Pending)}
    (hb : g.breaks = pendings log.breaks :: breaks)
    (hc : g.continues = pendings log.continues :: continues) (entry next : Label) (out : Pending) :
    (endLoop entry next out g).2 =
      { (finishBlock (.goto (some entry)) g).2.leaving out next log with breaks, continues } := by
  obtain ⟨_, current, _, _, _, _⟩ := g
  cases hb
  cases hc
  cases current <;> rfl

theorem endLoop_length (entry next : Label) (out : Pending) (g : Graph) :
    (endLoop entry next out g).2.blocks.length = g.blocks.length + 1 := by
  let f := (finishBlock (.goto (some entry)) g).2
  have filled : (endLoop entry next out g).2.blocks =
      fillAll f.nextLabel (out :: f.breaks.headD [])
        (fillAll next (f.continues.headD []) f.blocks) := by
    obtain ⟨_, current, _, _, _, _⟩ := g
    cases current <;> rfl
  rw [filled, length_fillAll, length_fillAll, (finishBlock_blocks _ g).1]

/-- The walks over the parts of a loop have kept watch, so the loop has: the lists of the loops
around it are as they were. -/
theorem heeds_endLoop {g u : Graph} {log : Log} {entry body next : Label} {e c n : Nat}
    (h : Heeds (beginLoop g).2 u log g.exits [⟨c, .onFalse⟩])
    (waits : (log.around e c n u.blocks.length).Waits (finishBlock (.goto (some entry)) u).2
      entry body next) :
    Heeds g (endLoop entry next ⟨c, .onFalse⟩ u).2 (log.closing e c n u.blocks.length)
      g.exits [] := by
  have began : g.Adds (join [] "loop.entry" g).2 := .join [] _ _
  have ends := Graph.Adds.finishBlock (.goto (some entry)) u
  have watching := ((h.watching.rebase began.blocks began.heads).adds ends).leaving
    (finishBlock_current _ u) waits (began.blocks.length_le.trans h.watching.length_le)
  have breaks : u.breaks = pendings log.breaks :: g.breaks :=
    h.passes.breaks.trans (congrArg (pendings log.breaks :: ·) began.breaks)
  have continues : u.continues = pendings log.continues :: g.continues :=
    h.passes.continues.trans (congrArg (pendings log.continues :: ·) began.continues)
  rw [endLoop_eq_leaving breaks continues]
  constructor
  case watching => exact watching.grow List.prefix_rfl List.prefix_rfl
  case exits => exact ends.exits.trans h.exits
  case passes => exact { Graph.Passes.of_eq rfl rfl with }

/-! ## Walks -/

/-- A walk keeps watch from any state. -/
def Heeding {α : Type} (w : Watched α) : Prop :=
  ∀ s, Heeds s.toGraph (w s).2.toGraph (w s).1.2 s.exits []

namespace Heeding

variable {α β : Type}

theorem pure (a : α) : Heeding (pure a) := fun s => .refl s.toGraph

theorem bind {w : Watched α} {f : α → Watched β} (hw : Heeding w) (hf : ∀ a, Heeding (f a)) :
    Heeding (w >>= f) := fun s => (hw s).walk (hf (w s).1.1 (w s).2)

theorem line (step : Line α) : Heeding (Assembler.line step) := fun s =>
  (Heeds.refl s.toGraph).adds (.appendAll (step s.toNames).insts s.toGraph)

theorem returning (type : String) (value : Option Value) :
    Heeding (Assembler.returning type value) := fun s =>
  (Heeds.refl s.toGraph).adds (.finishBlock (.ret type value) s.toGraph)

theorem guarded (isAnd : Bool) (cond : Value) {w : Watched Unit} (h : Heeding w) :
    Heeding (Assembler.guarded isAnd cond w) := by
  intro s
  let begun := beginGuard isAnd cond s.toGraph
  let r := w ⟨s.toNames, begun.2, s.notes⟩
  have log : (Assembler.guarded isAnd cond w s).1.2 = r.1.2 := Log.append_nil _
  have began : Heeds s.toGraph begun.2 {} s.exits [begun.1] := (Heeds.refl _).branchOn _ _ _
  have walked := began.walk (h ⟨s.toNames, begun.2, s.notes⟩)
  rw [log]
  exact (walked.join (fun _ => id) _).fewer (by simp)

theorem arms {ws : List (ArmWalk Watched)} {xs : List (ArmWalk Lower)}
    (h : List.Forall₂ (ArmWalk.Related fun _ w _ => Heeding w) ws xs) {base : Graph} {log : Log}
    {outer : List (List Pending)} (s : State) (hs : InBranch base s.toGraph log outer []) :
    InBranch base (Watched.arms ws s).2.toGraph (log ++ (Watched.arms ws s).1.2) outer [] := by
  induction h generalizing s log with
  | nil => exact (Log.append_nil log).symm ▸ hs
  | @cons w x ws xs hwx hrest ih =>
    cases hwx with
    | @always body body' hbody =>
      let b := body s
      let next : State := ⟨b.2.toNames, (endArm b.2.toGraph).2, b.2.notes⟩
      have walked : Watched.arms (⟨none, body⟩ :: ws) s =
        (((), b.1.2 ++ (Watched.arms ws next).1.2), (Watched.arms ws next).2) := rfl
      rw [walked, ← Log.append_assoc]
      exact ih next (hs.walk (hbody s)).endArm
    | @when check check' body body' hcheck hbody =>
      let c := check s
      let tested := beginArm c.1.1 c.2.toGraph
      let begun : State := ⟨c.2.toNames, tested.2, c.2.notes⟩
      let b := body begun
      let next : State :=
        ⟨b.2.toNames, (elseArm ws.isEmpty tested.1 (endArm b.2.toGraph).2).2, b.2.notes⟩
      have walked : Watched.arms (⟨some check, body⟩ :: ws) s =
        (((), c.1.2 ++ (b.1.2 ++ (Watched.arms ws next).1.2)), (Watched.arms ws next).2) := rfl
      have taken := (((hs.walk (hcheck s)).beginArm c.1.1).walk (hbody begun)).endArm
      rw [walked, ← Log.append_assoc log, ← Log.append_assoc (log ++ c.1.2)]
      exact ih next (taken.elseArm ws.isEmpty)

theorem branching {ws : List (ArmWalk Watched)} {xs : List (ArmWalk Lower)}
    (h : List.Forall₂ (ArmWalk.Related fun _ w _ => Heeding w) ws xs) :
    Heeding (Assembler.branching ws) := by
  intro s
  let begun : State := ⟨s.toNames, (pushExits s.toGraph).2, s.notes⟩
  have log : (Assembler.branching ws s).1.2 = (Watched.arms ws begun).1.2 := Log.append_nil _
  have pushed : InBranch s.toGraph begun.toGraph {} s.exits [] :=
    ⟨[], (Watching.refl _).grow List.prefix_rfl List.prefix_rfl, rfl, .of_eq rfl rfl⟩
  rw [log]
  exact (arms h begun pushed).endBranch

theorem cases {ws : List (Int × Watched Unit)} {xs : List (Int × Lower Unit)}
    (h : List.Forall₂ (fun w x => w.1 = x.1 ∧ Heeding w.2) ws xs) {base : Graph} {log : Log}
    {exits : List (List Pending)} (switch : Nat) (ends : List Pending) (s : State)
    (hs : Heeds base s.toGraph log exits (⟨switch, .otherwise⟩ :: ends)) :
    Heeds base (Watched.cases switch ends ws s).2.toGraph
      (log ++ (Watched.cases switch ends ws s).1.2) exits
      (⟨switch, .otherwise⟩ :: (Watched.cases switch ends ws s).1.1) := by
  induction h generalizing ends s log with
  | nil => exact (Log.append_nil log).symm ▸ hs
  | @cons w x ws xs hwx hrest ih =>
    obtain ⟨value, body⟩ := w
    let begun : State := ⟨s.toNames, (beginCase switch value s.toGraph).2, s.notes⟩
    let b := body begun
    let ended := endCase ends b.2.toGraph
    let next : State := ⟨b.2.toNames, ended.2, b.2.notes⟩
    have walked : Watched.cases switch ends ((value, body) :: ws) s =
      let rest := Watched.cases switch ended.1 ws next
      ((rest.1.1, b.1.2 ++ rest.1.2), rest.2) := rfl
    have began : Heeds base begun.toGraph log exits (⟨switch, .otherwise⟩ :: ends) :=
      hs.beginCase List.mem_cons_self value
    rw [walked, ← Log.append_assoc]
    exact ih ended.1 next (began.walk (hwx.2 begun)).endCase

theorem switchEnd {w : Option (Watched Unit)} {x : Option (Lower Unit)}
    (h : Option.Rel (fun w _ => Heeding w) w x) {base : Graph} {log : Log}
    {exits : List (List Pending)} (switch : Nat) (ends : List Pending) (s : State)
    (hs : Heeds base s.toGraph log exits (⟨switch, .otherwise⟩ :: ends)) :
    Heeds base (Watched.switchEnd switch w ends s).2.toGraph
      (log ++ (Watched.switchEnd switch w ends s).1.2) exits [] := by
  let default := beginDefault switch s.toGraph
  have began : Heeds base default.2 log exits (⟨switch, .otherwise⟩ :: ends) :=
    hs.join (by simp) _
  cases h with
  | none =>
    have filled : Heeds base { default.2 with blocks := fillAll default.1 ends default.2.blocks }
        log exits (⟨switch, .otherwise⟩ :: ends) :=
      began.fill _ fun j hj => List.mem_cons_of_mem _ hj
    exact (Log.append_nil log).symm ▸ filled.fewer (by simp)
  | @some body _ hbody =>
    let begun : State := ⟨s.toNames, default.2, s.notes⟩
    have log : (Watched.switchEnd switch (some body) ends s).1.2 = (body begun).1.2 :=
      Log.append_nil _
    have ended := (began.walk (hbody begun)).endCase
    rw [log]
    exact (ended.join (fun j hj => List.mem_cons_of_mem _ hj) _).fewer (by simp)

theorem switching (value : Value) (type : String) {ws : List (Int × Watched Unit)}
    {xs : List (Int × Lower Unit)} (h : List.Forall₂ (fun w x => w.1 = x.1 ∧ Heeding w.2) ws xs)
    {w : Option (Watched Unit)} {x : Option (Lower Unit)}
    (ho : Option.Rel (fun w _ => Heeding w) w x) :
    Heeding (Assembler.switching value type ws w) := by
  intro s
  let begun := beginSwitch value type s.toGraph
  have began : Heeds s.toGraph begun.2 {} s.exits [⟨begun.1, .otherwise⟩] :=
    (Heeds.refl _).finishBlock _ .otherwise
  exact switchEnd ho _ _ _ (cases h begun.1 [] ⟨s.toNames, begun.2, s.notes⟩ began)

theorem jumping (kind : Jump) (span : Span) : Heeding (Assembler.jumping kind span) := by
  intro s
  rw [Watched.jumping_eq]
  split
  case isTrue => exact .refl s.toGraph
  case isFalse inside => exact .leave (by simpa using inside)

/-- The parts of a loop keep watch while the way out of the loop waits, and tell where the body and
the update begin. -/
theorem parts {check : Watched Value} {body update : Watched Unit} (hcheck : Heeding check)
    (hbody : Heeding body) (hupdate : Heeding update) (s : State) :
    let r := Watched.parts check body update s
    Heeds s.toGraph r.2.toGraph r.1.2 s.exits [r.1.1.1] ∧
      r.2.heads[r.1.1.2.2]? = some (r.1.1.2.1, "loop.continue") ∧
      ∃ c cond first, r.1.1.1 = ⟨c, .onFalse⟩ ∧ r.2.heads[c + 1]? = some (first, "loop.body") ∧
        endingAt r.2.blocks c = some (.branch cond (some first) none) := by
  let c := check s
  let tested := beginLoopBody c.1.1 c.2.toGraph
  let b := body ⟨c.2.toNames, tested.2, c.2.notes⟩
  let next := beginUpdate b.2.toGraph
  let u := update ⟨b.2.toNames, next.2, b.2.notes⟩
  have walked : Watched.parts check body update s =
    (((tested.1, next.1, next.2.blocks.length), c.1.2 ++ (b.1.2 ++ u.1.2)), u.2) := rfl
  -- the walk from the update on, and the one from the body on
  have fromUpdate : Heeds next.2 u.2.toGraph u.1.2 next.2.exits [] :=
    hupdate ⟨b.2.toNames, next.2, b.2.notes⟩
  have inBody : Heeds tested.2 b.2.toGraph b.1.2 tested.2.exits [] :=
    hbody ⟨c.2.toNames, tested.2, c.2.notes⟩
  have toUpdate : Heeds tested.2 next.2 b.1.2 tested.2.exits [] :=
    (inBody.adds (.ensureOpen "loop.ret.end" b.2.toGraph)).join (by simp) _
  have fromBody := toUpdate.walk fromUpdate
  have again : next.2.heads[next.2.blocks.length]? = some (next.1, "loop.continue") :=
    Graph.heads_current (join_current [] "loop.continue" _)
  obtain ⟨place, first, test⟩ := branchOn_true c.1.1 "loop.body" c.2.toGraph
  rw [walked]
  refine ⟨((hcheck s).branchOn true c.1.1 "loop.body").walk fromBody,
    getElem?_of_isPrefix fromUpdate.watching.heads again, c.2.blocks.length, c.1.1, c.2.nextLabel,
    place, getElem?_of_isPrefix fromBody.watching.heads first, ?_⟩
  exact (endingAt_of_isPrefix fromBody.watching.blocks (lt_of_endingAt test)).trans test

theorem looping {check : Watched Value} {body update : Watched Unit} (hcheck : Heeding check)
    (hbody : Heeding body) (hupdate : Heeding update) :
    Heeding (Assembler.looping check body update) := by
  intro s
  let begun := beginLoop s.toGraph
  let r := Watched.parts check body update ⟨s.toNames, begun.2, s.notes⟩
  have walked : Assembler.looping check body update s =
      (((), r.1.2.closing begun.2.blocks.length r.1.1.1.block r.1.1.2.2 r.2.blocks.length),
        ⟨r.2.toNames, (endLoop begun.1 r.1.1.2.1 r.1.1.1 r.2.toGraph).2, r.2.notes⟩) := rfl
  obtain ⟨heeds, updated, c, cond, first, out, taken, tested⟩ :=
    parts hcheck hbody hupdate ⟨s.toNames, begun.2, s.notes⟩
  have began : s.toGraph.Adds (join [] "loop.entry" s.toGraph).2 := .join [] _ _
  have entered : begun.2.heads[begun.2.blocks.length]? = some (begun.1, "loop.entry") :=
    Graph.heads_current (join_current [] "loop.entry" s.toGraph)
  have fromCheck : Heeds begun.2 r.2.toGraph r.1.2 s.exits [⟨c, .onFalse⟩] :=
    { out ▸ heeds with exits := heeds.exits.trans began.exits }
  have ends := Graph.Adds.finishBlock (.goto (some begun.1)) r.2.toGraph
  obtain ⟨ended, repeated⟩ := finishBlock_blocks (.goto (some begun.1)) r.2.toGraph
  rw [walked]
  change Heeds _ (endLoop begun.1 r.1.1.2.1 r.1.1.1 r.2.toGraph).2
    (r.1.2.closing _ r.1.1.1.block _ r.2.blocks.length) _ _
  rw [show r.1.1.1 = _ from out]
  suffices waits : LoopTrace.Waits _ _ _ first _ from heeds_endLoop fromCheck waits
  constructor
  case entered => exact getElem?_of_isPrefix (fromCheck.watching.heads.trans ends.heads) entered
  case taken => exact getElem?_of_isPrefix ends.heads taken
  case updated => exact getElem?_of_isPrefix ends.heads updated
  case tested =>
    exact ⟨cond, (endingAt_of_isPrefix ends.blocks (lt_of_endingAt tested)).trans tested⟩
  case repeated => exact repeated
  case ended => exact ended.symm

end Heeding

/-- Walks keep watch, whatever they walk over. -/
def heeding (env : Env) : WalkRelation .stay env env.record Set.univ Watched Lower where
  Relates w _ := Heeding w
  pure := .pure
  bind := .bind
  line _ := .line _
  string _ _ := .line _
  enclosed h := .bind (.line _) fun _ => .bind h fun _ => .line _
  guarded _ _ _ _ h := .guarded _ _ h
  branching := .branching
  switching _ _ _ _ _ h _ _ ho := .bind (.line _) fun _ => .switching _ _ h ho
  looping := .looping
  jumping := .jumping
  returning _ := .returning _

/-! ## Trees -/

/-- The kind of a node that jumps. -/
def Jump.node : Jump → NodeKind
  | out => .breakLoop
  | on => .continueLoop

section Trees

variable (env : Env) (s : State)

theorem lowerNode_heeding (node : Node) : Heeding (lowerNode env node) :=
  lowerNode_related (heeding env).graded node fun x _ => Set.mem_univ x

/-- A walk that keeps a log ends where the walk without one does. -/
theorem lowerNode_watched (node : Node) :
    ((lowerNode env node : Watched Unit) s).2 = walked env node s := by
  have erases : Erases (lowerNode env node) (lowerNode env node) :=
    lowerNode_related (erasing env).graded node fun x _ => Set.mem_univ x
  exact congrArg Prod.snd (erases s)

/-- What a balanced walk does beyond the walk itself concerns the stack and faults. -/
theorem balanced_watched (kind : NodeKind) (span : Span) (w : Watched Unit) :
    balanced kind span w s =
      let expected := s.stack.length + if kind.isExpression then 1 else 0
      (((), (w s).1.2), (Lower.line (mend kind span expected (w s).2.stack.length) (w s).2).2) := by
  have same (s : State) : (⟨s.toNames, s.toGraph, s.notes ++ {}⟩ : State) = s := by
    rw [Notes.append_nil]
  have walked : balanced kind span w s =
    let begun : State := ⟨s.toNames, s.toGraph, s.notes ++ {}⟩
    let r := w begun
    let found : State := ⟨r.2.toNames, r.2.toGraph, r.2.notes ++ {}⟩
    let expected := s.stack.length + if kind.isExpression then 1 else 0
    (((), r.1.2 ++ {}), (Lower.line (mend kind span expected r.2.stack.length) found).2) := rfl
  rw [walked, same]
  dsimp only
  rw [same, Log.append_nil]

/-- To mend the stack takes no instruction. -/
theorem balanced_graph (kind : NodeKind) (span : Span) (w : Watched Unit) :
    (balanced kind span w s).1.2 = (w s).1.2 ∧
      (balanced kind span w s).2.toGraph = (w s).2.toGraph := by
  rw [balanced_watched]
  refine ⟨rfl, ?_⟩
  have none (expected found : Nat) (n : Names) : (mend kind span expected found n).insts = [] := by
    unfold mend
    split <;> rfl
  dsimp only [Lower.line]
  rw [none]
  rfl

/-- A balanced walk that has no value and leaves the stack alone is the walk. -/
theorem balanced_of_stack {kind : NodeKind} {span : Span} {w : Watched Unit}
    (hk : kind.isExpression = false) (hs : (w s).2.stack = s.stack) :
    balanced kind span w s = w s := by
  rw [balanced_watched, hs, hk]
  simp only [Bool.false_eq_true, if_false, Nat.add_zero, mend, ne_eq, not_true_eq_false]
  exact congrArg (fun notes => (((), (w s).1.2), State.mk _ _ notes)) (Notes.append_nil _)

/-- A node that jumps is balanced: a jump takes no value and leaves none. -/
theorem lowerNode_jump (kind : Jump) (span : Span) :
    (lowerNode env (.mk kind.node span) : Watched Unit) s =
      (Assembler.jumping kind span : Watched Unit) s := by
  have alone : (lowerNode env (.mk kind.node span) : Watched Unit) =
      balanced kind.node span (Assembler.jumping kind span) := by
    cases kind <;> rw [lowerNode, Jump.node, lowerKind]
  rw [alone]
  refine balanced_of_stack s (by cases kind <;> rfl) ?_
  rw [Watched.jumping_eq]
  split <;> rfl

/-- Where a loop is around it, a jump is noted down with its block. -/
theorem logged_jump (kind : Jump) (span : Span) (hs : kind.waiting s.toGraph ≠ []) :
    ((lowerNode env (.mk kind.node span) : Watched Unit) s).1.2 = kind.log s.blocks.length := by
  rw [lowerNode_jump, Watched.jumping_eq, if_neg (by simpa using hs)]

/-- Where there is no loop, a jump is a fault and nothing else. -/
theorem walked_jump (kind : Jump) (span : Span) (hs : kind.waiting s.toGraph = []) :
    walked env (.mk kind.node span) s =
      { s with notes := s.notes ++ { faults := [(kind.outside, span)] } } := by
  rw [← lowerNode_watched, lowerNode_jump, Watched.jumping_eq, if_pos (by simpa using hs)]

/-- A loop takes the jumps of its parts.  What follows it goes to the block behind the end of its
update. -/
theorem looping_log (kind : NodeKind) (span : Span) (check : Watched Value)
    (body update : Watched Unit) :
    ∃ e c n l, (balanced kind span (Assembler.looping check body update) s).1.2 =
        (Watched.parts check body update
          ⟨s.toNames, (beginLoop s.toGraph).2, s.notes⟩).1.2.closing e c n l ∧
      l + 1 = (balanced kind span (Assembler.looping check body update) s).2.blocks.length := by
  obtain ⟨log, graph⟩ := balanced_graph s kind span (Assembler.looping check body update)
  rw [log, graph]
  exact ⟨_, _, _, _, rfl, (endLoop_length _ _ _ _).symm⟩

theorem lowerNode_loop (condition body : Node) (update : Option Node) (span : Span) :
    ∃ e c n l, ((lowerNode env (.mk (.loop condition body update) span) : Watched Unit) s).1.2 =
        (Watched.parts (lowerCondition env condition) (lowerNode env body) (lowerUpdate env update)
          ⟨s.toNames, (beginLoop s.toGraph).2, s.notes⟩).1.2.closing e c n l ∧
      l + 1 = (walked env (.mk (.loop condition body update) span) s).blocks.length := by
  rw [← lowerNode_watched, lowerNode, lowerKind]
  exact looping_log s _ span _ _ _

end Trees

/-- What a watched walk over a node tells. -/
def logged (env : Env) (node : Node) (s : State) : Log :=
  ((lowerNode env node : Watched Unit) s).1.2

/-- Behind a function that is not pruned yet, all its loops are bound, and no jump is left that
belongs to no loop. -/
theorem walkFunction_loops (env : Env) (f : Func) (strings : List String)
    (debugInfo : Ir.DebugInfo) :
    ∃ loops, ((walkFunction env f : Watched Unit) { strings, debugInfo }).1.2 = { loops } ∧
      ∀ loop ∈ loops, loop.Bound (finalState env f strings debugInfo).toGraph := by
  let start : State := { strings, debugInfo }
  let r := (walkFunction env f : Watched Unit) start
  have erases : Erases (walkFunction env f) (walkFunction env f) :=
    walkFunction_related (erasing env) (fun x _ => Set.mem_univ x) (.noting _ _) (.noting _ _)
  have heeds : Heeds start.toGraph r.2.toGraph r.1.2 start.exits [] :=
    walkFunction_related (heeding env) (fun x _ => Set.mem_univ x) (.line _) (.line _) start
  have final : (finalState env f strings debugInfo).toGraph =
      (closeLast (fallback f) r.2.toGraph).2 := by
    have walked : (finalState env f strings debugInfo).toGraph =
      (closeLast (fallback f) ((walkFunction env f : Lower Unit) start).2.toGraph).2 := rfl
    rw [walked, ← erases start]
  have closed := heeds.watching.adds (.closeLast (fallback f) r.2.toGraph)
  refine ⟨r.1.2.loops, ?_, final ▸ closed.bound⟩
  have breaks := heeds.passes.noBreaks rfl
  have continues := heeds.passes.noContinues rfl
  exact congrArg₂ (Log.mk · · r.1.2.loops) breaks continues

/-- Jumps out of a loop and to its next round belong to the innermost loop around them.

Behind the walk over any node, from any state, and behind a function that is not pruned yet, all
loops that are inside are bound.  A loop takes all jumps of its parts that no loop inside of it has
taken, and leaves the lists of the loops around it as they were.  Where a loop is around it, a jump
is noted down with its block; where there is none, it is a fault and nothing else. -/
theorem jumps_belong_to_the_innermost_loop (env : Env) (s : State) (span : Span) :
    (∀ node, ((lowerNode env node : Watched Unit) s).2 = walked env node s ∧
      ∀ loop ∈ (logged env node s).loops, loop.Bound (walked env node s).toGraph) ∧
    (∀ condition body update,
      let node := Node.mk (.loop condition body update) span
      let begun : State := ⟨s.toNames, (beginLoop s.toGraph).2, s.notes⟩
      let parts := (Watched.parts (lowerCondition env condition) (lowerNode env body)
        (lowerUpdate env update) begun).1.2
      (∃ entry check next latch, logged env node s = parts.closing entry check next latch ∧
        latch + 1 = (walked env node s).blocks.length) ∧
      (walked env node s).breaks = s.breaks ∧ (walked env node s).continues = s.continues) ∧
    (∀ f strings debugInfo, ∃ loops,
      ((walkFunction env f : Watched Unit) { strings, debugInfo }).1.2 = { loops } ∧
      ∀ loop ∈ loops, loop.Bound (finalState env f strings debugInfo).toGraph) ∧
    (s.breaks ≠ [] → logged env (.mk .breakLoop span) s = { breaks := [s.blocks.length] }) ∧
    (s.continues ≠ [] →
      logged env (.mk .continueLoop span) s = { continues := [s.blocks.length] }) ∧
    (s.breaks = [] → walked env (.mk .breakLoop span) s =
      { s with notes := s.notes ++ { faults := [(.breakOutside, span)] } }) ∧
    (s.continues = [] → walked env (.mk .continueLoop span) s =
      { s with notes := s.notes ++ { faults := [(.continueOutside, span)] } }) := by
  refine ⟨fun node => ⟨lowerNode_watched env s node, ?_⟩, fun condition body update => ?_,
    walkFunction_loops env, logged_jump env s .out span, logged_jump env s .on span,
    walked_jump env s .out span, walked_jump env s .on span⟩
  · rw [← lowerNode_watched]
    exact (lowerNode_heeding env node s).watching.bound
  · have passes := (lowerNode_heeding env (.mk (.loop condition body update) span) s).passes
    obtain ⟨e, c, n, l, log, latch⟩ := lowerNode_loop env s condition body update span
    rw [log, lowerNode_watched] at passes
    refine ⟨⟨e, c, n, l, log, latch⟩, ?_, ?_⟩
    · simpa [Log.closing, pendings, modifyHead_self] using passes.breaks
    · simpa [Log.closing, pendings, modifyHead_self] using passes.continues

namespace Sample

open Codegen.Sample

/-- A loop that goes on from an arm of a branch and else leaves, inside of a loop that leaves from a
case of a switch and else goes on. -/
def nested : Node := node <| .loop (invoke "more" bool [])
  (node <| .block
    [ node <| .loop (invoke "done" bool [])
        (node <| .block
          [ node <| .branch [.mk (some (invoke "more" bool [])) (node .continueLoop) {}],
            node .breakLoop ])
        none,
      node <| .switch (invoke "next" i64 []) [.mk 1 (node .breakLoop) {}]
        (some (node .continueLoop)) ])
  none

/-- A state in a loop that has no jumps yet. -/
def inLoop : State := { breaks := [[]], continues := [[]] }

end Sample

theorem nested_loops_take_their_own_jumps :
    let inner : LoopTrace := ⟨3, 3, 9, 9, [7], [5]⟩
    let outer : LoopTrace := ⟨1, 1, 16, 16, [11], [13]⟩
    (logged Sample.env Sample.nested {} = { loops := [inner, outer] } ∧
      inner.Bound (walked Sample.env Sample.nested {}).toGraph ∧
      outer.Bound (walked Sample.env Sample.nested {}).toGraph) ∧
    (Sample.inLoop.breaks ≠ [] ∧ Sample.inLoop.continues ≠ [] ∧
      logged Sample.env (.mk .breakLoop {}) Sample.inLoop = { breaks := [0] } ∧
      logged Sample.env (.mk .continueLoop {}) Sample.inLoop = { continues := [0] }) ∧
    ({} : State).breaks = [] ∧ ({} : State).continues = [] ∧
      walked Sample.env (.mk .breakLoop {}) {} =
        { notes := { faults := [(.breakOutside, {})] } } ∧
      walked Sample.env (.mk .continueLoop {}) {} =
        { notes := { faults := [(.continueOutside, {})] } } := by
  intro inner outer
  obtain ⟨walks, -, -, -, -, noBreak, noContinue⟩ :=
    jumps_belong_to_the_innermost_loop Sample.env {} {}
  obtain ⟨-, -, -, out, on, -⟩ := jumps_belong_to_the_innermost_loop Sample.env Sample.inLoop {}
  have log : logged Sample.env Sample.nested {} = { loops := [inner, outer] } := by decide +kernel
  have bound := (walks Sample.nested).2
  rw [log] at bound
  have hb : Sample.inLoop.breaks ≠ [] := by decide
  have hc : Sample.inLoop.continues ≠ [] := by decide
  exact ⟨⟨log, bound inner (by simp), bound outer (by simp)⟩, ⟨hb, hc, out hb, on hc⟩, rfl, rfl,
    noBreak rfl, noContinue rfl⟩

end Codegen.Lowering
