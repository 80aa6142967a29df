import Codegen.Proofs.Instructions
import Codegen.Proofs.LoopJumps

/-!
# Nested constructs are restored

Blocks open scopes, branches and loops start lists of jumps, and each of them ends what it began,
also where the tree is not well formed: a fault never leaves a construct half-way.  So the walk over
a node, from any state, leaves everything around the node as it was.  Locals come into the
innermost scope only, jumps into the lists of the innermost loop, and all else that is known so far
stays.
-/

namespace Codegen.Lowering

open Ir (Inst Value Label Terminator Block)

variable {α β : Type}

/-! ## Straight-line steps -/

/-- Inside of a scope, locals come into the innermost scope only.  No counter goes back, and string
constants stay in front of new ones. -/
structure Names.Nests (n n' : Names) : Prop where
  scopes : n.scopes ≠ [] → n.Binds n'
  temps : n.nextTemp ≤ n'.nextTemp
  locals : n.nextLocal ≤ n'.nextLocal
  arrays : n.nextArray ≤ n'.nextArray
  strings : n.strings <+: n'.strings

namespace Names.Nests

variable {n n' n'' : Names}

theorem refl (n : Names) : n.Nests n :=
  ⟨fun _ => .of_scopes_eq rfl, le_rfl, le_rfl, le_rfl, List.prefix_rfl⟩

theorem trans (h : n.Nests n') (h' : n'.Nests n'') : n.Nests n'' where
  scopes hn := (h.scopes hn).trans (h'.scopes ((h.scopes hn).scopes_ne_nil hn))
  temps := h.temps.trans h'.temps
  locals := h.locals.trans h'.locals
  arrays := h.arrays.trans h'.arrays
  strings := h.strings.trans h'.strings

end Names.Nests

/-- A straight-line step that opens and closes no scope. -/
def Line.Nests (step : Line α) : Prop := ∀ n : Names, n.Nests (step n).names

namespace Line.Nests

theorem bind {x : Line α} {f : α → Line β} (hx : Nests x) (hf : ∀ a, Nests (f a)) :
    Nests (x >>= f) := fun n => (hx n).trans (hf _ _)

theorem quiet {step : Line α} (h : Quiet step) : Nests step := fun n =>
  { scopes := h.scopes n
    temps := (h.nextTemp n).ge
    locals := (h.nextLocal n).ge
    arrays := (h.nextArray n).ge
    strings := (h.strings n).symm ▸ List.prefix_rfl }

theorem emit (inst : Inst) : Nests (emit inst) := .refl

theorem addSlot (name type : String) : Nests (addSlot name type) := .refl

theorem temp : Nests temp := fun n => { Names.Nests.refl n with temps := Nat.le_succ _ }

theorem freshLocal (name : String) : Nests (freshLocal name) := fun n =>
  { Names.Nests.refl n with locals := Nat.le_succ _ }

theorem freshArray : Nests freshArray := fun n =>
  { Names.Nests.refl n with arrays := Nat.le_succ _ }

theorem internString (text : String) : Nests (internString text) := fun n =>
  { Names.Nests.refl n with strings := Ir.prefix_intern n.strings text }

theorem addLocation (env : Env) (span : Span) : Nests (addLocation env span) := by
  unfold Lowering.addLocation
  cases env.record with
  | some scope => exact fun n => { Names.Nests.refl n with }
  | none => exact .refl

theorem pushString (literal : String) (type : Ty) : Nests (pushString literal type) :=
  (internString literal).bind fun _ => temp.bind fun _ => (emit _).bind fun _ => quiet (.push _)

end Line.Nests

/-- All straight-line steps of a walk inside of a scope nest. -/
def nesting (env : Env) : StepProperty env Set.univ where
  Holds := Line.Nests
  quiet := .quiet
  bind := .bind
  write _ _ := .emit _
  computed _ _ := Line.Nests.temp.bind fun _ => (Line.Nests.emit _).bind fun _ => .quiet (.pure _)
  hidden _ := Line.Nests.temp.bind fun _ => (Line.Nests.addSlot _ _).bind fun _ =>
    (Line.Nests.emit _).bind fun _ => .quiet (.pure _)
  array _ _ _ := Line.Nests.freshArray.bind fun _ => (Line.Nests.addSlot _ _).bind fun _ =>
    (Line.Nests.emit _).bind fun _ => .quiet (.pure _)
  define _ _ := (Line.Nests.freshLocal _).bind fun _ => (Line.Nests.addSlot _ _).bind fun _ =>
    .quiet (.pure _)
  call _ _ _ _ span := (Line.Nests.addLocation env span).bind fun _ => .emit _
  result _ _ _ _ span := Line.Nests.temp.bind fun _ => (Line.Nests.addLocation env span).bind
    fun _ => (Line.Nests.emit _).bind fun _ => .quiet (.pure _)

/-! ## Block steps -/

/-- What a block step keeps: no label is taken back, and no instruction comes or goes. -/
structure Graph.Keeps (g g' : Graph) : Prop where
  labels : g.nextLabel ≤ g'.nextLabel
  insts : g'.insts = g.insts

theorem Graph.Keeps.trans {g g' g'' : Graph} (h : g.Keeps g') (h' : g'.Keeps g'') : g.Keeps g'' :=
  ⟨h.labels.trans h'.labels, h'.insts.trans h.insts⟩

/-- Changes of terminators concern no instruction. -/
theorem Graph.Keeps.of_map_insts {g : Graph} {blocks : List Block}
    (h : blocks.map Block.insts = g.blocks.map Block.insts) : g.Keeps { g with blocks } := by
  refine ⟨le_rfl, ?_⟩
  change blocks.flatMap Block.insts ++ _ = _
  rw [List.flatMap_def, h, ← List.flatMap_def]
  rfl

theorem Composed.keeps {x : Build α} (h : Composed x) (g : Graph) : g.Keeps (x g).2 := by
  induction h generalizing g with
  | bind _ _ ihx ihf => exact (ihx g).trans (ihf _ _)
  | freshLabel => exact ⟨Nat.le_succ _, rfl⟩
  | finishBlock t =>
    cases hc : g.current with
    | none =>
      rw [finishBlock_closed hc]
      exact ⟨Nat.le_succ _, by simp [Graph.insts, hc]⟩
    | some b =>
      rw [finishBlock_open hc]
      exact ⟨le_rfl, by simp [Graph.insts, hc, OpenBlock.close]⟩
  | startBlock label comment =>
    obtain ⟨blocks, current, nextLabel, exits, breaks, continues⟩ := g
    cases current with
    | none => exact ⟨le_rfl, rfl⟩
    | some b =>
      refine ⟨le_rfl, ?_⟩
      change (blocks ++ [b.close (.goto (some label))]).flatMap Block.insts ++ [] = _
      simp [Graph.insts, OpenBlock.close]
  | patchAll jumps label => exact .of_map_insts (map_fillAll (fun _ _ _ => rfl) label jumps _)
  | addCase switch value label =>
    have same (b : Block) : (withCase value label b).insts = b.insts := rfl
    exact .of_map_insts (map_modify_of_eq same _ switch)
  | pure | isClosed | addExit | addBreak | addContinue
  | pushExits | popExits | pushLoop | popLoop => exact ⟨le_rfl, rfl⟩

theorem labels_appendAll (insts : List Inst) (g : Graph) :
    g.nextLabel ≤ (appendAll insts g).2.nextLabel := by
  induction insts generalizing g with
  | nil => exact le_rfl
  | cons inst insts ih =>
    have first : g.nextLabel ≤ (append inst g).2.nextLabel :=
      ((Composed.ensureOpen "unreachable").keeps g).labels
    exact first.trans (ih _)

/-! ## Walks -/

/-- What is left of a state behind a walk: besides the names, labels are not taken back, and
instructions and notes stay. -/
structure State.Nests (s s' : State) : Prop where
  names : s.toNames.Nests s'.toNames
  labels : s.nextLabel ≤ s'.nextLabel
  insts : s.insts <+: s'.insts
  slots : s.notes.slots <+: s'.notes.slots
  faults : s.notes.faults <+: s'.notes.faults

namespace State.Nests

theorem refl (s : State) : s.Nests s :=
  ⟨.refl s.toNames, le_rfl, List.prefix_rfl, List.prefix_rfl, List.prefix_rfl⟩

theorem trans {s s' s'' : State} (h : s.Nests s') (h' : s'.Nests s'') : s.Nests s'' :=
  ⟨h.names.trans h'.names, h.labels.trans h'.labels, h.insts.trans h'.insts,
    h.slots.trans h'.slots, h.faults.trans h'.faults⟩

end State.Nests

/-- A walk that closes the scopes which it opens. -/
def Lower.Nests (x : Lower α) : Prop := ∀ s : State, s.Nests (x s).2

namespace Lower.Nests

theorem pure (a : α) : Nests (Pure.pure a) := .refl

theorem bind {x : Lower α} {f : α → Lower β} (hx : Nests x) (hf : ∀ a, Nests (f a)) :
    Nests (x >>= f) := fun s => (hx s).trans (hf _ _)

theorem line {step : Line α} (h : step.Nests) : Nests (Assembler.line step) := fun s =>
  ⟨h s.toNames, labels_appendAll _ _, ⟨_, (insts_appendAll _ _).symm⟩, List.prefix_append _ _,
    List.prefix_append _ _⟩

theorem build {step : Build α} (h : Composed step) : Nests (liftM step) := fun s =>
  have keeps := h.keeps s.toGraph
  { State.Nests.refl s with
    labels := keeps.labels
    insts := ⟨[], (List.append_nil _).trans keeps.insts.symm⟩ }

/-- A scope of its own takes all locals of what is inside, and is closed behind it. -/
theorem enclosed {x : Lower Unit} (h : Nests x) :
    Nests (do Assembler.line pushScope; x; Assembler.line popScope) := by
  intro s
  let begun : State := { s with scopes := [] :: s.scopes }
  let ended : State := (x begun).2
  have inside : begun.Nests ended := h begun
  have outer : ended.scopes.tail = s.scopes :=
    (inside.names.scopes (List.cons_ne_nil _ _)).tail_eq
  have opened : Lower.line pushScope s = ((), begun) :=
    congrArg (fun notes => ((), State.mk _ _ notes)) (Notes.append_nil s.notes)
  have closed : Lower.line popScope ended = ((), { ended with scopes := ended.scopes.tail }) :=
    congrArg (fun notes => ((), State.mk _ _ notes)) (Notes.append_nil ended.notes)
  have walked : (do Assembler.line pushScope; x; Assembler.line popScope : Lower Unit) s =
      Lower.line popScope (x (Lower.line pushScope s).2).2 := rfl
  rw [walked, opened, closed]
  exact { inside with names := { inside.names with scopes := fun _ => .of_scopes_eq outer } }

theorem guarded (isAnd : Bool) (cond : Value) {x : Lower Unit} (h : Nests x) :
    Nests (Assembler.guarded isAnd cond x) :=
  (build (.branchOn _ _ _)).bind fun _ => h.bind fun _ =>
    build (.endGuard isAnd _)

theorem arms {walks others : List (ArmWalk Lower)}
    (h : List.Forall₂ (ArmWalk.Related fun _ x _ => Nests x) walks others) :
    Nests (arms walks) := by
  induction h with
  | nil => exact pure ()
  | cons hwalk _ behind =>
    cases hwalk with
    | always hbody => exact hbody.bind fun _ => (build .endArm).bind fun _ => behind
    | when hcheck hbody =>
      exact hcheck.bind fun _ => (build (.branchOn _ _ _)).bind fun _ => hbody.bind fun _ =>
        (build .endArm).bind fun _ => (build (.elseArm _ _)).bind fun _ => behind

theorem branching {walks others : List (ArmWalk Lower)}
    (h : List.Forall₂ (ArmWalk.Related fun _ x _ => Nests x) walks others) :
    Nests (Assembler.branching walks) :=
  (build .pushExits).bind fun _ => (arms h).bind fun _ => build .endBranch

theorem cases (switch : Nat) (exits : List Pending) {walks others : List (Int × Lower Unit)}
    (h : List.Forall₂ (fun x y => x.1 = y.1 ∧ Nests x.2) walks others) :
    Nests (cases switch exits walks) := by
  induction h generalizing exits with
  | nil => exact pure exits
  | cons hwalk _ ih =>
    exact (build (.beginCase _ _)).bind fun _ => hwalk.2.bind fun _ =>
      (build (.endCase exits)).bind fun exits => ih exits

theorem switching (value : Value) (type : String) {walks others : List (Int × Lower Unit)}
    (h : List.Forall₂ (fun x y => x.1 = y.1 ∧ Nests x.2) walks others)
    {otherwise other : Option (Lower Unit)}
    (ho : Option.Rel (fun x _ => Nests x) otherwise other) :
    Nests (Assembler.switching value type walks otherwise) := by
  refine (build (.finishBlock _)).bind fun switch => (cases switch [] h).bind fun exits =>
    (build (.join _ _)).bind fun default => ?_
  cases ho with
  | some hbody =>
    exact hbody.bind fun _ => (build (.endCase exits)).bind fun _ => build (.endSwitch _)
  | none => exact build (.patchAll _ _)

theorem looping {check : Lower Value} {body update : Lower Unit} (hcheck : Nests check)
    (hbody : Nests body) (hupdate : Nests update) :
    Nests (Assembler.looping check body update) :=
  (build .beginLoop).bind fun _ => hcheck.bind fun _ => (build (.branchOn _ _ _)).bind fun _ =>
    hbody.bind fun _ => (build .beginUpdate).bind fun _ => hupdate.bind fun _ =>
      build (.endLoop _ _ _)

theorem jumping (kind : Jump) (span : Span) : Nests (Assembler.jumping kind span) := by
  intro s
  rw [jumping_run]
  split
  · exact line (.quiet (.fault span kind.outside)) s
  · exact build (.leaveLoop kind) s

theorem returning (type : String) (value : Option Value) :
    Nests (Assembler.returning type value) :=
  build (.leave type value)

end Lower.Nests

/-- Walks nest, whatever they walk over: a block is the only place where a scope is opened, and it
closes it whatever is inside. -/
def nestingWalks (env : Env) : WalkRelation .stay env env.record Set.univ Lower Lower where
  Relates x _ := Lower.Nests x
  pure := .pure
  bind := .bind
  line h := .line ((nesting env).built h.built)
  string literal type := .line (.pushString literal type)
  enclosed := .enclosed
  guarded isAnd cond _ _ := .guarded isAnd cond
  branching := .branching
  switching _ _ _ _ _ h _ _ ho :=
    (Lower.Nests.line ((nesting env).built (.switchOperand _ _ _))).bind fun _ =>
      .switching _ _ h ho
  looping := .looping
  jumping := .jumping
  returning _ := .returning _

/-! ## Trees -/

variable (env : Env)

theorem lowerNode_nests (node : Node) (s : State) : s.Nests (walked env node s) :=
  lowerNode_related (nestingWalks env).graded node (fun x _ => Set.mem_univ x) s

/-- What the walk over a node leaves around it.  No scope and no list of jumps is added or taken
away: only the innermost scope gets locals, only the lists of the innermost loop get jumps, at their
ends, and the jumps behind branches stay as they were.  No counter goes back, and blocks that are
finished, stack slots and faults stay in front of the new ones. -/
structure State.Restores (s s' : State) : Prop where
  scopes : ∃ new, s'.scopes = s.scopes.modifyHead (new ++ ·)
  exits : s'.exits = s.exits
  breaks : ∃ new, s'.breaks = s.breaks.modifyHead (· ++ new)
  continues : ∃ new, s'.continues = s.continues.modifyHead (· ++ new)
  labels : s.nextLabel ≤ s'.nextLabel
  temps : s.nextTemp ≤ s'.nextTemp
  locals : s.nextLocal ≤ s'.nextLocal
  arrays : s.nextArray ≤ s'.nextArray
  blocks : s.blocks <+: s'.blocks
  slots : s.notes.slots <+: s'.notes.slots
  faults : s.notes.faults <+: s'.notes.faults

/-- The walk over any node, well formed or not, from any state inside of a scope restores the
constructs around the node: scopes and lists of jumps are as many as before, and all but the
innermost ones are the same. -/
theorem nested_constructs_are_restored (node : Node) {s : State} (h : s.scopes ≠ []) :
    s.Restores (walked env node s) ∧
      ((walked env node s).scopes.length = s.scopes.length ∧
        (walked env node s).scopes.tail = s.scopes.tail) ∧
      ((walked env node s).breaks.length = s.breaks.length ∧
        (walked env node s).breaks.tail = s.breaks.tail) ∧
      (walked env node s).continues.length = s.continues.length ∧
        (walked env node s).continues.tail = s.continues.tail := by
  have nests := lowerNode_nests env node s
  have heeds := lowerNode_heeding env node s
  rw [lowerNode_watched] at heeds
  have same {α : Type} {f : α → α} {l l' : List α} (h : l' = l.modifyHead f) :
      l'.length = l.length ∧ l'.tail = l.tail := by
    rw [h]
    cases l <;> simp
  obtain ⟨_, scopes⟩ := nests.names.scopes h
  exact ⟨⟨nests.names.scopes h, heeds.exits, ⟨_, heeds.passes.breaks⟩, ⟨_, heeds.passes.continues⟩,
    nests.labels, nests.names.temps, nests.names.locals, nests.names.arrays, heeds.watching.blocks,
    nests.slots, nests.faults⟩, same scopes, same heeds.passes.breaks, same heeds.passes.continues⟩

namespace Sample

open Codegen.Sample

/-- A block in a block with definitions, a jump out of a loop, a link without a chain and a branch
whose arm without a condition comes first. -/
def disorder : Node := node <| .block
  [ node <| .define "a" i64 (number "1"),
    node <| .block [node <| .define "b" i64 (number "2"), node .breakLoop],
    node <| .callIndex i64 (number "3"),
    node <| .branch
      [.mk none (node .continueLoop) {}, .mk (some (number "4")) (node .breakLoop) {}] ]

/-- A state in two scopes, a branch and two loops, with jumps that wait. -/
def surrounded : State :=
  { scopes := [[("i", "i.0")], [("n", "n.slot")]]
    blocks := [⟨1, "", [], .goto none⟩], nextLabel := 2, nextLocal := 1
    exits := [[⟨0, .goto⟩]], breaks := [[⟨0, .goto⟩], []], continues := [[], [⟨0, .goto⟩]] }

end Sample

theorem disorder_restores_its_surroundings :
    Sample.surrounded.scopes ≠ [] ∧
      Sample.surrounded.Restores (walked Sample.env Sample.disorder Sample.surrounded) ∧
      (walked Sample.env Sample.disorder Sample.surrounded).notes.faults.length = 2 ∧
      (walked Sample.env Sample.disorder Sample.surrounded).breaks =
        [[⟨0, .goto⟩, ⟨1, .goto⟩, ⟨5, .goto⟩], []] := by
  have inside : Sample.surrounded.scopes ≠ [] := by decide
  have faults : (walked Sample.env Sample.disorder Sample.surrounded).notes.faults.length = 2 := by
    decide +kernel
  have breaks : (walked Sample.env Sample.disorder Sample.surrounded).breaks =
      [[⟨0, .goto⟩, ⟨1, .goto⟩, ⟨5, .goto⟩], []] := by decide +kernel
  exact ⟨inside, (nested_constructs_are_restored Sample.env Sample.disorder inside).1, faults,
    breaks⟩

end Codegen.Lowering
