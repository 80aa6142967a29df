import Codegen.Proofs.Steps
import Codegen.Proofs.TwoRuns.Lines
import Mathlib.Data.Option.Basic

/-!
# Two runs of a function

No step that works on blocks looks at the instructions in them (`Oblivious`).  So two walks whose
instructions are alike build blocks that are alike (`Lower.Alike`), and the functions that come out
of them are alike too, whatever the modules were that they started from: `lowerFunction_alike`.
-/

namespace Codegen

namespace Ir

/-- Label, comment and terminator of a block. -/
def Block.outline (b : Block) : Block := { b with insts := [] }

/-- Blocks that differ in nothing but their instructions, and in those only by `R`. -/
structure Block.Alike (R : Inst → Inst → Prop) (b b' : Block) : Prop where
  outline : b'.outline = b.outline
  insts : List.Forall₂ R b.insts b'.insts

namespace Block.Alike

variable {R : Inst → Inst → Prop} {b b' : Block} (h : b.Alike R b')

include h

theorem label : b'.label = b.label := by
  have same := congrArg Block.label h.outline
  exact same

theorem mono {R' : Inst → Inst → Prop} (hR : ∀ i i', R i i' → R' i i') : b.Alike R' b' :=
  ⟨h.outline, h.insts.imp hR⟩

/-- A new terminator, made from the one before. -/
theorem setTerminator (f : Terminator → Terminator) :
    Block.Alike R { b with terminator := f b.terminator }
      { b' with terminator := f b'.terminator } where
  outline := congrArg (fun o : Block => { o with terminator := f o.terminator }) h.outline
  insts := h.insts

end Block.Alike

/-! ## Reachable blocks -/

/-- Which labels can be reached does not depend on instructions. -/
theorem Function.reachable_outline (f : Function) :
    ({ f with blocks := f.blocks.map Block.outline } : Function).reachable = f.reachable := by
  have entry : ({ f with blocks := f.blocks.map Block.outline } : Function).hasEntry =
      f.hasEntry := by
    simp [Function.hasEntry, Function.comp_def, Block.outline]
  have mentioned : ({ f with blocks := f.blocks.map Block.outline } : Function).mentioned =
      f.mentioned := by
    simp only [Function.mentioned, List.flatMap_map]
    rfl
  have successors : ({ f with blocks := f.blocks.map Block.outline } : Function).successors =
      f.successors := by
    funext l
    have filtered : (f.blocks.map Block.outline).filter (fun b => b.label = l) =
      (f.blocks.filter fun b => b.label = l).map Block.outline := List.filter_map ..
    rw [Function.successors, Function.blockAt?, filtered, List.getLast?_map, Option.map_map]
    rfl
  rw [Function.reachable, Function.reachable, entry, mentioned, successors]

theorem Function.reachable_congr {f f' : Function}
    (h : f'.blocks.map Block.outline = f.blocks.map Block.outline) :
    f'.reachable = f.reachable := by
  rw [← f.reachable_outline, ← f'.reachable_outline, h]
  rfl

/-- Functions that differ in nothing but their places, their debug records and the instructions in
their blocks, and in those only by `R`. -/
structure Function.Alike (r : Relocation) (R : Inst → Inst → Prop) (f f' : Function) : Prop where
  head : { f' with blocks := [], record := none } =
    { f with blocks := [], record := none, span := r.span f.span, file := r.file f.file }
  blocks : List.Forall₂ (Block.Alike R) f.blocks f'.blocks

theorem Function.Alike.mono {r : Relocation} {R R' : Inst → Inst → Prop} {f f' : Function}
    (h : f.Alike r R f') (hR : ∀ i i', R i i' → R' i i') : f.Alike r R' f' :=
  ⟨h.head, h.blocks.imp fun _ _ hb => hb.mono hR⟩

theorem Function.Alike.outlines {r : Relocation} {R : Inst → Inst → Prop} {f f' : Function}
    (h : f.Alike r R f') : f'.blocks.map Block.outline = f.blocks.map Block.outline :=
  map_eq_map_of_forall₂ h.blocks fun _ _ hb => hb.outline

theorem Function.Alike.prune {r : Relocation} {R : Inst → Inst → Prop} {f f' : Function}
    (h : f.Alike r R f') : f.prune.Alike r R f'.prune where
  head := h.head
  blocks := by
    have reached := Function.reachable_congr h.outlines
    refine List.rel_filter (fun b b' hb => ?_) h.blocks
    beta_reduce
    rw [reached, hb.label]

end Ir

namespace Lowering

open Ir (Inst Value Label Terminator Block)

variable {α β : Type} {R : Inst → Inst → Prop}

/-! ## Blocks in progress -/

structure OpenBlock.Alike (R : Inst → Inst → Prop) (b b' : OpenBlock) : Prop where
  label : b'.label = b.label
  comment : b'.comment = b.comment
  insts : List.Forall₂ R b.insts b'.insts

theorem OpenBlock.Alike.close {b b' : OpenBlock} (h : b.Alike R b') (t : Terminator) :
    (b.close t).Alike R (b'.close t) where
  outline := by
    change Block.mk b'.label b'.comment [] t = _
    rw [h.label, h.comment]
    rfl
  insts := h.insts

/-- The same graph with other instructions in its blocks. -/
inductive Graph.Alike (R : Inst → Inst → Prop) (g : Graph) : Graph → Prop where
  | mk {blocks : List Block} {current : Option OpenBlock}
      (hb : List.Forall₂ (Block.Alike R) g.blocks blocks)
      (hc : Option.Rel (OpenBlock.Alike R) g.current current) :
    Alike R g { g with blocks, current }

theorem Graph.Alike.mono {R' : Inst → Inst → Prop} {g g' : Graph} (h : g.Alike R g')
    (hR : ∀ i i', R i i' → R' i i') : g.Alike R' g' := by
  obtain ⟨hb, hc⟩ := h
  refine ⟨hb.imp fun _ _ h => h.mono hR, ?_⟩
  generalize g.current = current at hc
  cases hc with
  | none => exact .none
  | some h => exact .some ⟨h.label, h.comment, h.insts.imp hR⟩

theorem Graph.Alike.breaks {g g' : Graph} (h : g.Alike R g') : g'.breaks = g.breaks := by
  cases h
  rfl

theorem Graph.Alike.continues {g g' : Graph} (h : g.Alike R g') : g'.continues = g.continues := by
  cases h
  rfl

theorem Graph.Alike.blocks {g g' : Graph} (h : g.Alike R g') :
    List.Forall₂ (Block.Alike R) g.blocks g'.blocks := by
  cases h with
  | mk hb _ => exact hb

/-- A step that does not look at the instructions in blocks. -/
def Oblivious (x : Build α) : Prop :=
  ∀ ⦃R : Inst → Inst → Prop⦄ ⦃g g' : Graph⦄, g.Alike R g' →
    (x g').1 = (x g).1 ∧ (x g).2.Alike R (x g').2

namespace Oblivious

theorem pure (a : α) : Oblivious (Pure.pure a) := fun _ _ _ h => ⟨rfl, h⟩

theorem bind {x : Build α} {f : α → Build β} (hx : Oblivious x) (hf : ∀ a, Oblivious (f a)) :
    Oblivious (x >>= f) := by
  intro R g g' h
  obtain ⟨value, after⟩ := hx h
  have ran : (x >>= f) g' = f (x g').1 (x g').2 := rfl
  rw [ran, value]
  exact hf _ after

/-! ### Basic steps -/

theorem freshLabel : Oblivious freshLabel := by
  rintro R g _ ⟨hb, hc⟩
  exact ⟨rfl, hb, hc⟩

theorem isClosed : Oblivious isClosed := by
  rintro R ⟨blocks, current, next, exits, breaks, continues⟩ _ ⟨hb, hc⟩
  cases hc with
  | none => exact ⟨rfl, hb, .none⟩
  | some h => exact ⟨rfl, hb, .some h⟩

theorem finishBlock (t : Terminator) : Oblivious (finishBlock t) := by
  rintro R ⟨blocks, current, next, exits, breaks, continues⟩ _ ⟨hb, hc⟩
  cases hc with
  | none => exact ⟨hb.length_eq.symm, List.rel_append hb (.cons ⟨rfl, .nil⟩ .nil), .none⟩
  | some h => exact ⟨hb.length_eq.symm, List.rel_append hb (.cons (h.close t) .nil), .none⟩

theorem startBlock (label : Label) (comment : String) : Oblivious (startBlock label comment) := by
  rintro R ⟨blocks, current, next, exits, breaks, continues⟩ _ ⟨hb, hc⟩
  have opened : OpenBlock.Alike R { label, comment } { label, comment } := ⟨rfl, rfl, .nil⟩
  cases hc with
  | none => exact ⟨rfl, hb, .some opened⟩
  | some h => exact ⟨rfl, List.rel_append hb (.cons (h.close _) .nil), .some opened⟩

/-- Changes of terminators. -/
theorem modifyBlock (f : Terminator → Terminator) (i : Nat) {bs bs' : List Block}
    (h : List.Forall₂ (Block.Alike R) bs bs') :
    List.Forall₂ (Block.Alike R)
      (bs.modify i fun b => { b with terminator := f b.terminator })
      (bs'.modify i fun b => { b with terminator := f b.terminator }) := by
  induction h generalizing i with
  | nil => cases i <;> exact .nil
  | cons hb hbs ih =>
    cases i with
    | zero => exact .cons (hb.setTerminator f) hbs
    | succ i => exact .cons hb (ih i)

theorem patchAll (jumps : List Pending) (label : Label) : Oblivious (patchAll jumps label) := by
  have filled {R : Inst → Inst → Prop} {bs bs' : List Block}
      (h : List.Forall₂ (Block.Alike R) bs bs') :
      List.Forall₂ (Block.Alike R) (fillAll label jumps bs) (fillAll label jumps bs') := by
    induction jumps generalizing bs bs' with
    | nil => exact h
    | cons jump jumps ih => exact ih (modifyBlock (fillTarget jump.slot label) jump.block h)
  rintro R g _ ⟨hb, hc⟩
  exact ⟨rfl, filled hb, hc⟩

theorem addCase (switch : Nat) (value : Int) (label : Label) :
    Oblivious (addCase switch value label) := by
  rintro R g _ ⟨hb, hc⟩
  exact ⟨rfl, modifyBlock (appendCase value label) switch hb, hc⟩

end Oblivious

/-- No step that is composed of basic ones looks at instructions. -/
theorem Composed.oblivious {x : Build α} (h : Composed x) : Oblivious x := by
  induction h with
  | pure a => exact .pure a
  | bind _ _ ihx ihf => exact .bind ihx ihf
  | freshLabel => exact .freshLabel
  | isClosed => exact .isClosed
  | finishBlock t => exact .finishBlock t
  | startBlock label comment => exact .startBlock label comment
  | patchAll jumps label => exact .patchAll jumps label
  | addCase switch value label => exact .addCase switch value label
  | addExit | addBreak | addContinue | pushExits | popExits | pushLoop | popLoop =>
    rintro R g _ ⟨hb, hc⟩
    exact ⟨rfl, hb, hc⟩

theorem Graph.Alike.append {g g' : Graph} (h : g.Alike R g') {i i' : Inst} (hi : R i i') :
    (append i g).2.Alike R (append i' g').2 := by
  have added {g g' : Graph} (h : g.Alike R g') :
      Graph.Alike R
        { g with current := g.current.map fun b => { b with insts := b.insts ++ [i] } }
        { g' with current := g'.current.map fun b => { b with insts := b.insts ++ [i'] } } := by
    obtain ⟨blocks, current, next, exits, breaks, continues⟩ := g
    obtain ⟨hb, hc⟩ := h
    cases hc with
    | none => exact ⟨hb, .none⟩
    | some h => exact ⟨hb, .some ⟨h.label, h.comment, List.rel_append h.insts (.cons hi .nil)⟩⟩
  exact added ((Composed.ensureOpen "unreachable").oblivious h).2

theorem Graph.Alike.appendAll {g g' : Graph} (h : g.Alike R g') {is is' : List Inst}
    (hi : List.Forall₂ R is is') : (appendAll is g).2.Alike R (appendAll is' g').2 := by
  induction hi generalizing g g' with
  | nil => exact h
  | cons hi _ ih => exact ih (h.append hi)

/-! ## Walks -/

/-- The state of two runs.  The constants of a module are never taken away: those that were there
at the start, `base` and `base'`, still stand in front. -/
structure State.Alike (r : Relocation) (shared : Prop) (base base' : List String) (s s' : State) :
    Prop where
  names : s.toNames.Alike shared s'.toNames
  graph : s.toGraph.Alike (Inst.Alike shared s.strings s'.strings) s'.toGraph
  notes : s'.notes = s.notes.relocate r
  grows : base <+: s.strings
  grows' : base' <+: s'.strings

/-- Walks that do the same in two runs. -/
def Lower.Alike (r : Relocation) (shared : Prop) (x x' : Lower α) : Prop :=
  ∀ ⦃base base' : List String⦄ ⦃s s' : State⦄, s.Alike r shared base base' s' →
    (x' s').1 = (x s).1 ∧ (x s).2.Alike r shared base base' (x' s').2

namespace Lower.Alike

variable {r : Relocation} {shared : Prop}

theorem pure (a : α) : Alike r shared (Pure.pure a) (Pure.pure a) := fun _ _ _ _ h => ⟨rfl, h⟩

theorem bind {x x' : Lower α} {f f' : α → Lower β} (hx : Alike r shared x x')
    (hf : ∀ a, Alike r shared (f a) (f' a)) : Alike r shared (x >>= f) (x' >>= f') := by
  intro base base' s s' h
  obtain ⟨value, after⟩ := hx h
  have ran : (x' >>= f') s' = f' (x' s').1 (x' s').2 := rfl
  rw [ran, value]
  exact hf _ after

/-- A step on blocks. -/
theorem build {x : Build α} (hx : Composed x) :
    Alike r shared (liftM x : Lower α) (liftM x : Lower α) := by
  intro base base' s s' h
  obtain ⟨value, after⟩ := hx.oblivious h.graph
  exact ⟨value, h.names, after, h.notes, h.grows, h.grows'⟩

theorem line {x x' : Line α} (hx : Line.Alike r shared x x') :
    Alike r shared (Lower.line x) (Lower.line x') := by
  intro base base' s s' h
  have ran := hx h.names
  have before := h.graph.mono fun _ _ h => h.mono ran.grows ran.grows'
  exact ⟨ran.value, {
    names := ran.names
    graph := before.appendAll ran.insts
    notes := by
      change s'.notes ++ (x' s'.toNames).notes = _
      rw [h.notes, ran.notes, ← Notes.relocate_append]
      rfl
    grows := h.grows.trans ran.grows
    grows' := h.grows'.trans ran.grows' }⟩

theorem arms {xs xs' : List (ArmWalk Lower)}
    (h : List.Forall₂ (ArmWalk.Related fun _ => Alike r shared) xs xs') :
    Alike r shared (arms xs) (arms xs') := by
  induction h with
  | nil => exact pure ()
  | @cons x x' xs xs' hx hxs ih =>
    have last : xs.isEmpty = xs'.isEmpty := by cases hxs <;> rfl
    cases hx with
    | always hbody => exact hbody.bind fun _ => (build .endArm).bind fun _ => ih
    | when hcheck hbody =>
      rw [Lower.arms, Lower.arms, last]
      exact hcheck.bind fun _ => (build (.branchOn _ _ _)).bind fun _ => hbody.bind fun _ =>
        (build .endArm).bind fun _ => (build (.elseArm _ _)).bind fun _ => ih

theorem cases {xs xs' : List (Int × Lower Unit)}
    (h : List.Forall₂ (fun x x' => x.1 = x'.1 ∧ Alike r shared x.2 x'.2) xs xs') (switch : Nat)
    (exits : List Pending) : Alike r shared (cases switch exits xs) (cases switch exits xs') := by
  induction h generalizing exits with
  | nil => exact pure exits
  | @cons x x' xs xs' hx _ ih =>
    rw [Lower.cases, Lower.cases, hx.1]
    exact (build (.beginCase _ _)).bind fun _ => hx.2.bind fun _ => (build (.endCase _)).bind
      fun exits => ih exits

theorem switchEnd {x x' : Option (Lower Unit)} (h : Option.Rel (Alike r shared) x x')
    (switch : Nat) (exits : List Pending) :
    Alike r shared (switchEnd switch x exits) (switchEnd switch x' exits) := by
  refine (build (.join _ _)).bind fun default => ?_
  cases h with
  | none => exact build (.patchAll _ _)
  | some hbody =>
    exact hbody.bind fun _ => (build (.endCase _)).bind fun _ => build (.endSwitch _)

theorem jumping (kind : Jump) (span : Span) :
    Alike r shared (Assembler.jumping kind span) (Assembler.jumping kind (r.span span)) := by
  intro base base' s s' h
  have waits : kind.waiting s'.toGraph = kind.waiting s.toGraph := by
    cases kind with
    | out => exact h.graph.breaks
    | on => exact h.graph.continues
  rw [Lower.jumping_run, Lower.jumping_run, waits]
  split
  · exact line (.fault span kind.outside) h
  · exact build (.leaveLoop kind) h

end Lower.Alike

/-- Everything that a walk does is the same in two runs. -/
def twoRuns (r : Relocation) (shared : Prop) (env : Env) (record : Option Nat) :
    WalkRelation r env record Set.univ Lower Lower where
  Relates := Lower.Alike r shared
  pure := .pure
  bind := .bind
  line h := .line h.alike
  string literal type := .line (.pushString literal type)
  enclosed h := (Lower.Alike.line .pushScope).bind fun _ => h.bind fun _ => .line .popScope
  guarded _ _ _ _ h := (Lower.Alike.build (.branchOn _ _ _)).bind fun _ =>
    h.bind fun _ => .build (.endGuard _ _)
  branching h := (Lower.Alike.build .pushExits).bind fun _ => (Lower.Alike.arms h).bind fun _ =>
    .build .endBranch
  switching _ _ _ _ _ h _ _ ho := (Lower.Alike.line (.switchOperand env record _ _ _)).bind fun _ =>
    (Lower.Alike.build (.finishBlock _)).bind fun switch =>
      (Lower.Alike.cases h switch []).bind fun exits => .switchEnd ho switch exits
  looping hcheck hbody hupdate := (Lower.Alike.build .beginLoop).bind fun _ => hcheck.bind fun _ =>
    (Lower.Alike.build (.branchOn _ _ _)).bind fun _ => hbody.bind fun _ =>
      (Lower.Alike.build .beginUpdate).bind fun _ => hupdate.bind fun _ => .build (.endLoop _ _ _)
  jumping := .jumping
  returning _ value := .build (.leave _ value)

/-! ## Functions -/

/-- What comes out of a function in two runs. -/
structure Lowered.Alike (r : Relocation) (shared : Prop) (base base' : List String)
    (l l' : Lowered) : Prop where
  function : l.function.Alike r (Inst.Alike shared l.strings l'.strings) l'.function
  strings : shared → l'.strings = l.strings
  grows : base <+: l.strings
  grows' : base' <+: l'.strings
  errors : l'.errors = l.errors.map (Error.relocate r)

/-- A function is lowered to the same code in two modules, and at two places. -/
theorem lowerFunction_alike (r : Relocation) {shared : Prop} (env : Env) (record : Option Nat)
    (f : Func) {strings strings' : List String} (debugInfo debugInfo' : Ir.DebugInfo)
    (hs : shared → strings' = strings) :
    (lowerFunction env f strings debugInfo).Alike r shared strings strings'
      (lowerFunction (env.relocate r record) (f.relocate r) strings' debugInfo') := by
  have walked : Lower.Alike r shared (walkFunction env f)
      (walkFunction (env.relocate r record) (f.relocate r)) :=
    walkFunction_paired (twoRuns r shared env record) (fun x _ => Set.mem_univ x)
      (.line .pushScope) (.line (.lowerParams env record f.params))
  have lowered : Lower.Alike r shared (lowerBody env f)
      (lowerBody (env.relocate r record) (f.relocate r)) :=
    walked.bind fun _ => .build (.closeLast (fallback f))
  have start : State.Alike r shared strings strings' { strings, debugInfo }
      { strings := strings', debugInfo := debugInfo' } := {
    names := ⟨strings', debugInfo', hs⟩
    graph := ⟨.nil, .some ⟨rfl, rfl, .nil⟩⟩
    notes := rfl
    grows := List.prefix_rfl
    grows' := List.prefix_rfl }
  have final := (lowered start).2
  have slots := congrArg Notes.slots final.notes
  have faults := congrArg Notes.faults final.notes
  exact {
    function := Ir.Function.Alike.prune ⟨congrArg (fun slots =>
      { declaration env.types (f.relocate r) with slots }) slots, final.graph.blocks⟩
    strings := final.names.strings
    grows := final.grows
    grows' := final.grows'
    errors := by
      change
        (finalState (env.relocate r record) (f.relocate r) strings' debugInfo').notes.faults.map _ =
          ((finalState env f strings debugInfo).notes.faults.map _).map _
      rw [List.map_map]
      exact (congrArg (List.map _) faults).trans List.map_map }

end Lowering

end Codegen
