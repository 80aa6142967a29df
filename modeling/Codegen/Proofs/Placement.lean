import Codegen.Proofs.Steps
import Mathlib.Data.List.Basic
import Mathlib.Logic.Function.Basic

/-!
# The blocks of structured code, without missing targets

The blocks of structured code said once more, as a function of where the code starts and where its
jumps lead.  No target is ever missing here: a jump forward is written down when the label it leads
to is known.

* `Code.place` gives the blocks and the site behind the code.
* `Code.emit_place`: the steps that leave targets open and fill them in later end with the blocks
  of `Code.place`.
-/

namespace Codegen.Lowering

open Ir (Inst Value Label Terminator Block)

/-- Where code starts or ends: the block in progress, if there is one, and the next label. -/
structure Site where
  current : Option OpenBlock
  next : Label

/-- The site at the end of a graph. -/
def Graph.site (g : Graph) : Site := ⟨g.current, g.nextLabel⟩

namespace Site

/-- The block that a terminator closes here. -/
def last (s : Site) : OpenBlock := s.current.getD { label := s.next, comment := "unreachable" }

/-- Behind a terminator. -/
def ended (s : Site) : Site := ⟨none, if s.current.isSome then s.next else s.next + 1⟩

/-- In a new block where jumps come together. -/
def joined (s : Site) (comment : String) : Site := ⟨some { label := s.next, comment }, s.next + 1⟩

/-- In an open block. -/
def opened (s : Site) (comment : String) : Site :=
  if s.current.isSome then s else s.joined comment

/-- The block in progress, if there is one, with a jump to `target`. -/
def leaving (s : Site) (target : Label) : List Block :=
  s.current.toList.map fun block => block.close (.goto (some target))

/-- The block in progress, if there is one, falls through into a new one. -/
def falling (s : Site) : List Block := s.leaving s.next

/-- Behind one more instruction. -/
def appended (s : Site) (inst : Inst) : Site :=
  { s.opened "unreachable" with
    current := (s.opened "unreachable").current.map fun block =>
      { block with insts := block.insts ++ [inst] } }

/-- With the next label drawn. -/
def drawn (s : Site) : Site := { s with next := s.next + 1 }

/-- The block that ends here by a test, with the way for `holds` and the other one. -/
def fork (s : Site) (holds : Bool) (cond : Value) (other : Label) : Block :=
  s.drawn.last.close <|
    if holds then .branch cond (some s.next) (some other)
    else .branch cond (some other) (some s.next)

/-- In the block of the way for `holds`. -/
def forked (s : Site) (comment : String) : Site :=
  ⟨some { label := s.next, comment }, s.drawn.ended.next⟩

end Site

/-- The ways that jumps of a piece of code take: out of the loop around it, to the next round of
that loop, and behind the branch or switch that it is a part of. -/
inductive Way where
  | out
  | on
  | behind
  deriving DecidableEq

/-- The blocks of a piece of code, and the site behind it. -/
structure Placement where
  blocks : (Way → Label) → List Block
  site : Site

/-- The blocks of the cases of a switch, and the labels that belong into its terminator. -/
structure CasePlacement extends Placement where
  targets : List (Int × Label)
  otherwise : Label
  /-- The label behind the switch. -/
  behind : Label

open Function (update update_self)

mutual

/-- The blocks of structured code. -/
def Code.place : {inLoop : Bool} → Code inLoop → Site → Placement
  | _, .done, s => ⟨fun _ => [], s⟩
  | _, .cons step rest, s =>
    let a := step.place s
    let b := rest.place a.site
    ⟨fun w => a.blocks w ++ b.blocks w, b.site⟩

/-- The blocks of a step. -/
def Step.place : {inLoop : Bool} → Step inLoop → Site → Placement
  | _, .inst inst, s => ⟨fun _ => [], s.appended inst⟩
  | _, .guard isAnd cond right, s =>
    let r := right.place (s.forked (if isAnd then "and.true" else "or.false"))
    ⟨fun w => s.fork isAnd cond r.site.next :: (r.blocks w ++ r.site.falling),
      r.site.joined (if isAnd then "and.end" else "or.end")⟩
  | _, .branch arms, s =>
    let a := arms.place s
    ⟨fun w => a.blocks (update w .behind a.site.next) ++ a.site.falling,
      a.site.joined "branch.end"⟩
  | _, .switch value type cases, s =>
    let c := cases.place s.ended.next
    ⟨fun w => s.last.close (.switch value type c.targets (some c.otherwise)) ::
      c.blocks (update w .behind c.behind), c.site⟩
  | _, .loop check cond body update, s =>
    let c := check.place (s.joined "loop.entry")
    let b := body.place (c.site.forked "loop.body")
    let e := b.site.opened "loop.ret.end"
    let u := update.place (e.joined "loop.continue")
    let x := u.site.ended
    let ways (w : Way → Label) := Function.update (Function.update w .on e.next) .out x.next
    ⟨fun w => s.falling ++ c.blocks (ways w) ++ [c.site.fork true cond x.next] ++
      b.blocks (ways w) ++ e.falling ++ u.blocks (ways w) ++
      [u.site.last.close (.goto (some s.next))], x.joined "loop.exit"⟩
  | _, .jumpOut, s =>
    ⟨fun w => [s.last.close (.goto (some (w .out)))], s.ended.joined "break.end"⟩
  | _, .jumpOn, s =>
    ⟨fun w => [s.last.close (.goto (some (w .on)))], s.ended.joined "continue.end"⟩
  | _, .ret type value, s => ⟨fun _ => [s.last.close (.ret type value)], s.ended⟩

/-- The blocks of the arms of a branch. -/
def Arms.place : {inLoop : Bool} → Arms inLoop → Site → Placement
  | _, .nil, s => ⟨fun _ => [], s⟩
  | _, .always body rest, s =>
    let b := body.place s
    let e := b.site.opened "block.end.ret"
    let r := rest.place e.ended
    ⟨fun w => b.blocks w ++ [e.last.close (.goto (some (w .behind)))] ++ r.blocks w, r.site⟩
  | _, .when check cond body rest, s =>
    let c := check.place s
    let b := body.place (c.site.forked "cond.true")
    let e := b.site.opened "block.end.ret"
    let r := rest.place (if rest.isNil then e.ended else e.ended.joined "cond.false")
    ⟨fun w => c.blocks w ++
      [c.site.fork true cond (if rest.isNil then w .behind else e.ended.next)] ++
      b.blocks w ++ [e.last.close (.goto (some (w .behind)))] ++ r.blocks w, r.site⟩

/-- The blocks of the cases and the default of a switch. -/
def Cases.place : {inLoop : Bool} → Cases inLoop → Label → CasePlacement
  | _, .nil, next =>
    ⟨⟨fun _ => [], Site.joined ⟨none, next⟩ "switch.default"⟩, [], next, next⟩
  | _, .otherwise body, next =>
    let b := body.place (Site.joined ⟨none, next⟩ "switch.default")
    ⟨⟨fun w => b.blocks w ++ b.site.leaving (w .behind),
      Site.joined ⟨none, b.site.next⟩ "switch.end"⟩, [], next, b.site.next⟩
  | _, .case value body rest, next =>
    let b := body.place (Site.joined ⟨none, next⟩ ("switch.case " ++ Text.signed value))
    let r := rest.place b.site.next
    ⟨⟨fun w => b.blocks w ++ b.site.leaving (w .behind) ++ r.blocks w, r.site⟩,
      (value, next) :: r.targets, r.otherwise, r.behind⟩

end

/-! ## Filling in targets of a list of blocks -/

/-- The jump in a list with `k` more blocks in front. -/
def Pending.shift (k : Nat) (p : Pending) : Pending := ⟨k + p.block, p.slot⟩

theorem Pending.shift_shift (j k : Nat) (p : Pending) :
    (p.shift k).shift j = p.shift (j + k) := by
  simp only [Pending.shift, Nat.add_assoc]

@[simp]
theorem length_fillAll (label : Label) (jumps : List Pending) (blocks : List Block) :
    (fillAll label jumps blocks).length = blocks.length := by
  induction jumps generalizing blocks with
  | nil => rfl
  | cons p jumps ih => rw [fillAll, ih, List.length_modify]

theorem fillAll_append_jumps (label : Label) (jumps more : List Pending) (blocks : List Block) :
    fillAll label (jumps ++ more) blocks = fillAll label more (fillAll label jumps blocks) := by
  induction jumps generalizing blocks with
  | nil => rfl
  | cons p jumps ih => exact ih _

/-- Jumps in the blocks in front leave the blocks behind alone. -/
theorem fillAll_left {label : Label} {jumps : List Pending} {front : List Block}
    (h : ∀ p ∈ jumps, p.block < front.length) (back : List Block) :
    fillAll label jumps (front ++ back) = fillAll label jumps front ++ back := by
  induction jumps generalizing front with
  | nil => rfl
  | cons p jumps ih =>
    obtain ⟨hp, hjumps⟩ := List.forall_mem_cons.1 h
    rw [fillAll, fillAll, modify_left hp]
    exact ih fun q hq => by rw [List.length_modify]; exact hjumps q hq

/-- Jumps in the blocks behind leave the blocks in front alone. -/
theorem fillAll_right (label : Label) (jumps : List Pending) (front back : List Block) :
    fillAll label (jumps.map (Pending.shift front.length)) (front ++ back) =
      front ++ fillAll label jumps back := by
  induction jumps generalizing back with
  | nil => rfl
  | cons p jumps ih => rw [List.map_cons, fillAll, fillAll, Pending.shift, modify_right, ih]

theorem fill_comm (slot slot' : TargetSlot) (label : Label) (b : Block) :
    fill slot label (fill slot' label b) = fill slot' label (fill slot label b) := by
  obtain ⟨_, _, _, terminator⟩ := b
  cases terminator <;> cases slot <;> cases slot' <;> rfl

/-- Jumps to one label are filled in in any order. -/
theorem fillAll_perm {label : Label} {jumps jumps' : List Pending} (h : jumps.Perm jumps')
    (blocks : List Block) : fillAll label jumps blocks = fillAll label jumps' blocks := by
  induction h generalizing blocks with
  | nil => rfl
  | cons p _ ih => exact ih _
  | swap p q jumps =>
    rw [fillAll, fillAll, fillAll, fillAll]
    congr 1
    by_cases hpq : p.block = q.block
    · rw [hpq, List.modify_modify_eq, List.modify_modify_eq]
      congr 1
      funext b
      exact fill_comm _ _ _ _
    · exact List.modify_modify_ne _ _ _ (Ne.symm hpq)
  | trans _ _ ih ih' => rw [ih, ih']

theorem fillAll_at (label : Label) (slot : TargetSlot) (front back : List Block) (b : Block) :
    fillAll label [⟨front.length, slot⟩] (front ++ b :: back) =
      front ++ fill slot label b :: back := modify_right 0 _ _ _

/-! ## Pieces -/

/-- Blocks with missing targets: a jump stands with the way it takes. -/
@[ext]
structure Piece where
  blocks : List Block
  jumps : Way → List Pending := fun _ => []

namespace Piece

/-- Two pieces, one behind the other. -/
protected def append (p q : Piece) : Piece where
  blocks := p.blocks ++ q.blocks
  jumps way := p.jumps way ++ (q.jumps way).map (Pending.shift p.blocks.length)

instance : Append Piece := ⟨Piece.append⟩

@[simp]
theorem append_blocks (p q : Piece) : (p ++ q).blocks = p.blocks ++ q.blocks := rfl

@[simp]
theorem append_jumps (p q : Piece) (way : Way) :
    (p ++ q).jumps way = p.jumps way ++ (q.jumps way).map (Pending.shift p.blocks.length) := rfl

/-- Blocks in which no target is missing. -/
def of (blocks : List Block) : Piece := { blocks }

theorem of_append_jumps (b : Block) (p : Piece) (way : Way) :
    (of [b] ++ p).jumps way = (p.jumps way).map (Pending.shift 1) := rfl

theorem append_assoc (p q r : Piece) : p ++ q ++ r = p ++ (q ++ r) := by
  ext1
  · exact List.append_assoc _ _ _
  · funext way
    simp [Function.comp_def, Pending.shift_shift]

@[simp]
theorem append_of_nil (p : Piece) : p ++ of [] = p := by
  ext1
  · exact List.append_nil _
  · funext way
    exact List.append_nil _

/-- Without the jumps behind the branch or switch around it. -/
def conceal (p : Piece) : Piece := ⟨p.blocks, update p.jumps .behind []⟩

theorem conceal_append (p : Piece) {q : Piece} (h : q.jumps .behind = []) :
    p.conceal ++ q = (p ++ q).conceal := by
  ext1
  · rfl
  · funext way
    cases way <;> simp [conceal, h]

theorem conceal_of_append (blocks : List Block) (p : Piece) :
    (of blocks ++ p).conceal = of blocks ++ p.conceal := by
  ext1
  · rfl
  · funext way
    cases way <;> rfl

theorem conceal_of (blocks : List Block) : (of blocks).conceal = of blocks := by
  ext1
  · rfl
  · funext way
    cases way <;> rfl

/-- The target of one block of a piece filled in. -/
theorem patch (p q : Piece) (b : Block) (slot : TargetSlot) (label : Label) :
    ({ p ++ of [b] ++ q with
      blocks := fillAll label [⟨p.blocks.length, slot⟩] (p ++ of [b] ++ q).blocks } : Piece) =
      p ++ of [fill slot label b] ++ q := by
  ext1
  · simpa [of] using fillAll_at label slot p.blocks q.blocks b
  · funext way
    simp [of]

/-- One more jump that waits. -/
def waits (p : Piece) (way : Way) (j : Pending) : Piece :=
  { p with jumps := update p.jumps way (p.jumps way ++ [j]) }

/-- The blocks with all targets filled in. -/
def filled (p : Piece) (w : Way → Label) : List Block :=
  fillAll (w .out) (p.jumps .out) <| fillAll (w .on) (p.jumps .on) <|
    fillAll (w .behind) (p.jumps .behind) p.blocks

/-- The targets of one way filled in. -/
def lead (p : Piece) (way : Way) (label : Label) : Piece :=
  ⟨fillAll label (p.jumps way) p.blocks, update p.jumps way []⟩

/-- The targets of the two ways of a loop filled in. -/
def leadLoop (p : Piece) (next exit : Label) : Piece :=
  ⟨fillAll exit (p.jumps .out) (fillAll next (p.jumps .on) p.blocks),
    update (update p.jumps .out []) .on []⟩

theorem lead_jumps (p : Piece) (way : Way) (label : Label) : (p.lead way label).jumps way = [] :=
  update_self _ _ _

/-- The piece becomes `blocks` when its targets are filled in.  A jump out of a loop or to its next
round waits only inside of one. -/
structure Fills (inLoop : Bool) (p : Piece) (blocks : (Way → Label) → List Block) : Prop where
  within : ∀ way, ∀ j ∈ p.jumps way, j.block < p.blocks.length
  outside : inLoop = false → p.jumps .out = [] ∧ p.jumps .on = []
  filled : ∀ w, p.filled w = blocks w

variable {inLoop : Bool} {p q : Piece} {a b : (Way → Label) → List Block}

theorem Fills.of (blocks : List Block) : (of blocks).Fills inLoop fun _ => blocks :=
  ⟨by simp [Piece.of], fun _ => ⟨rfl, rfl⟩, fun _ => rfl⟩

theorem Fills.append (hp : p.Fills inLoop a) (hq : q.Fills inLoop b) :
    (p ++ q).Fills inLoop fun w => a w ++ b w := by
  have split (way : Way) (label : Label) {front back : List Block}
      (hf : front.length = p.blocks.length) :
      fillAll label ((p ++ q).jumps way) (front ++ back) =
        fillAll label (p.jumps way) front ++ fillAll label (q.jumps way) back := by
    rw [append_jumps, fillAll_append_jumps, fillAll_left (hf ▸ hp.within way), ← hf,
      ← length_fillAll label (p.jumps way) front, fillAll_right]
  refine ⟨fun way j hj => ?_, fun h => ?_, fun w => ?_⟩
  · rw [append_blocks, List.length_append]
    rcases List.mem_append.1 hj with hj | hj
    · exact Nat.lt_add_right _ (hp.within way j hj)
    · obtain ⟨i, hi, rfl⟩ := List.mem_map.1 hj
      exact Nat.add_lt_add_left (hq.within way i hi) _
  · obtain ⟨hp, hp'⟩ := hp.outside h
    obtain ⟨hq, hq'⟩ := hq.outside h
    simp [hp, hp', hq, hq']
  · rw [← hp.filled w, ← hq.filled w, Piece.filled, append_blocks, split .behind _ rfl,
      split .on _ (by simp), split .out _ (by simp)]
    rfl

/-- The order in which jumps wait is of no concern. -/
theorem Fills.perm (h : p.Fills inLoop a) (hb : q.blocks = p.blocks)
    (hj : ∀ way, (q.jumps way).Perm (p.jumps way)) : q.Fills inLoop a := by
  refine ⟨fun way j hjq => ?_, fun hl => ?_, fun w => ?_⟩
  · rw [hb]
    exact h.within way j ((hj way).subset hjq)
  · obtain ⟨hout, hon⟩ := h.outside hl
    exact ⟨((hout ▸ hj .out :)).eq_nil, ((hon ▸ hj .on :)).eq_nil⟩
  · rw [← h.filled w, Piece.filled, Piece.filled, hb, fillAll_perm (hj .behind),
      fillAll_perm (hj .on), fillAll_perm (hj .out)]

/-- A jump that waits from the start. -/
theorem Fills.jump (way : Way) (h : inLoop = true ∨ way = .behind) (slot : TargetSlot) (b : Block) :
    ((Piece.of [b]).waits way ⟨0, slot⟩).Fills inLoop fun w => [fill slot (w way) b] := by
  refine ⟨fun way' j hj => ?_, fun hl => ?_, fun w => ?_⟩
  · by_cases hw : way' = way
    · subst hw
      simp only [waits, update_self] at hj
      obtain rfl := List.mem_singleton.1 hj
      exact Nat.zero_lt_one
    · simp [waits, hw, Piece.of] at hj
  · obtain rfl : way = .behind := h.resolve_left (by simp [hl])
    exact ⟨rfl, rfl⟩
  · cases way <;> rfl

/-- A jump that waits from the start may also be added at the end. -/
theorem Fills.late {b' : Block} {way : Way} {slot : TargetSlot}
    (h : (p ++ (Piece.of [b']).waits way ⟨0, slot⟩ ++ q).Fills inLoop a) :
    ((p ++ Piece.of [b'] ++ q).waits way ⟨p.blocks.length, slot⟩).Fills inLoop a := by
  refine h.perm rfl fun way' => ?_
  by_cases hw : way' = way
  · subst hw
    simp only [waits, update_self, append_jumps, Piece.of, List.map_nil, List.append_nil,
      List.nil_append, List.map_cons, List.append_assoc, List.singleton_append]
    exact (List.perm_append_singleton _ _).append_left _
  · simp [waits, hw, Piece.of]

/-- A way that is led to a label is no longer open. -/
theorem Fills.lead_behind (h : p.Fills inLoop a) (label : Label) :
    (p.lead .behind label).Fills inLoop fun w => a (update w .behind label) := by
  refine ⟨fun way j hj => ?_, fun hl => ?_, fun w => ?_⟩
  · rw [lead, length_fillAll]
    cases way with
    | behind => simp [lead] at hj
    | out => exact h.within .out j hj
    | on => exact h.within .on j hj
  · exact h.outside hl
  · rw [← h.filled]
    rfl

/-- At the end of a loop, both of its ways are led to labels. -/
theorem Fills.lead_loop (h : p.Fills true a) (hb : p.jumps .behind = []) (next exit : Label) :
    (p.leadLoop next exit).Fills inLoop fun w => a (update (update w .on next) .out exit) := by
  refine ⟨fun way j hj => ?_, fun _ => ⟨rfl, rfl⟩, fun w => ?_⟩
  · cases way <;> simp [leadLoop, hb] at hj
  · simp [← h.filled, Piece.filled, leadLoop, hb, fillAll]

theorem Fills.congr (h : p.Fills inLoop a) (hab : ∀ w, a w = b w) : p.Fills inLoop b :=
  ⟨h.within, h.outside, fun w => (h.filled w).trans (hab w)⟩

end Piece

/-- The graph with a piece behind it, ended at the site `s`. -/
def Graph.extend (g : Graph) (p : Piece) (s : Site) : Graph where
  blocks := g.blocks ++ p.blocks
  current := s.current
  nextLabel := s.next
  exits := g.exits.modifyHead (· ++ (p.jumps .behind).map (Pending.shift g.blocks.length))
  breaks := g.breaks.modifyHead (· ++ (p.jumps .out).map (Pending.shift g.blocks.length))
  continues := g.continues.modifyHead (· ++ (p.jumps .on).map (Pending.shift g.blocks.length))

section Extend

variable (g : Graph) (p q : Piece) (s t : Site)

@[simp]
theorem extend_site : (g.extend p s).site = s := rfl

theorem extend_extend : (g.extend p s).extend q t = g.extend (p ++ q) t := by
  simp only [Graph.extend, Piece.append_blocks, Piece.append_jumps, List.modifyHead_modifyHead,
    List.map_append, List.map_map, List.append_assoc, List.length_append, Graph.mk.injEq,
    true_and]
  refine ⟨?_, ?_, ?_⟩ <;>
    simp only [Function.comp_def, Pending.shift_shift, List.append_assoc]

theorem extend_of_blocks (blocks : List Block) :
    g.extend (.of blocks) s =
      { g with
        blocks := g.blocks ++ blocks
        current := s.current
        nextLabel := s.next } := by
  simp only [Graph.extend, Piece.of, List.map_nil, List.append_nil, modifyHead_self]

theorem extend_nothing : g.extend (.of []) g.site = g := by
  rw [extend_of_blocks, List.append_nil]
  rfl

theorem finishBlock_eq (t : Terminator) :
    finishBlock t g = (g.blocks.length, g.extend (.of [g.site.last.close t]) g.site.ended) := by
  rw [extend_of_blocks]
  cases h : g.current with
  | none => simp [finishBlock_closed h, Graph.site, Site.last, Site.ended, h, OpenBlock.close]
  | some b => simp [finishBlock_open h, Graph.site, Site.last, Site.ended, h]

theorem branchOn_eq (holds : Bool) (cond : Value) (comment : String) :
    branchOn holds cond comment g =
      (⟨g.blocks.length, otherWay holds⟩,
        g.extend (.of [g.site.drawn.last.close (testing holds cond g.nextLabel)])
          (g.site.forked comment)) := by
  rw [extend_of_blocks]
  cases h : g.current with
  | none =>
    simp [branchOn_closed h, Graph.site, Site.drawn, Site.last, Site.forked, Site.ended, h,
      OpenBlock.close]
  | some b =>
    simp [branchOn_open h, Graph.site, Site.drawn, Site.last, Site.forked, Site.ended, h]

theorem ensureOpen_eq (comment : String) :
    ensureOpen comment g = ((), g.extend (.of []) (g.site.opened comment)) := by
  rw [extend_of_blocks]
  cases h : g.current with
  | none => simp [ensureOpen_closed h, Graph.site, Site.opened, Site.joined, h]
  | some b =>
    rw [ensureOpen_open h]
    obtain ⟨⟩ := g
    cases h
    simp [Graph.site, Site.opened]

theorem append_eq (inst : Inst) :
    append inst g = ((), g.extend (.of []) (g.site.appended inst)) := by
  rw [extend_of_blocks]
  cases h : g.current with
  | none => simp [append_closed h, Graph.site, Site.appended, Site.opened, Site.joined, h]
  | some b => simp [append_open h, Graph.site, Site.appended, Site.opened, h]

theorem join_eq (comment : String) :
    join [] comment g = (g.nextLabel, g.extend (.of g.site.falling) (g.site.joined comment)) := by
  rw [extend_of_blocks]
  cases h : g.current with
  | none => simp [join_closed h, Graph.site, Site.falling, Site.leaving, Site.joined, h, fillAll]
  | some b => simp [join_open h, Graph.site, Site.falling, Site.leaving, Site.joined, h, fillAll]

theorem patchAll_extend (jumps : List Pending) (label : Label) :
    patchAll (jumps.map (Pending.shift g.blocks.length)) label (g.extend p s) =
      ((), g.extend { p with blocks := fillAll label jumps p.blocks } s) := by
  have patched (jumps : List Pending) (h : Graph) :
    patchAll jumps label h = ((), { h with blocks := fillAll label jumps h.blocks }) := rfl
  rw [patched, Graph.extend, fillAll_right]
  rfl

/-- Jumps of a piece come together behind it. -/
theorem join_extend (jumps : List Pending) (comment : String) :
    join (jumps.map (Pending.shift g.blocks.length)) comment (g.extend p s) =
      (s.next, g.extend ({ p with blocks := fillAll s.next jumps p.blocks } ++ .of s.falling)
        (s.joined comment)) := by
  have patched : join (jumps.map (Pending.shift g.blocks.length)) comment (g.extend p s) =
      join [] comment (patchAll (jumps.map (Pending.shift g.blocks.length)) s.next
        (g.extend p s)).2 := by
    obtain ⟨_ | _, _⟩ := s <;> rfl
  rw [patched, patchAll_extend, join_eq, extend_extend]
  rfl

/-- The jump of one block of a piece comes out behind the piece. -/
theorem join_patch (b : Block) (slot : TargetSlot) (comment : String) :
    join [⟨g.blocks.length + p.blocks.length, slot⟩] comment (g.extend (p ++ .of [b] ++ q) s) =
      (s.next,
        g.extend (p ++ .of [fill slot s.next b] ++ q ++ .of s.falling) (s.joined comment)) := by
  rw [← Piece.patch]
  exact join_extend g _ s [⟨p.blocks.length, slot⟩] comment

theorem appendInnermost_eq (j : Pending) (lists : List (List Pending)) :
    appendInnermost j lists = lists.modifyHead (· ++ [j]) := by
  cases lists <;> rfl

theorem addExit_extend (j : Pending) :
    addExit (j.shift g.blocks.length) (g.extend p s) = ((), g.extend (p.waits .behind j) s) := by
  have added (j : Pending) (h : Graph) :
    addExit j h = ((), { h with exits := appendInnermost j h.exits }) := rfl
  rw [added, appendInnermost_eq]
  simp [Graph.extend, Piece.waits, List.modifyHead_modifyHead, Function.comp_def]

theorem addBreak_extend (j : Pending) :
    addBreak (j.shift g.blocks.length) (g.extend p s) = ((), g.extend (p.waits .out j) s) := by
  have added (j : Pending) (h : Graph) :
    addBreak j h = ((), { h with breaks := appendInnermost j h.breaks }) := rfl
  rw [added, appendInnermost_eq]
  simp [Graph.extend, Piece.waits, List.modifyHead_modifyHead, Function.comp_def]

theorem addContinue_extend (j : Pending) :
    addContinue (j.shift g.blocks.length) (g.extend p s) = ((), g.extend (p.waits .on j) s) := by
  have added (j : Pending) (h : Graph) :
    addContinue j h = ((), { h with continues := appendInnermost j h.continues }) := rfl
  rw [added, appendInnermost_eq]
  simp [Graph.extend, Piece.waits, List.modifyHead_modifyHead, Function.comp_def]

theorem jump_eq (comment : String) :
    jump comment g = (⟨g.blocks.length, .goto⟩,
      g.extend (.of [g.site.last.close (.goto none)]) (g.site.ended.joined comment)) := by
  have jumped : jump comment g = (⟨(finishBlock (.goto none) g).1, .goto⟩,
    (join [] comment (finishBlock (.goto none) g).2).2) := rfl
  rw [jumped, finishBlock_eq, join_eq, extend_extend]
  exact congrArg (fun p => ((⟨g.blocks.length, .goto⟩ : Pending), g.extend p _))
    (Piece.append_of_nil _)

theorem endArm_eq :
    let e := g.site.opened "block.end.ret"
    endArm g =
      ((), g.extend ((Piece.of [e.last.close (.goto none)]).waits .behind ⟨0, .goto⟩) e.ended) := by
  intro e
  have ended : endArm g =
    let closed := finishBlock (.goto none) (ensureOpen "block.end.ret" g).2
    addExit ⟨closed.1, .goto⟩ closed.2 := rfl
  have here : (g.extend (.of []) e).blocks.length = g.blocks.length + 0 := by
    simp [Graph.extend, Piece.of]
  rw [ended, ensureOpen_eq, finishBlock_eq, extend_extend, here]
  exact addExit_extend g (.of [e.last.close (.goto none)]) e.ended ⟨0, .goto⟩

theorem popExits_extend :
    popExits ((pushExits g).2.extend p s) =
      ((p.jumps .behind).map (Pending.shift g.blocks.length), g.extend p.conceal s) := by
  have popped (h : Graph) :
    popExits h = (h.exits.headD [], { h with exits := h.exits.tail }) := rfl
  have pushed : pushExits g = ((), { g with exits := [] :: g.exits }) := rfl
  simp [popped, pushed, Graph.extend, Piece.conceal, modifyHead_self]

theorem beginLoop_eq :
    beginLoop g = (g.nextLabel,
      (pushLoop g).2.extend (.of g.site.falling) (g.site.joined "loop.entry")) := by
  have begun : beginLoop g =
      ((join [] "loop.entry" g).1, (pushLoop (join [] "loop.entry" g).2).2) := rfl
  rw [begun, join_eq, extend_of_blocks, extend_of_blocks]
  rfl

theorem beginUpdate_eq :
    let e := g.site.opened "loop.ret.end"
    beginUpdate g = (e.next, g.extend (.of e.falling) (e.joined "loop.continue")) := by
  have begun : beginUpdate g = join [] "loop.continue" (ensureOpen "loop.ret.end" g).2 := rfl
  rw [begun, ensureOpen_eq, join_eq, extend_extend]
  rfl

theorem popLoop_extend :
    popLoop ((pushLoop g).2.extend p s) =
      (((p.jumps .out).map (Pending.shift g.blocks.length),
        (p.jumps .on).map (Pending.shift g.blocks.length)),
        g.extend ⟨p.blocks, update (update p.jumps .out []) .on []⟩ s) := by
  have popped (h : Graph) : popLoop h = ((h.breaks.headD [], h.continues.headD []),
    { h with breaks := h.breaks.tail, continues := h.continues.tail }) := rfl
  have pushed : pushLoop g =
    ((), { g with breaks := [] :: g.breaks, continues := [] :: g.continues }) := rfl
  simp [popped, pushed, Graph.extend, modifyHead_self]

/-- The end of a loop leads the jumps of its piece, and the jump out of its block `i`. -/
theorem endLoop_extend (entry next : Label) (i : Nat) :
    (endLoop entry next ⟨g.blocks.length + i, .onFalse⟩ ((pushLoop g).2.extend p s)).2 =
      g.extend (((p ++ .of [s.last.close (.goto (some entry))]).waits .out ⟨i, .onFalse⟩).leadLoop
        next s.ended.next) (s.ended.joined "loop.exit") := by
  let q := p ++ .of [s.last.close (.goto (some entry))]
  have closed : (finishBlock (.goto (some entry)) ((pushLoop g).2.extend p s)).2 =
      (pushLoop g).2.extend q s.ended := by
    rw [finishBlock_eq, extend_extend]
    rfl
  have ended : endLoop entry next ⟨g.blocks.length + i, .onFalse⟩ ((pushLoop g).2.extend p s) =
      let popped := popLoop (finishBlock (.goto (some entry)) ((pushLoop g).2.extend p s)).2
      let jumps := (⟨g.blocks.length + i, .onFalse⟩ : Pending) :: popped.1.1
      ((), (join jumps "loop.exit" (patchAll popped.1.2 next popped.2).2).2) := rfl
  rw [ended, closed, popLoop_extend]
  dsimp only
  rw [patchAll_extend]
  refine (congrArg Prod.snd (join_extend g _ s.ended (⟨i, .onFalse⟩ :: q.jumps .out) _)).trans ?_
  refine congrArg (g.extend · _) ((Piece.append_of_nil _).trans ?_)
  ext1
  · exact fillAll_perm (List.perm_append_singleton _ _).symm _
  · simp [Piece.leadLoop, Piece.waits, q]

/-- The block in progress, if there is one, with a jump that waits. -/
def Site.waiting (s : Site) : Piece :=
  match s.current with
  | some block => (Piece.of [block.close (.goto none)]).waits .behind ⟨0, .goto⟩
  | none => .of []

theorem fills_waiting {inLoop : Bool} :
    s.waiting.Fills inLoop fun w => s.leaving (w .behind) := by
  obtain ⟨_ | b, next⟩ := s
  · exact .of []
  · exact .jump .behind (.inr rfl) _ _

section Switch

variable (b : OpenBlock) (value : Value) (type : String) (cases : List (Int × Label)) (next : Label)

theorem beginDefault_extend :
    beginDefault g.blocks.length
      (g.extend (.of [b.close (.switch value type cases none)] ++ p).conceal ⟨none, next⟩) =
      (next, g.extend (.of [b.close (.switch value type cases (some next))] ++ p).conceal
        (Site.joined ⟨none, next⟩ "switch.default")) := by
  rw [Piece.conceal_of_append, Piece.conceal_of_append]
  exact (join_patch g (.of []) p.conceal ⟨none, next⟩ _ .otherwise "switch.default").trans
    (congrArg (fun q => (next, g.extend q _)) (Piece.append_of_nil _))

theorem beginCase_extend (n : Int) :
    (beginCase g.blocks.length n
      (g.extend (.of [b.close (.switch value type cases none)] ++ p).conceal ⟨none, next⟩)).2 =
      g.extend (.of [b.close (.switch value type (cases ++ [(n, next)]) none)] ++ p).conceal
        (Site.joined ⟨none, next⟩ ("switch.case " ++ Text.signed n)) := by
  have begun (h : Graph) : (beginCase g.blocks.length n h).2 =
    (addCase g.blocks.length n (join [] ("switch.case " ++ Text.signed n) h).1
      (join [] ("switch.case " ++ Text.signed n) h).2).2 := rfl
  have added (q : Piece) (s : Site) (b' : Block) :
      (addCase g.blocks.length n next (g.extend (.of [b'] ++ q) s)).2 =
        g.extend (.of [withCase n next b'] ++ q) s := by
    have step (h : Graph) : (addCase g.blocks.length n next h).2 =
      { h with blocks := h.blocks.modify g.blocks.length (withCase n next) } := rfl
    rw [step, Graph.extend]
    congr 1
    exact modify_right 0 _ g.blocks (b' :: q.blocks)
  rw [begun, join_eq, extend_extend, Piece.conceal_of_append, Piece.conceal_of_append]
  exact (congrArg (fun q => (addCase g.blocks.length n next (g.extend q _)).2)
    (Piece.append_of_nil _)).trans (added _ _ _)

end Switch

theorem endCase_extend :
    endCase ((p.jumps .behind).map (Pending.shift g.blocks.length)) (g.extend p.conceal s) =
      (((p ++ s.waiting).jumps .behind).map (Pending.shift g.blocks.length),
        g.extend (p ++ s.waiting).conceal ⟨none, s.next⟩) := by
  obtain ⟨_ | b, next⟩ := s
  · rw [endCase_closed rfl, Site.waiting, Piece.append_of_nil]
  · rw [endCase_open rfl]
    simp [Graph.extend, Site.waiting, Piece.waits, Piece.of, Piece.conceal, Pending.shift,
      Function.update]

end Extend

/-! ## Emission -/

/-- A block step from `g` to `g'` adds the blocks of a layout, up to targets that are missing. -/
def Places (inLoop : Bool) (g g' : Graph) (l : Placement) : Prop :=
  ∃ p : Piece, p.Fills inLoop l.blocks ∧ p.jumps .behind = [] ∧ g' = g.extend p l.site

/-- The body of a case and its end. -/
theorem Places.endCase {inLoop : Bool} {g h : Graph} {p : Piece} {s : Site} {l : Placement}
    (hl : Places inLoop (g.extend p.conceal s) h l) :
    ∃ q : Piece, q.Fills inLoop (fun w => l.blocks w ++ l.site.leaving (w .behind)) ∧
      Lowering.endCase ((p.jumps .behind).map (Pending.shift g.blocks.length)) h =
        (((p ++ q).jumps .behind).map (Pending.shift g.blocks.length),
          g.extend (p ++ q).conceal ⟨none, l.site.next⟩) := by
  obtain ⟨c, hc, hcb, rfl⟩ := hl
  have exits : p.jumps .behind = (p ++ c).jumps .behind := by simp [hcb]
  refine ⟨c ++ l.site.waiting, hc.append (fills_waiting _), ?_⟩
  rw [extend_extend, Piece.conceal_append _ hcb, exits, endCase_extend, Piece.append_assoc]

theorem fill_fork (s : Site) (holds : Bool) (cond : Value) (other : Label) :
    fill (otherWay holds) other (s.drawn.last.close (testing holds cond s.next)) =
      s.fork holds cond other := by
  cases holds <;> rfl

mutual

theorem Code.emit_place : {inLoop : Bool} → (code : Code inLoop) → (g : Graph) →
    Places inLoop g (code.emit g).2 (code.place g.site)
  | _, .done, g => by
    refine ⟨.of [], .of [], rfl, ?_⟩
    exact (extend_nothing g).symm
  | _, .cons step rest, g => by
    obtain ⟨p, hp, hpb, he⟩ := step.emit_place g
    change Places _ g (rest.emit (step.emit g).2).2 _
    rw [he]
    obtain ⟨q, hq, hqb, he⟩ := rest.emit_place (g.extend p (step.place g.site).site)
    rw [he, extend_extend]
    exact ⟨p ++ q, hp.append hq, by simp [hpb, hqb], rfl⟩

theorem Step.emit_place : {inLoop : Bool} → (step : Step inLoop) → (g : Graph) →
    Places inLoop g (step.emit g).2 (step.place g.site)
  | _, .inst inst, g => by
    change Places _ g (append inst g).2 _
    rw [append_eq]
    exact ⟨.of [], .of [], rfl, rfl⟩
  | _, .guard isAnd cond right, g => by
    change Places _ g (endGuard isAnd (beginGuard isAnd cond g).1
      (right.emit (beginGuard isAnd cond g).2).2).2 _
    rw [beginGuard, branchOn_eq]
    obtain ⟨p, hp, hpb, he⟩ := right.emit_place (g.extend
      (.of [g.site.drawn.last.close (testing isAnd cond g.nextLabel)])
      (g.site.forked (if isAnd then "and.true" else "or.false")))
    rw [he, extend_extend]
    refine ⟨.of [g.site.fork isAnd cond _] ++ p ++ .of _,
      ((Piece.Fills.of _).append hp).append (.of _), by simp [hpb, Piece.of], ?_⟩
    rw [← fill_fork]
    exact congrArg Prod.snd (join_patch g (.of []) p _ _ _ _)
  | _, .branch arms, g => by
    obtain ⟨p, hp, he⟩ := arms.emit_place (pushExits g).2
    have ended : ((Step.branch arms).emit g).2 =
      let popped := popExits (arms.emit (pushExits g).2).2
      (join popped.1 "branch.end" popped.2).2 := rfl
    rw [ended, he, popExits_extend]
    refine ⟨p.lead .behind _ ++ .of _, (hp.lead_behind _).append (.of _), rfl, ?_⟩
    exact congrArg Prod.snd (join_extend g p.conceal _ (p.jumps .behind) _)
  | _, .switch value type cases, g => by
    change Places _ g (cases.emit (finishBlock (.switch value type [] none) g).1 []
      (finishBlock (.switch value type [] none) g).2).2 _
    obtain ⟨q, hq, he⟩ :=
      cases.emit_place g g.site.last value type [] (.of []) g.site.ended.next
    rw [finishBlock_eq, ← Piece.conceal_of]
    exact ⟨_, ((Piece.Fills.of _).append ((Piece.Fills.of []).append hq)).lead_behind _,
      Piece.lead_jumps _ _ _, he⟩
  | inLoop, .loop check cond body update, g => by
    have emitted : ((Step.loop check cond body update : Step inLoop).emit g).2 =
      let checked := (check.emit (beginLoop g).2).2
      let tested := beginLoopBody cond checked
      let next := beginUpdate (body.emit tested.2).2
      (endLoop (beginLoop g).1 next.1 tested.1 (update.emit next.2).2).2 := rfl
    let s := g.site.joined "loop.entry"
    obtain ⟨c, hc, hcb, hce⟩ := check.emit_place ((pushLoop g).2.extend (.of g.site.falling) s)
    let p := Piece.of g.site.falling ++ c
    let sc := (check.place s).site
    let test := sc.drawn.last.close (testing true cond sc.next)
    let tested := (pushLoop g).2.extend (p ++ .of [test]) (sc.forked "loop.body")
    obtain ⟨b, hb, hbb, hbe⟩ := body.emit_place tested
    let e := (body.place (sc.forked "loop.body")).site.opened "loop.ret.end"
    obtain ⟨u, hu, hub, hue⟩ := update.emit_place
      (tested.extend (b ++ .of e.falling) (e.joined "loop.continue"))
    let q := b ++ .of e.falling ++ u
    let su := (update.place (e.joined "loop.continue")).site
    have hchecked : (check.emit (beginLoop g).2).2 = (pushLoop g).2.extend p sc := by
      rw [beginLoop_eq, hce, extend_extend]
      rfl
    have htested : beginLoopBody cond ((pushLoop g).2.extend p sc) =
        (⟨g.blocks.length + p.blocks.length, .onFalse⟩, tested) := by
      rw [beginLoopBody, branchOn_eq, extend_extend, Graph.extend, List.length_append]
      rfl
    have hnext : beginUpdate (body.emit tested).2 =
        (e.next, tested.extend (b ++ .of e.falling) (e.joined "loop.continue")) := by
      rw [hbe, beginUpdate_eq]
      exact congrArg (Prod.mk e.next) (extend_extend tested b _ _ _)
    have hupdated :
        (update.emit (tested.extend (b ++ .of e.falling) (e.joined "loop.continue"))).2 =
          (pushLoop g).2.extend (p ++ .of [test] ++ q) su := by
      rw [hue, extend_extend, extend_extend]
      rfl
    rw [emitted, hchecked]
    dsimp only
    rw [htested]
    dsimp only
    rw [hnext]
    dsimp only
    rw [hupdated, beginLoop_eq, endLoop_extend, Piece.append_assoc]
    -- the test in the middle waits for the end of the loop
    have whole := (((((Piece.Fills.of g.site.falling).append hc).append
      (.jump .out (.inl rfl) .onFalse test)).append
        (((hb.append (.of e.falling)).append hu).append
          (.of [su.last.close (.goto (some g.nextLabel))])))).late
    have hbehind : ((p ++ Piece.of [test] ++
        (q ++ Piece.of [su.last.close (.goto (some g.nextLabel))])).waits .out
          ⟨p.blocks.length, .onFalse⟩).jumps .behind = [] := by
      simp [Piece.waits, Piece.of, hcb, hbb, hub, p, q]
    refine ⟨_, (whole.lead_loop hbehind e.next su.ended.next).congr fun w => ?_, hbehind, rfl⟩
    have fork : fill .onFalse su.ended.next test = sc.fork true cond su.ended.next :=
      fill_fork sc true cond _
    rw [update_self, fork]
    simp only [Step.place, List.append_assoc]
    rfl
  | _, .jumpOut, g => by
    change Places _ g (addBreak (jump "break.end" g).1 (jump "break.end" g).2).2 _
    rw [jump_eq]
    exact ⟨_, .jump .out (.inl rfl) .goto _, rfl,
      congrArg Prod.snd (addBreak_extend g _ _ ⟨0, .goto⟩)⟩
  | _, .jumpOn, g => by
    change Places _ g (addContinue (jump "continue.end" g).1 (jump "continue.end" g).2).2 _
    rw [jump_eq]
    exact ⟨_, .jump .on (.inl rfl) .goto _, rfl,
      congrArg Prod.snd (addContinue_extend g _ _ ⟨0, .goto⟩)⟩
  | _, .ret type value, g => by
    change Places _ g (finishBlock (.ret type value) g).2 _
    rw [finishBlock_eq]
    exact ⟨.of _, .of _, rfl, rfl⟩

theorem Arms.emit_place : {inLoop : Bool} → (arms : Arms inLoop) → (g : Graph) →
    ∃ p : Piece, p.Fills inLoop (arms.place g.site).blocks ∧
      (arms.emit g).2 = g.extend p (arms.place g.site).site
  | _, .nil, g => by
    refine ⟨.of [], .of [], ?_⟩
    exact (extend_nothing g).symm
  | inLoop, .always body rest, g => by
    have emitted : ((Arms.always body rest : Arms inLoop).emit g).2 =
      (rest.emit (endArm (body.emit g).2).2).2 := rfl
    obtain ⟨b, hb, -, hbe⟩ := body.emit_place g
    rw [emitted, hbe, endArm_eq, extend_extend]
    obtain ⟨r, hr, hre⟩ := rest.emit_place (g.extend _ _)
    rw [hre, extend_extend]
    exact ⟨_, (hb.append (.jump .behind (.inr rfl) .goto _)).append hr, rfl⟩
  | inLoop, .when check cond body rest, g => by
    have emitted : ((Arms.when check cond body rest : Arms inLoop).emit g).2 =
      let tested := beginArm cond (check.emit g).2
      (rest.emit (elseArm rest.isNil tested.1 (endArm (body.emit tested.2).2).2).2).2 := rfl
    obtain ⟨c, hc, -, hce⟩ := check.emit_place g
    let sc := (check.place g.site).site
    let test := sc.drawn.last.close (testing true cond sc.next)
    let tested := g.extend (c ++ .of [test]) (sc.forked "cond.true")
    obtain ⟨b, hb, -, hbe⟩ := body.emit_place tested
    let e := (body.place (sc.forked "cond.true")).site.opened "block.end.ret"
    let q := b ++ (Piece.of [e.last.close (.goto none)]).waits .behind ⟨0, .goto⟩
    have htested : beginArm cond (g.extend c sc) =
        (⟨g.blocks.length + c.blocks.length, .onFalse⟩, tested) := by
      rw [beginArm, branchOn_eq, extend_extend, Graph.extend, List.length_append]
      rfl
    have hended : (endArm (body.emit tested).2).2 = g.extend (c ++ .of [test] ++ q) e.ended := by
      rw [hbe, endArm_eq]
      exact (extend_extend tested b _ _ _).trans (extend_extend g _ _ _ _)
    have fork (other : Label) : fill .onFalse other test = sc.fork true cond other :=
      fill_fork sc true cond other
    have hq : q.Fills inLoop fun w => (body.place (sc.forked "cond.true")).blocks w ++
        [e.last.close (.goto (some (w .behind)))] := hb.append (.jump .behind (.inr rfl) .goto _)
    rw [emitted, hce]
    dsimp only
    rw [htested]
    dsimp only
    rw [hended]
    cases hnil : rest.isNil with
    | true =>
      have left : (elseArm true ⟨g.blocks.length + c.blocks.length, .onFalse⟩
          (g.extend (c ++ .of [test] ++ q) e.ended)).2 =
          g.extend ((c ++ .of [test] ++ q).waits .behind ⟨c.blocks.length, .onFalse⟩) e.ended :=
        congrArg Prod.snd (addExit_extend g _ _ ⟨c.blocks.length, .onFalse⟩)
      rw [left]
      obtain ⟨r, hr, hre⟩ := rest.emit_place (g.extend _ e.ended)
      rw [hre, extend_extend]
      have whole := ((hc.append (.jump .behind (.inr rfl) .onFalse test)).append hq).late.append hr
      refine ⟨_, whole.congr fun w => ?_, ?_⟩
      · simp only [Arms.place, hnil, if_true, fork, List.append_assoc]
        rfl
      · simp only [Arms.place, hnil, if_true]
        rfl
    | false =>
      have left : (elseArm false ⟨g.blocks.length + c.blocks.length, .onFalse⟩
          (g.extend (c ++ .of [test] ++ q) e.ended)).2 =
          g.extend (c ++ .of [sc.fork true cond e.ended.next] ++ q) (e.ended.joined "cond.false") :=
        ((congrArg Prod.snd (join_patch g c q e.ended test .onFalse "cond.false")).trans
          (congrArg (g.extend · _) (Piece.append_of_nil _))).trans (by rw [fork])
      rw [left]
      obtain ⟨r, hr, hre⟩ := rest.emit_place (g.extend _ (e.ended.joined "cond.false"))
      rw [hre, extend_extend]
      have whole := ((hc.append (.of [sc.fork true cond e.ended.next])).append hq).append hr
      refine ⟨_, whole.congr fun w => ?_, ?_⟩
      · simp only [Arms.place, hnil, if_false, Bool.false_eq_true, List.append_assoc]
        rfl
      · simp only [Arms.place, hnil, if_false, Bool.false_eq_true]
        rfl

theorem Cases.emit_place : {inLoop : Bool} → (cases : Cases inLoop) → (g : Graph) →
    (b : OpenBlock) → (value : Value) → (type : String) → (known : List (Int × Label)) →
    (p : Piece) → (next : Label) →
    ∃ q : Piece, q.Fills inLoop (cases.place next).blocks ∧
      (cases.emit g.blocks.length
        (((p.jumps .behind).map (Pending.shift 1)).map (Pending.shift g.blocks.length))
        (g.extend (.of [b.close (.switch value type known none)] ++ p).conceal ⟨none, next⟩)).2 =
      g.extend ((.of [b.close (.switch value type (known ++ (cases.place next).targets)
        (some (cases.place next).otherwise))] ++ (p ++ q)).lead .behind (cases.place next).behind)
        (cases.place next).site
  | inLoop, .nil, g, b, value, type, known, p, next => by
    have emitted (switch : Nat) (exits : List Pending) (h : Graph) :
        ((Cases.nil : Cases inLoop).emit switch exits h).2 =
      (patchAll exits (beginDefault switch h).1 (beginDefault switch h).2).2 := rfl
    refine ⟨.of [], .of [], ?_⟩
    rw [emitted, beginDefault_extend]
    dsimp only
    refine (congrArg Prod.snd (patchAll_extend g _ _ _ _)).trans ?_
    simp only [Cases.place, List.append_nil, Piece.append_of_nil]
    rfl
  | inLoop, .otherwise body, g, b, value, type, known, p, next => by
    have emitted (switch : Nat) (exits : List Pending) (h : Graph) :
        ((Cases.otherwise body : Cases inLoop).emit switch exits h).2 =
      let ended := endCase exits (body.emit (beginDefault switch h).2).2
      (join ended.1 "switch.end" ended.2).2 := rfl
    rw [emitted, beginDefault_extend]
    obtain ⟨q, hq, he⟩ := (body.emit_place (g.extend
      (.of [b.close (.switch value type known (some next))] ++ p).conceal
      (Site.joined ⟨none, next⟩ "switch.default"))).endCase
    refine ⟨q, hq, ?_⟩
    rw [Piece.of_append_jumps, Piece.append_assoc, Piece.of_append_jumps] at he
    dsimp only
    rw [he]
    refine (congrArg Prod.snd
      (join_extend g _ _ ((p ++ q).jumps .behind |>.map (.shift 1)) _)).trans ?_
    simp only [Cases.place, List.append_nil]
    exact congrArg (g.extend · _) (Piece.append_of_nil _)
  | inLoop, .case n body rest, g, b, value, type, known, p, next => by
    have emitted (switch : Nat) (exits : List Pending) (h : Graph) :
        ((Cases.case n body rest : Cases inLoop).emit switch exits h).2 =
      let ended := endCase exits (body.emit (beginCase switch n h).2).2
      (rest.emit switch ended.1 ended.2).2 := rfl
    rw [emitted, beginCase_extend]
    let s := Site.joined ⟨none, next⟩ ("switch.case " ++ Text.signed n)
    obtain ⟨q, hq, he⟩ := (body.emit_place (g.extend
      (.of [b.close (.switch value type (known ++ [(n, next)]) none)] ++ p).conceal s)).endCase
    obtain ⟨r, hr, hre⟩ := rest.emit_place g b value type (known ++ [(n, next)]) (p ++ q)
      (body.place s).site.next
    refine ⟨q ++ r, hq.append hr, ?_⟩
    rw [Piece.of_append_jumps, Piece.append_assoc, Piece.of_append_jumps] at he
    dsimp only
    rw [he]
    simp only [Cases.place, List.append_assoc, Piece.append_assoc] at hre ⊢
    exact hre

end

/-! ## Bodies -/

/-- The blocks of a body; `t` ends the last one when control can get there. -/
def Code.blocks (code : Code false) (t : Terminator) : List Block :=
  let l := code.place (Graph.site {})
  l.blocks (fun _ => Ir.entryLabel) ++ l.site.current.toList.map fun block => block.close t

/-- Outside of loops no jump is left waiting. -/
theorem closeLast_emit (code : Code false) (t : Terminator) :
    (closeLast t (code.emit {}).2).2.blocks = code.blocks t := by
  obtain ⟨p, hp, hb, he⟩ := code.emit_place {}
  obtain ⟨hout, hon⟩ := hp.outside rfl
  have blocks : p.blocks = (code.place (Graph.site {})).blocks fun _ => Ir.entryLabel := by
    rw [← hp.filled, Piece.filled, hout, hon, hb]
    rfl
  rw [he, Code.blocks]
  cases hc : (code.place (Graph.site {})).site.current with
  | none =>
    rw [closeLast_closed hc]
    simp [Graph.extend, blocks, hc]
  | some b =>
    rw [closeLast_open hc]
    simp [Graph.extend, blocks, hc]

end Codegen.Lowering
