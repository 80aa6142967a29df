import Codegen.Proofs.Steps
import Mathlib.Data.List.Range

/-!
# Labels of emitted blocks

Every label that is drawn is opened once, and every label that a jump leads to stands in order: the
blocks behind it have greater labels.  Only a block that a terminator behind a terminator has to
invent can stand out of order, and nothing jumps to such a block.  `Sound` says so of a graph, and
`emit_advances` that every piece of structured code keeps it.
-/

namespace Codegen.Lowering

open Ir (Inst Value Label Terminator Block)

/-- The labels in the order in which their blocks were opened. -/
def Graph.labels (g : Graph) : List Label :=
  g.blocks.map Block.label ++ g.current.toList.map OpenBlock.label

/-- The labels that the finished blocks jump to. -/
def targetsOf (blocks : List Block) : List Label := blocks.flatMap Block.successors

/-- Only greater labels stand behind the label `t`. -/
def InOrder (t : Label) (labels : List Label) : Prop := labels.Pairwise fun a b => a = t → a < b

theorem InOrder.append {t : Label} {labels new : List Label} (h : InOrder t labels)
    (hnew : ∀ l ∈ new, t < l) : InOrder t (labels ++ new) := by
  refine List.pairwise_append.2 ⟨h, ?_, fun a _ l hl e => e ▸ hnew l hl⟩
  refine List.pairwise_of_forall_mem_list fun a ha _ _ e => ?_
  exact absurd e (hnew a ha).ne'

theorem inOrder_concat {t : Label} {labels : List Label} (h : t ∉ labels) :
    InOrder t (labels ++ [t]) := by
  refine List.pairwise_append.2 ⟨?_, List.pairwise_singleton _ _, fun a ha _ _ e => ?_⟩
  · exact List.pairwise_of_forall_mem_list fun a ha _ _ e => absurd (e ▸ ha) h
  · exact absurd (e ▸ ha) h

/-- All labels drawn so far are opened once, and all that are jumped to stand in order. -/
structure Sound (g : Graph) : Prop where
  labels : g.labels.Perm (List.range g.nextLabel)
  targets : ∀ t ∈ targetsOf g.blocks, t < g.nextLabel ∧ InOrder t g.labels

theorem Sound.lt {g : Graph} (h : Sound g) {l : Label} (hl : l ∈ g.labels) : l < g.nextLabel :=
  List.mem_range.1 (h.labels.subset hl)

/-- A sound graph that comes from `g` by opening further blocks. -/
structure Advances (g g' : Graph) : Prop where
  sound : Sound g'
  labels : ∃ new, g'.labels = g.labels ++ new ∧ ∀ l ∈ new, g.nextLabel ≤ l
  next : g.nextLabel ≤ g'.nextLabel

theorem Advances.refl {g : Graph} (h : Sound g) : Advances g g := ⟨h, ⟨[], by simp⟩, le_rfl⟩

theorem Advances.trans {g g' g'' : Graph} (h : Advances g g') (h' : Advances g' g'') :
    Advances g g'' := by
  obtain ⟨new, hl, hnew⟩ := h.labels
  obtain ⟨new', hl', hnew'⟩ := h'.labels
  refine ⟨h'.sound, ⟨new ++ new', by rw [hl', hl, List.append_assoc], ?_⟩, h.next.trans h'.next⟩
  intro l hl
  rcases List.mem_append.1 hl with hl | hl
  · exact hnew l hl
  · exact h.next.trans (hnew' l hl)

/-- A label that stands in order goes on to do so. -/
theorem Advances.inOrder {g g' : Graph} (h : Advances g g') {t : Label} (ht : t < g.nextLabel)
    (ho : InOrder t g.labels) : t < g'.nextLabel ∧ InOrder t g'.labels := by
  obtain ⟨new, hl, hnew⟩ := h.labels
  refine ⟨ht.trans_le h.next, ?_⟩
  rw [hl]
  exact ho.append fun l hl => ht.trans_le (hnew l hl)

/-- The labels `new` are opened and jumps to the labels `ts` are added. -/
theorem Sound.advance {g g' : Graph} (h : Sound g) (new ts : List Label)
    (labels : g'.labels = g.labels ++ new)
    (next : (List.range g.nextLabel ++ new).Perm (List.range g'.nextLabel))
    (drawn : ∀ l ∈ new, g.nextLabel ≤ l)
    (targets : ∀ t ∈ targetsOf g'.blocks, t ∈ targetsOf g.blocks ∨ t ∈ ts)
    (order : ∀ t ∈ ts, t < g'.nextLabel ∧ InOrder t (g.labels ++ new)) : Advances g g' := by
  have hle : g.nextLabel ≤ g'.nextLabel := by
    have count := next.length_eq
    simp only [List.length_append, List.length_range] at count
    exact count ▸ Nat.le_add_right _ _
  refine ⟨⟨?_, fun t ht => ?_⟩, ⟨new, labels, drawn⟩, hle⟩
  · rw [labels]
    exact (h.labels.append_right new).trans next
  · rcases targets t ht with ht | ht
    · obtain ⟨hlt, ho⟩ := h.targets t ht
      refine ⟨hlt.trans_le hle, ?_⟩
      rw [labels]
      exact ho.append fun l hl => hlt.trans_le (drawn l hl)
    · rw [labels]
      exact order t ht

/-! ## Targets of changed blocks -/

theorem targetsOf_append (blocks new : List Block) :
    targetsOf (blocks ++ new) = targetsOf blocks ++ targetsOf new := List.flatMap_append

theorem mem_successors_fill {slot : TargetSlot} {label t : Label} {b : Block}
    (h : t ∈ (fill slot label b).successors) : t ∈ b.successors ∨ t = label := by
  obtain ⟨_, _, _, terminator⟩ := b
  cases terminator <;> cases slot <;>
    simp [fill, fillTarget, Block.successors, Terminator.targets] at h ⊢ <;> grind

theorem mem_successors_withCase {value : Int} {label t : Label} {b : Block}
    (h : t ∈ (withCase value label b).successors) : t ∈ b.successors ∨ t = label := by
  obtain ⟨_, _, _, terminator⟩ := b
  cases terminator <;>
    simp [withCase, appendCase, Block.successors, Terminator.targets] at h ⊢ <;> grind

/-- A change of one block that adds jumps to `label` only. -/
theorem mem_targetsOf_modify {f : Block → Block} {label : Label} {blocks : List Block} {i : Nat}
    (hf : ∀ b t, t ∈ (f b).successors → t ∈ b.successors ∨ t = label) {t : Label}
    (h : t ∈ targetsOf (blocks.modify i f)) : t ∈ targetsOf blocks ∨ t = label := by
  obtain ⟨b, hb, ht⟩ := List.mem_flatMap.1 h
  obtain ⟨j, hj⟩ := List.mem_iff_getElem?.1 hb
  rw [List.getElem?_modify] at hj
  obtain ⟨c, hc, rfl⟩ := Option.map_eq_some_iff.1 hj
  have hmem : c ∈ blocks := List.mem_of_getElem? hc
  split at ht
  · exact (hf c t ht).imp_left fun ht => List.mem_flatMap.2 ⟨c, hmem, ht⟩
  · exact .inl (List.mem_flatMap.2 ⟨c, hmem, ht⟩)

theorem mem_targetsOf_fillAll {label t : Label} {jumps : List Pending} {blocks : List Block}
    (h : t ∈ targetsOf (fillAll label jumps blocks)) : t ∈ targetsOf blocks ∨ t = label := by
  induction jumps generalizing blocks with
  | nil => exact .inl h
  | cons p jumps ih =>
    rcases ih h with h | h
    · exact mem_targetsOf_modify (fun _ _ => mem_successors_fill) h
    · exact .inr h

theorem some_mem_targets_testing {holds : Bool} {cond : Value} {label t : Label} :
    some t ∈ (testing holds cond label).targets ↔ t = label := by
  cases holds <;> simp [testing, Terminator.targets]

theorem map_label_fillAll (label : Label) (jumps : List Pending) (blocks : List Block) :
    (fillAll label jumps blocks).map Block.label = blocks.map Block.label :=
  map_fillAll (fun _ _ _ => rfl) label jumps blocks

/-! ## Steps -/

section Steps

variable {g : Graph} (h : Sound g)
include h

theorem Sound.next_not_mem : g.nextLabel ∉ g.labels := fun hl => (h.lt hl).false

/-- Changes of finished blocks that add jumps to one label, which stands in order. -/
theorem Sound.rewire {blocks : List Block} {t : Label}
    (labels : blocks.map Block.label = g.blocks.map Block.label)
    (targets : ∀ t' ∈ targetsOf blocks, t' ∈ targetsOf g.blocks ∨ t' = t)
    (ht : t < g.nextLabel) (ho : InOrder t g.labels) : Advances g { g with blocks := blocks } := by
  refine h.advance [] [t] ?_ (by simp) (by simp) (fun t' ht' => ?_) (fun t' ht' => ?_)
  · simp only [Graph.labels, labels, List.append_nil]
  · simpa using targets t' ht'
  · rw [List.mem_singleton.1 ht', List.append_nil]
    exact ⟨ht, ho⟩

/-- The terminator of a finished block may only jump to labels that stand in order. -/
theorem Sound.finishBlock {t : Terminator}
    (ht : ∀ l ∈ t.targets.filterMap id, l < g.nextLabel ∧ InOrder l g.labels) :
    Advances g (finishBlock t g).2 := by
  cases hc : g.current with
  | none =>
    rw [finishBlock_closed hc]
    refine h.advance [g.nextLabel] (t.targets.filterMap id) ?_ ?_ (by simp) ?_ fun l hl => ?_
    · simp [Graph.labels, hc]
    · rw [List.range_succ]
    · simp [targetsOf, Block.successors]
    · obtain ⟨hlt, ho⟩ := ht l hl
      exact ⟨Nat.lt_succ_of_lt hlt, ho.append (by simpa using hlt)⟩
  | some b =>
    rw [finishBlock_open hc]
    refine h.advance [] (t.targets.filterMap id) ?_ (by simp) (by simp) ?_ fun l hl => ?_
    · simp [Graph.labels, hc, OpenBlock.close]
    · simp [targetsOf, Block.successors, OpenBlock.close]
    · rw [List.append_nil]
      exact ht l hl

/-- The invented block of a test behind a terminator stands out of order, but nothing jumps to
it. -/
theorem Sound.branchOn (holds : Bool) (cond : Value) (comment : String) :
    Advances g (branchOn holds cond comment g).2 := by
  cases hc : g.current with
  | none =>
    rw [branchOn_closed hc]
    refine h.advance [g.nextLabel + 1, g.nextLabel] [g.nextLabel] ?_ ?_ (by simp) ?_ ?_
    · simp [Graph.labels, hc]
    · rw [List.range_succ, List.range_succ, List.append_assoc]
      exact (List.Perm.swap _ _ _).append_left _
    · simp [targetsOf, Block.successors, some_mem_targets_testing]
    · intro t ht
      rw [List.mem_singleton.1 ht]
      refine ⟨Nat.lt_succ_of_lt (Nat.lt_succ_self _), ?_⟩
      have fresh : g.nextLabel ∉ g.labels ++ [g.nextLabel + 1] := by simp [h.next_not_mem]
      simpa using inOrder_concat fresh
  | some b =>
    rw [branchOn_open hc]
    refine h.advance [g.nextLabel] [g.nextLabel] ?_ ?_ (by simp) ?_ ?_
    · simp [Graph.labels, hc, OpenBlock.close]
    · rw [List.range_succ]
    · simp [targetsOf, Block.successors, OpenBlock.close, some_mem_targets_testing]
    · intro t ht
      rw [List.mem_singleton.1 ht]
      exact ⟨Nat.lt_succ_self _, inOrder_concat h.next_not_mem⟩

theorem Sound.join (jumps : List Pending) (comment : String) :
    Advances g (join jumps comment g).2 := by
  have order : ∀ t ∈ [g.nextLabel], t < g.nextLabel + 1 ∧
      InOrder t (g.labels ++ [g.nextLabel]) := by
    intro t ht
    rw [List.mem_singleton.1 ht]
    exact ⟨Nat.lt_succ_self _, inOrder_concat h.next_not_mem⟩
  cases hc : g.current with
  | none =>
    rw [join_closed hc]
    refine h.advance [g.nextLabel] [g.nextLabel] ?_ ?_ (by simp) (fun t ht => ?_) order
    · simp [Graph.labels, hc, map_label_fillAll]
    · rw [List.range_succ]
    · simpa using mem_targetsOf_fillAll ht
  | some b =>
    rw [join_open hc]
    refine h.advance [g.nextLabel] [g.nextLabel] ?_ ?_ (by simp) (fun t ht => ?_) order
    · simp [Graph.labels, hc, map_label_fillAll, OpenBlock.close]
    · rw [List.range_succ]
    · rw [targetsOf_append, List.mem_append] at ht
      rcases ht with ht | ht
      · simpa using mem_targetsOf_fillAll ht
      · exact .inr (by simpa [targetsOf, Block.successors, OpenBlock.close,
          Terminator.targets] using ht)

theorem Sound.ensureOpen (comment : String) : Advances g (ensureOpen comment g).2 := by
  cases hc : g.current with
  | none =>
    rw [ensureOpen_closed hc]
    simpa only [join_closed hc, fillAll] using h.join [] comment
  | some b =>
    rw [ensureOpen_open hc]
    exact .refl h

/-- The label that jumps are joined at stands in order. -/
theorem Sound.join_inOrder (jumps : List Pending) (comment : String) :
    (Lowering.join jumps comment g).1 < (Lowering.join jumps comment g).2.nextLabel ∧
      InOrder (Lowering.join jumps comment g).1 (Lowering.join jumps comment g).2.labels := by
  cases hc : g.current with
  | none =>
    rw [join_closed hc]
    refine ⟨Nat.lt_succ_self _, ?_⟩
    simpa [Graph.labels, hc, map_label_fillAll] using inOrder_concat h.next_not_mem
  | some b =>
    rw [join_open hc]
    refine ⟨Nat.lt_succ_self _, ?_⟩
    simpa [Graph.labels, hc, map_label_fillAll, OpenBlock.close] using
      inOrder_concat h.next_not_mem

theorem Sound.append (inst : Inst) : Advances g (append inst g).2 := by
  cases hc : g.current with
  | none =>
    rw [append_closed hc]
    refine h.advance [g.nextLabel] [] ?_ ?_ (by simp) (fun t ht => .inl ht) (by simp)
    · simp [Graph.labels, hc]
    · rw [List.range_succ]
  | some b =>
    rw [append_open hc]
    refine h.advance [] [] ?_ (by simp) (by simp) (fun t ht => .inl ht) (by simp)
    simp [Graph.labels, hc]

/-- The lists of waiting jumps have no part in soundness. -/
theorem Sound.congr {g' : Graph} (hb : g'.blocks = g.blocks) (hc : g'.current = g.current)
    (hn : g'.nextLabel = g.nextLabel) : Advances g g' := by
  have labels : g'.labels = g.labels := by rw [Graph.labels, hb, hc, Graph.labels]
  refine h.advance [] [] ?_ ?_ (by simp) (fun t ht => ?_) (by simp)
  · rw [labels, List.append_nil]
  · rw [hn, List.append_nil]
  · rw [hb] at ht
    exact .inl ht

theorem Sound.patchAll (jumps : List Pending) {t : Label} (ht : t < g.nextLabel)
    (ho : InOrder t g.labels) : Advances g (patchAll jumps t g).2 :=
  h.rewire (map_label_fillAll t jumps g.blocks) (fun _ => mem_targetsOf_fillAll) ht ho

theorem Sound.addCase (switch : Nat) (value : Int) {t : Label} (ht : t < g.nextLabel)
    (ho : InOrder t g.labels) : Advances g (addCase switch value t g).2 :=
  h.rewire (map_modify_of_eq (f := withCase value t) (fun _ => rfl) g.blocks switch)
    (fun _ => mem_targetsOf_modify fun _ _ => mem_successors_withCase) ht ho

end Steps

/-! ## Structured code -/

/-- A block step that keeps a graph sound. -/
def Advancing {α : Type} (x : Build α) : Prop := ∀ g, Sound g → Advances g (x g).2

section Advancing

variable {α β : Type}

theorem Advancing.pure (a : α) : Advancing (pure a) := fun _ h => .refl h

theorem Advancing.bind {x : Build α} {f : α → Build β} (hx : Advancing x)
    (hf : ∀ a, Advancing (f a)) : Advancing (x >>= f) := fun g h =>
  (hx g h).trans (hf _ _ (hx g h).sound)

theorem advancing_modify {f : Graph → Graph} (hb : ∀ g, (f g).blocks = g.blocks)
    (hc : ∀ g, (f g).current = g.current) (hn : ∀ g, (f g).nextLabel = g.nextLabel) :
    Advancing (modify f) := fun g h => h.congr (hb g) (hc g) (hn g)

theorem advancing_join (jumps : List Pending) (comment : String) : Advancing (join jumps comment) :=
  fun _ h => h.join jumps comment

/-- A block that is left open by its terminator, or that leaves the function. -/
theorem advancing_finishBlock {t : Terminator} (ht : t.targets.filterMap id = []) :
    Advancing (finishBlock t) := fun _ h => h.finishBlock fun l hl => by rw [ht] at hl; cases hl

theorem advancing_pushLoop : Advancing pushLoop := fun _ h => h.congr rfl rfl rfl

theorem advancing_popLoop : Advancing popLoop := fun _ h => h.congr rfl rfl rfl

theorem advancing_jump (comment : String) : Advancing (jump comment) :=
  .bind (advancing_finishBlock rfl) fun _ => .bind (advancing_join [] comment) fun _ => .pure _

theorem advancing_endArm : Advancing endArm :=
  .bind (fun _ h => h.ensureOpen _) fun _ => .bind (advancing_finishBlock rfl) fun _ =>
    advancing_modify (fun _ => rfl) (fun _ => rfl) fun _ => rfl

theorem advancing_elseArm (isLast : Bool) (notTaken : Pending) :
    Advancing (elseArm isLast notTaken) := by
  cases isLast with
  | true => exact advancing_modify (fun _ => rfl) (fun _ => rfl) fun _ => rfl
  | false => exact .bind (advancing_join _ _) fun _ => .pure ()

theorem advancing_endCase (exits : List Pending) : Advancing (endCase exits) := by
  intro g h
  cases hc : g.current with
  | none =>
    rw [endCase_closed hc]
    exact .refl h
  | some b =>
    rw [endCase_open hc]
    simpa only [finishBlock_open hc] using advancing_finishBlock (t := .goto none) rfl g h

theorem advancing_beginCase (switch : Nat) (value : Int) : Advancing (beginCase switch value) := by
  intro g h
  have opened := h.join [] ("switch.case " ++ Text.signed value)
  obtain ⟨hlt, ho⟩ := h.join_inOrder [] ("switch.case " ++ Text.signed value)
  exact opened.trans (opened.sound.addCase switch value hlt ho)

theorem advances_endLoop {g : Graph} (h : Sound g) {entry next : Label}
    (hentry : entry < g.nextLabel ∧ InOrder entry g.labels)
    (hnext : next < g.nextLabel ∧ InOrder next g.labels) (out : Pending) :
    Advances g (endLoop entry next out g).2 := by
  have closed := h.finishBlock (t := .goto (some entry))
    (by simpa [Terminator.targets] using hentry)
  have popped := advancing_popLoop _ closed.sound
  obtain ⟨hlt, ho⟩ := (closed.trans popped).inOrder hnext.1 hnext.2
  have patched := popped.sound.patchAll (popLoop (finishBlock (.goto (some entry)) g).2).1.2 hlt ho
  exact closed.trans <| popped.trans <| patched.trans <| patched.sound.join _ "loop.exit"

end Advancing

mutual

/-- Structured code keeps a graph sound. -/
theorem Code.emit_advances {inLoop : Bool} : (code : Code inLoop) → Advancing code.emit
  | .done => .pure ()
  | .cons step rest => .bind step.emit_advances fun _ => rest.emit_advances

theorem Step.emit_advances {inLoop : Bool} : (step : Step inLoop) → Advancing step.emit
  | .inst inst => fun _ h => h.append inst
  | .guard isAnd cond right =>
    .bind (fun _ h => h.branchOn isAnd cond _) fun _ => .bind right.emit_advances fun _ =>
      .bind (advancing_join _ _) fun _ => .pure ()
  | .branch arms =>
    .bind (advancing_modify (fun _ => rfl) (fun _ => rfl) fun _ => rfl) fun _ =>
      .bind arms.emit_advances fun _ =>
        .bind (fun _ h => h.congr rfl rfl rfl) fun _ => .bind (advancing_join _ _) fun _ => .pure ()
  | .switch value type cases =>
    .bind (advancing_finishBlock rfl) fun switch => cases.emit_advances switch []
  | .loop check cond body update => by
    intro g h
    have entered := h.join [] "loop.entry"
    have entry := h.join_inOrder [] "loop.entry"
    have pushed := advancing_pushLoop _ entered.sound
    have checked := check.emit_advances _ pushed.sound
    have tested := checked.sound.branchOn true cond "loop.body"
    have ran := body.emit_advances _ tested.sound
    have ended := ran.sound.ensureOpen "loop.ret.end"
    have updating := ended.sound.join [] "loop.continue"
    have next := ended.sound.join_inOrder [] "loop.continue"
    have updated := update.emit_advances _ updating.sound
    -- the jumps back to the check and to the update lead to labels opened long before
    have toEntry := (pushed.trans <| checked.trans <| tested.trans <| ran.trans <| ended.trans <|
      updating.trans updated).inOrder entry.1 entry.2
    have toNext := updated.inOrder next.1 next.2
    exact entered.trans <| pushed.trans <| checked.trans <| tested.trans <| ran.trans <|
      ended.trans <| updating.trans <| updated.trans <|
      advances_endLoop updated.sound toEntry toNext _
  | .jumpOut =>
    .bind (advancing_jump _) fun _ => advancing_modify (fun _ => rfl) (fun _ => rfl) fun _ => rfl
  | .jumpOn =>
    .bind (advancing_jump _) fun _ => advancing_modify (fun _ => rfl) (fun _ => rfl) fun _ => rfl
  | .ret type value => .bind (advancing_finishBlock rfl) fun _ => .pure ()

theorem Arms.emit_advances {inLoop : Bool} : (arms : Arms inLoop) → Advancing arms.emit
  | .nil => .pure ()
  | .always body rest =>
    .bind body.emit_advances fun _ => .bind advancing_endArm fun _ => rest.emit_advances
  | .when check cond body rest =>
    .bind check.emit_advances fun _ => .bind (fun _ h => h.branchOn true cond _) fun _ =>
      .bind body.emit_advances fun _ => .bind advancing_endArm fun _ =>
        .bind (advancing_elseArm _ _) fun _ => rest.emit_advances

theorem Cases.emit_advances {inLoop : Bool} (switch : Nat) (exits : List Pending) :
    (cases : Cases inLoop) → Advancing (cases.emit switch exits)
  | .nil => fun g h => by
    have opened := h.join [⟨switch, .otherwise⟩] "switch.default"
    obtain ⟨hlt, ho⟩ := h.join_inOrder [⟨switch, .otherwise⟩] "switch.default"
    exact opened.trans (opened.sound.patchAll exits hlt ho)
  | .otherwise body =>
    .bind (advancing_join _ _) fun _ => .bind body.emit_advances fun _ =>
      .bind (advancing_endCase exits) fun _ => .bind (advancing_join _ _) fun _ => .pure ()
  | .case value body rest =>
    .bind (advancing_beginCase switch value) fun _ => .bind body.emit_advances fun _ =>
      .bind (advancing_endCase exits) fun exits => rest.emit_advances switch exits

end

end Codegen.Lowering
