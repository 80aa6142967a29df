import Codegen.Proofs.Flow
import Mathlib.Logic.Relation

/-!
# What the check and the pruning of a function guarantee

Both rest on a search of the blocks.  Here its outcome is said by the terminators alone: a label is
reached if a chain of jumps leads from the entry to it (`Function.LeadsTo`), whatever else is wrong
with the blocks.

* The check finds nothing exactly if the function is `WellFormed`.
* Pruning keeps exactly the blocks to which a chain of jumps leads, and with them every path from
  the entry; what it leaves behind is left alone by pruning it once more.
-/

namespace Codegen.Ir

namespace Function

/-- A block with the label `l` may jump to the label `l'`. -/
def Jumps (f : Function) (l l' : Label) : Prop :=
  ∃ b ∈ f.blocks, b.label = l ∧ some l' ∈ b.terminator.targets

/-- A chain of jumps, none or finitely many, leads from the entry to the label. -/
def LeadsTo (f : Function) (l : Label) : Prop := Relation.ReflTransGen f.Jumps entryLabel l

variable {f : Function}

theorem jumps_iff (hu : (f.blocks.map Block.label).Nodup) {l l' : Label} :
    f.Jumps l l' ↔ l' ∈ f.successors l := by
  constructor
  · rintro ⟨b, hb, rfl, hl'⟩
    rw [successors_of_mem hu hb]
    exact List.mem_filterMap.2 ⟨_, hl', rfl⟩
  · intro hl'
    rw [successors] at hl'
    cases hb : f.blockAt? l with
    | none => simp [hb] at hl'
    | some b =>
      obtain ⟨hmem, hlabel⟩ := mem_of_blockAt? hb
      rw [hb] at hl'
      obtain ⟨t, ht, rfl⟩ := List.mem_filterMap.1 hl'
      exact ⟨b, hmem, hlabel, ht⟩

theorem leadsTo_iff (hu : (f.blocks.map Block.label).Nodup) {l : Label} :
    f.LeadsTo l ↔ f.Reached l := by
  constructor
  · intro h
    induction h with
    | refl => exact .entry
    | tail _ hl ih => exact ih.jump ((jumps_iff hu).1 hl)
  · intro h
    induction h with
    | entry => exact .refl
    | jump _ hl ih => exact ih.tail ((jumps_iff hu).2 hl)

theorem hasEntry_iff : f.hasEntry = true ↔ f.blocks.head?.map Block.label = some entryLabel :=
  decide_eq_true_iff

/-! ## The check -/

/-- The rules for a function with a body. -/
structure WellFormed (f : Function) : Prop where
  /-- The first block is the entry. -/
  entry : f.blocks.head?.map Block.label = some entryLabel
  /-- Labels are defined once. -/
  unique : (f.blocks.map Block.label).Nodup
  /-- No target is missing. -/
  filled : ∀ b ∈ f.blocks, none ∉ b.terminator.targets
  /-- Every target is the label of a block. -/
  defined : ∀ b ∈ f.blocks, ∀ l, some l ∈ b.terminator.targets → ∃ b' ∈ f.blocks, b'.label = l
  /-- Every block is reached from the entry. -/
  reached : ∀ b ∈ f.blocks, f.LeadsTo b.label

theorem wellFormed_iff :
    f.WellFormed ↔ f.Closed ∧ ∀ b ∈ f.blocks, f.Reached b.label := by
  constructor
  · intro h
    refine ⟨⟨hasEntry_iff.2 h.entry, h.unique, fun b hb t ht => ?_⟩,
      fun b hb => (leadsTo_iff h.unique).1 (h.reached b hb)⟩
    cases t with
    | none => exact absurd ht (h.filled b hb)
    | some l =>
      obtain ⟨b', hb', rfl⟩ := h.defined b hb l ht
      exact ⟨b', hb', rfl⟩
  · rintro ⟨h, hr⟩
    refine ⟨hasEntry_iff.1 h.entry, h.unique, fun b hb hnone => ?_, fun b hb l hl => ?_,
      fun b hb => (leadsTo_iff h.unique).2 (hr b hb)⟩
    · obtain ⟨_, _, heq⟩ := h.targets b hb none hnone
      cases heq
    · obtain ⟨b', hb', heq⟩ := h.targets b hb _ hl
      exact ⟨b', hb', (Option.some.inj heq).symm⟩

/-- The check of a function with a body finds nothing exactly if the function starts with its
entry, labels are defined once, every target is filled in and defined, and every block is reached
from the entry by a chain of jumps.  Of a declaration it never finds anything. -/
theorem check_passes_exactly_well_formed_functions :
    (∀ f : Function, f.blocks ≠ [] → (f.verify = [] ↔ f.WellFormed)) ∧
      ∀ f : Function, f.isDeclaration = true → f.verify = [] := by
  refine ⟨fun f hf => (verify_eq_nil_iff hf).trans wellFormed_iff.symm, fun f hf => ?_⟩
  rw [verify, if_pos hf]

end Function

namespace Sample

/-- Blocks with the given labels and terminators, in a function without a result. -/
def blocks (ends : List (Label × Terminator)) : Function where
  name := "f"
  returnType := "void"
  blocks := ends.map fun e => { label := e.1, terminator := e.2 }

/-- A loop whose blocks do not stand in the order of their labels. -/
def ring : Function :=
  blocks [(0, .goto (some 5)), (5, .branch (.lit "1") (some 2) (some 3)), (3, .retVoid),
    (2, .goto (some 5))]

/-- A function with a block that nothing reaches, which jumps to a label that does not exist and to
one that is not known. -/
def stray : Function :=
  blocks [(0, .goto (some 2)), (1, .branch (.lit "1") (some 9) none), (2, .goto (some 2))]

end Sample

namespace Function

theorem ring_passes_the_check :
    Sample.ring.blocks ≠ [] ∧ Sample.ring.WellFormed ∧ Sample.stray.blocks ≠ [] ∧
      ¬Sample.stray.WellFormed ∧ (Sample.blocks []).verify = [] := by
  obtain ⟨checked, declared⟩ := check_passes_exactly_well_formed_functions
  have ring : Sample.ring.blocks ≠ [] := by decide
  have stray : Sample.stray.blocks ≠ [] := by decide
  refine ⟨ring, (checked _ ring).1 ?_, stray, fun h => ?_, declared _ rfl⟩
  · decide +kernel
  · exact absurd ((checked _ stray).2 h) (by decide +kernel)

/-! ## Pruning -/

/-- Pruning a function whose labels are defined once and whose first block is the entry keeps
exactly the blocks to which a chain of jumps leads, as they are and in order, counts the others and
leaves all paths from the entry as they were.  If the blocks that are reached have all their targets
filled in and defined, the check finds nothing in what is left.  Of any function at all, pruning
removes nothing the second time. -/
theorem pruning_keeps_exactly_what_is_reached :
    (∀ f : Function, (f.blocks.map Block.label).Nodup →
      f.blocks.head?.map Block.label = some entryLabel →
      (∃ keep : Block → Bool, (∀ b ∈ f.blocks, keep b = true ↔ f.LeadsTo b.label) ∧
        f.prune = { f with blocks := f.blocks.filter keep } ∧
        f.pruneCount = f.blocks.countP (!keep ·)) ∧
      (∀ before b, f.prune.Path before b ↔ f.Path before b) ∧
      ((∀ b ∈ f.blocks, f.LeadsTo b.label →
          ∀ t ∈ b.terminator.targets, ∃ b' ∈ f.blocks, t = some b'.label) →
        f.prune.verify = [])) ∧
    ∀ f : Function, f.prune.prune = f.prune ∧ f.prune.pruneCount = 0 := by
  refine ⟨fun f hu he => ?_, fun f => ⟨f.prune_prune, ?_⟩⟩
  · have he := hasEntry_iff.2 he
    let keep (b : Block) := f.reachable.contains b.label
    have counted : f.blocks.length = f.blocks.countP keep + f.blocks.countP (!keep ·) := by
      simpa using List.length_eq_countP_add_countP keep
    have kept : f.prune.blocks.length = f.blocks.countP keep := List.countP_eq_length_filter.symm
    refine ⟨⟨keep, fun b _ => ?_, rfl, ?_⟩, fun before b => ⟨.of_prune, .prune he hu⟩,
      fun ht => verify_prune he hu fun b hb hr => ht b hb ((leadsTo_iff hu).2 hr)⟩
    · rw [List.contains_iff_mem, mem_reachable he, leadsTo_iff hu]
    · rw [pruneCount, kept, counted]
      omega
  · rw [pruneCount, prune_prune, Nat.sub_self]

theorem stray_is_pruned :
    (Sample.stray.blocks.map Block.label).Nodup ∧
      Sample.stray.blocks.head?.map Block.label = some entryLabel ∧
      (∀ b ∈ Sample.stray.blocks, Sample.stray.LeadsTo b.label →
        ∀ t ∈ b.terminator.targets, ∃ b' ∈ Sample.stray.blocks, t = some b'.label) ∧
      Sample.stray.pruneCount = 1 ∧ Sample.stray.prune.verify = [] := by
  have unique : (Sample.stray.blocks.map Block.label).Nodup := by decide
  have entry : Sample.stray.blocks.head?.map Block.label = some entryLabel := rfl
  have cases (b : Block) (hb : b ∈ Sample.stray.blocks) : b.label = 1 ∨
      b.terminator = .goto (some 2) := by
    revert b
    decide
  have reached (l : Label) (h : Sample.stray.LeadsTo l) : l ≠ 1 := by
    induction h with
    | refl => decide
    | tail _ hl ih =>
      obtain ⟨b, hb, rfl, hl⟩ := hl
      rw [(cases b hb).resolve_left ih] at hl
      obtain rfl := Option.some.inj (List.mem_singleton.1 hl)
      decide
  have targets : ∀ b ∈ Sample.stray.blocks, Sample.stray.LeadsTo b.label →
      ∀ t ∈ b.terminator.targets, ∃ b' ∈ Sample.stray.blocks, t = some b'.label := by
    intro b hb hl t ht
    rw [(cases b hb).resolve_left (reached _ hl)] at ht
    obtain rfl := List.mem_singleton.1 ht
    exact ⟨⟨2, "", [], .goto (some 2)⟩, by decide, rfl⟩
  obtain ⟨-, -, passes⟩ := pruning_keeps_exactly_what_is_reached.1 Sample.stray unique entry
  exact ⟨unique, entry, targets, by decide +kernel, passes targets⟩

end Function

end Codegen.Ir
