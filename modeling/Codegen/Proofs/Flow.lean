import Codegen.Ir.Flow
import Mathlib.Data.List.Nodup

/-!
# Reachable blocks and the check of a function

* `Function.mem_reachable`: the search for blocks finds exactly the labels to which a path of jumps
  from the entry leads.
* `Function.verify_eq_nil_iff`: the rules that the check finds unbroken.
* `Function.verify_prune`: once the blocks that nothing reaches are gone, only missing and undefined
  targets that control can get to break a rule.
* `Function.Path.prune`: pruning keeps every path of blocks from the entry.
-/

namespace Codegen.Ir

/-! ## The search -/

section Explore

variable {next : Label → List Label} {unseen frontier : List Label}

/-- The search starts with all of its frontier. -/
theorem mem_explore_of_mem_frontier {l : Label} (hf : l ∈ frontier) (hu : l ∈ unseen) :
    l ∈ explore next unseen frontier := by
  fun_induction explore next unseen frontier with
  | case1 unseen frontier found =>
    have : l ∈ frontier.filter unseen.contains := List.mem_filter.2 ⟨hf, by simpa using hu⟩
    rw [found] at this
    cases this
  | case2 unseen frontier label rest found ih =>
    have hl : l ∈ frontier.filter unseen.contains := List.mem_filter.2 ⟨hf, by simpa using hu⟩
    rw [found] at hl
    by_cases heq : l = label
    · exact heq ▸ List.mem_cons_self
    · have hrest := (List.mem_cons.1 hl).resolve_left heq
      exact List.mem_cons_of_mem _
        (ih (List.mem_append_right _ hrest) ((List.mem_erase_of_ne heq).2 hu))

/-- The search follows every jump of a label that it has found. -/
theorem mem_explore_of_mem_next {l l' : Label} (h : l ∈ explore next unseen frontier)
    (hn : l' ∈ next l) (hu : l' ∈ unseen) : l' ∈ explore next unseen frontier := by
  fun_induction explore next unseen frontier with
  | case1 => cases h
  | case2 unseen frontier label rest found ih =>
    by_cases heq : l' = label
    · exact heq ▸ List.mem_cons_self
    · have hu' : l' ∈ unseen.erase label := (List.mem_erase_of_ne heq).2 hu
      refine List.mem_cons_of_mem _ ?_
      rcases List.mem_cons.1 h with rfl | h
      · exact mem_explore_of_mem_frontier (List.mem_append_left _ hn) hu'
      · exact ih h hu'

/-- What the frontier has and jumps keep is true of everything that the search finds. -/
theorem explore_induction {P : Label → Prop} (hf : ∀ l ∈ frontier, P l)
    (hn : ∀ l, P l → ∀ l' ∈ next l, P l') {l : Label} (h : l ∈ explore next unseen frontier) :
    P l := by
  fun_induction explore next unseen frontier with
  | case1 => cases h
  | case2 unseen frontier label rest found ih =>
    have sub : ∀ l' ∈ label :: rest, P l' := fun l' hl' =>
      hf l' (List.mem_filter.1 (found ▸ hl' : l' ∈ frontier.filter unseen.contains)).1
    obtain ⟨hlabel, hrest⟩ := List.forall_mem_cons.1 sub
    rcases List.mem_cons.1 h with rfl | h
    · exact hlabel
    · refine ih (fun l' hl' => ?_) h
      exact (List.mem_append.1 hl').elim (hn label hlabel l') (hrest l')

end Explore

namespace Function

/-- A path of jumps leads from the entry to the label. -/
inductive Reached (f : Function) : Label → Prop where
  | entry : f.Reached entryLabel
  | jump {l l' : Label} (h : f.Reached l) (hl : l' ∈ f.successors l) : f.Reached l'

variable {f : Function}

theorem mem_of_blockAt? {l : Label} {b : Block} (h : f.blockAt? l = some b) :
    b ∈ f.blocks ∧ b.label = l := by
  have := List.mem_of_getLast? h
  simpa using List.mem_filter.1 this

theorem successors_subset_mentioned {l l' : Label} (h : l' ∈ f.successors l) :
    l' ∈ f.mentioned := by
  rw [successors] at h
  cases hb : f.blockAt? l with
  | none => simp [hb] at h
  | some b =>
    rw [hb] at h
    refine List.mem_eraseDups.2 (List.mem_cons_of_mem _ ?_)
    exact List.mem_flatMap.2 ⟨b, (mem_of_blockAt? hb).1, h⟩

/-- The search finds exactly the labels that can be reached. -/
theorem mem_reachable (he : f.hasEntry = true) {l : Label} : l ∈ f.reachable ↔ f.Reached l := by
  rw [reachable, if_pos he]
  constructor
  · refine explore_induction (fun l hl => ?_) fun l h l' => h.jump
    exact List.mem_singleton.1 hl ▸ .entry
  · intro h
    induction h with
    | entry =>
      exact mem_explore_of_mem_frontier (List.mem_singleton_self _)
        (List.mem_eraseDups.2 List.mem_cons_self)
    | jump _ hl ih => exact mem_explore_of_mem_next ih hl (successors_subset_mentioned hl)

/-! ## Closed functions -/

/-- The function starts with its entry, labels are defined once, and every target is filled in and
defined. -/
structure Closed (f : Function) : Prop where
  entry : f.hasEntry = true
  unique : (f.blocks.map Block.label).Nodup
  targets : ∀ b ∈ f.blocks, ∀ t ∈ b.terminator.targets, ∃ b' ∈ f.blocks, t = some b'.label

theorem blockAt?_of_mem (hu : (f.blocks.map Block.label).Nodup) {b : Block} (hb : b ∈ f.blocks) :
    f.blockAt? b.label = some b := by
  have hmem : b ∈ f.blocks.filter fun c => c.label = b.label :=
    List.mem_filter.2 ⟨hb, decide_eq_true rfl⟩
  obtain ⟨c, hc⟩ := Option.isSome_iff_exists.1 (List.getLast?_isSome.2 (List.ne_nil_of_mem hmem))
  obtain ⟨hcb, hlabel⟩ := mem_of_blockAt? hc
  rw [blockAt?, hc, List.inj_on_of_nodup_map hu hcb hb hlabel]

theorem mem_of_block? {l : Label} {b : Block} (h : f.block? l = some b) :
    b ∈ f.blocks ∧ b.label = l :=
  ⟨List.mem_of_find?_eq_some h, by simpa using List.find?_some h⟩

theorem block?_of_mem (hu : (f.blocks.map Block.label).Nodup) {b : Block} (hb : b ∈ f.blocks) :
    f.block? b.label = some b := by
  have hfound : (f.block? b.label).isSome := List.find?_isSome.2 ⟨b, hb, decide_eq_true rfl⟩
  obtain ⟨c, hc⟩ := Option.isSome_iff_exists.1 hfound
  obtain ⟨hcb, hlabel⟩ := mem_of_block? hc
  rw [hc, List.inj_on_of_nodup_map hu hcb hb hlabel]

theorem successors_of_mem (hu : (f.blocks.map Block.label).Nodup) {b : Block} (hb : b ∈ f.blocks) :
    f.successors b.label = b.successors := by
  rw [successors, blockAt?_of_mem hu hb]
  rfl

/-! ## Pruning -/

theorem mem_prune {b : Block} : b ∈ f.prune.blocks ↔ b ∈ f.blocks ∧ b.label ∈ f.reachable := by
  rw [prune, List.mem_filter, List.contains_iff_mem]

/-- All blocks with a label that is reached are kept, so the same one of them is found. -/
theorem filter_prune {l : Label} (h : l ∈ f.reachable) :
    (f.prune.blocks.filter fun b => b.label = l) = f.blocks.filter fun b => b.label = l := by
  rw [prune, List.filter_filter]
  refine List.filter_congr fun b _ => ?_
  by_cases hb : b.label = l
  · simp [hb, h]
  · simp [hb]

theorem successors_prune {l : Label} (h : l ∈ f.reachable) :
    f.prune.successors l = f.successors l := by
  rw [successors, successors, blockAt?, blockAt?, filter_prune h]

theorem block?_prune {l : Label} (h : l ∈ f.reachable) : f.prune.block? l = f.block? l := by
  rw [block?, block?, ← List.head?_filter, ← List.head?_filter, filter_prune h]

theorem hasEntry_prune (f : Function) : f.prune.hasEntry = f.hasEntry := by
  cases he : f.hasEntry with
  | false =>
    have empty : f.prune.blocks = [] := by simp [prune, reachable, he]
    rw [hasEntry, empty]
    rfl
  | true =>
    have kept : entryLabel ∈ f.reachable := (mem_reachable he).2 .entry
    rw [hasEntry] at he
    cases hbs : f.blocks with
    | nil => simp [hbs] at he
    | cons b bs =>
      have hb : b.label = entryLabel := by simpa [hbs] using he
      simp [prune, hasEntry, hbs, hb, kept]

theorem reached_prune_iff (he : f.hasEntry = true) {l : Label} :
    f.prune.Reached l ↔ f.Reached l := by
  constructor
  · intro h
    induction h with
    | entry => exact .entry
    | jump _ hl ih => exact ih.jump (successors_prune ((mem_reachable he).2 ih) ▸ hl)
  · intro h
    induction h with
    | entry => exact .entry
    | jump h hl ih => exact ih.jump (successors_prune ((mem_reachable he).2 h) ▸ hl)

theorem mem_reachable_prune {l : Label} : l ∈ f.prune.reachable ↔ l ∈ f.reachable := by
  cases he : f.hasEntry with
  | false => simp [reachable, hasEntry_prune, he]
  | true => rw [mem_reachable ((hasEntry_prune f).trans he), mem_reachable he, reached_prune_iff he]

/-- What is left of a function is left of it once more. -/
theorem prune_prune (f : Function) : f.prune.prune = f.prune := by
  have kept : f.prune.blocks.filter (fun b => f.prune.reachable.contains b.label) =
      f.prune.blocks := by
    rw [List.filter_eq_self]
    intro b hb
    rw [List.contains_iff_mem, mem_reachable_prune]
    exact (mem_prune.1 hb).2
  rw [prune, kept]

/-- For the blocks that are kept, it is enough that those targets are filled in and defined that
control can get to. -/
theorem closed_prune (he : f.hasEntry = true) (hu : (f.blocks.map Block.label).Nodup)
    (ht : ∀ b ∈ f.blocks, f.Reached b.label →
      ∀ t ∈ b.terminator.targets, ∃ b' ∈ f.blocks, t = some b'.label) : f.prune.Closed where
  entry := (hasEntry_prune f).trans he
  unique := hu.sublist (List.filter_sublist.map _)
  targets b hb t hbt := by
    obtain ⟨hb, hreached⟩ := mem_prune.1 hb
    rw [mem_reachable he] at hreached
    obtain ⟨b', hb', rfl⟩ := ht b hb hreached t hbt
    refine ⟨b', mem_prune.2 ⟨hb', (mem_reachable he).2 (hreached.jump ?_)⟩, rfl⟩
    rw [successors_of_mem hu hb]
    exact List.mem_filterMap.2 ⟨_, hbt, rfl⟩

namespace Closed

variable (h : f.Closed)
include h

theorem exists_entry : ∃ b ∈ f.blocks, b.label = entryLabel := by
  have he := h.entry
  rw [hasEntry] at he
  cases hb : f.blocks with
  | nil => simp [hb] at he
  | cons b bs => exact ⟨b, List.mem_cons_self, by simpa [hb] using he⟩

theorem exists_successor {b : Block} (hb : b ∈ f.blocks) {l : Label} (hl : l ∈ b.successors) :
    ∃ b' ∈ f.blocks, b'.label = l := by
  obtain ⟨t, ht, rfl⟩ := List.mem_filterMap.1 hl
  obtain ⟨b', hb', heq⟩ := h.targets b hb _ ht
  exact ⟨b', hb', (Option.some.inj heq).symm⟩

/-- Every path of jumps leads to a block. -/
theorem exists_block {l : Label} (hl : f.Reached l) : ∃ b ∈ f.blocks, b.label = l := by
  induction hl with
  | entry => exact h.exists_entry
  | @jump l l' _ hl' ih =>
    obtain ⟨b, hb, rfl⟩ := ih
    rw [successors_of_mem h.unique hb] at hl'
    exact h.exists_successor hb hl'

theorem mem_prune {b : Block} : b ∈ f.prune.blocks ↔ b ∈ f.blocks ∧ f.Reached b.label := by
  rw [Function.mem_prune, mem_reachable h.entry]

theorem entry_prune : f.prune.hasEntry = true := (hasEntry_prune f).trans h.entry

/-- Pruning keeps the function closed. -/
theorem prune : f.prune.Closed :=
  closed_prune h.entry h.unique fun b hb _ => h.targets b hb

/-- Pruning keeps every path of jumps. -/
theorem reached_prune {l : Label} (hl : f.Reached l) : f.prune.Reached l :=
  (reached_prune_iff h.entry).2 hl

end Closed

/-! ## The check -/

theorem repeated_eq_nil_iff {seen labels : List Label} :
    repeated seen labels = [] ↔ labels.Nodup ∧ ∀ l ∈ labels, l ∉ seen := by
  induction labels generalizing seen with
  | nil => simp [repeated]
  | cons l labels ih =>
    by_cases hl : l ∈ seen
    · simp [repeated, hl]
    · rw [repeated, if_neg (by simpa using hl), ih, List.nodup_cons, List.forall_mem_cons]
      constructor
      · rintro ⟨hu, hd⟩
        have hd := fun l' hl' => not_or.1 (mt List.mem_cons.2 (hd l' hl'))
        exact ⟨⟨fun hm => (hd l hm).1 rfl, hu⟩, hl, fun l' hl' => (hd l' hl').2⟩
      · rintro ⟨⟨hm, hu⟩, -, hd⟩
        refine ⟨hu, fun l' hl' => mt List.mem_cons.1 (not_or.2 ⟨?_, hd l' hl'⟩)⟩
        exact fun heq => hm (heq ▸ hl')

theorem targetError?_eq_none_iff {b : Block} {t : Option Label} :
    f.targetError? b t = none ↔ ∃ b' ∈ f.blocks, t = some b'.label := by
  cases t with
  | none => simp [targetError?]
  | some l => simp [targetError?, eq_comm]

/-- A function with a body breaks no rule exactly if it is closed and all of its blocks are
reached. -/
theorem verify_eq_nil_iff (hf : f.blocks ≠ []) :
    f.verify = [] ↔ f.Closed ∧ ∀ b ∈ f.blocks, f.Reached b.label := by
  have implemented : ¬f.isDeclaration = true := by simpa [isDeclaration] using hf
  have entry : (if f.hasEntry then [] else [FlowError.missingEntry f.name]) = [] ↔
      f.hasEntry = true := by
    cases f.hasEntry <;> simp
  have targets : f.blocks.flatMap (fun b => b.terminator.targets.filterMap (f.targetError? b)) =
      [] ↔ ∀ b ∈ f.blocks, ∀ t ∈ b.terminator.targets, ∃ b' ∈ f.blocks, t = some b'.label := by
    simp only [List.flatMap_eq_nil_iff, List.filterMap_eq_nil_iff, targetError?_eq_none_iff]
  have reached : (f.blocks.filter fun b => !f.reachable.contains b.label) = [] ↔
      ∀ b ∈ f.blocks, b.label ∈ f.reachable := by
    simp [List.filter_eq_nil_iff]
  simp only [verify, if_neg implemented, List.append_eq_nil_iff, List.map_eq_nil_iff, entry,
    targets, reached, repeated_eq_nil_iff]
  constructor
  · rintro ⟨⟨⟨he, hu, -⟩, ht⟩, hr⟩
    exact ⟨⟨he, hu, ht⟩, fun b hb => (mem_reachable he).1 (hr b hb)⟩
  · rintro ⟨h, hr⟩
    exact ⟨⟨⟨h.entry, h.unique, fun _ _ => List.not_mem_nil⟩, h.targets⟩,
      fun b hb => (mem_reachable h.entry).2 (hr b hb)⟩

/-- Without the blocks that nothing reaches, a function breaks no rule if it starts with its entry,
labels are defined once, and the targets that control can get to are filled in and defined. -/
theorem verify_prune (he : f.hasEntry = true) (hu : (f.blocks.map Block.label).Nodup)
    (ht : ∀ b ∈ f.blocks, f.Reached b.label →
      ∀ t ∈ b.terminator.targets, ∃ b' ∈ f.blocks, t = some b'.label) : f.prune.verify = [] := by
  have closed := closed_prune he hu ht
  obtain ⟨b, hb, -⟩ := closed.exists_entry
  rw [verify_eq_nil_iff (List.ne_nil_of_mem hb)]
  refine ⟨closed, fun b hb => (reached_prune_iff he).2 ?_⟩
  exact (mem_reachable he).1 (mem_prune.1 hb).2

theorem Closed.verify_prune (h : f.Closed) : f.prune.verify = [] :=
  Function.verify_prune h.entry h.unique fun b hb _ => h.targets b hb

/-! ## Paths -/

/-- A path from the entry of a function: the blocks it leaves behind and the block it gets to. -/
inductive Path (f : Function) : (before : List Block) → (last : Block) → Prop where
  | entry {b : Block} (hb : f.block? entryLabel = some b) : Path f [] b
  | jump {before : List Block} {b b' : Block} {l : Label} (h : Path f before b)
      (hl : l ∈ b.successors) (hb : f.block? l = some b') : Path f (before ++ [b]) b'

theorem Path.mem {before : List Block} {b : Block} (h : f.Path before b) : b ∈ f.blocks := by
  cases h with
  | entry hb => exact (mem_of_block? hb).1
  | jump _ _ hb => exact (mem_of_block? hb).1

theorem Path.reached (hu : (f.blocks.map Block.label).Nodup) {before : List Block} {b : Block}
    (h : f.Path before b) : f.Reached b.label := by
  induction h with
  | entry hb =>
    rw [(mem_of_block? hb).2]
    exact .entry
  | jump h hl hb ih =>
    rw [(mem_of_block? hb).2]
    exact ih.jump (successors_of_mem hu h.mem ▸ hl)

theorem Path.of_prune {before : List Block} {b : Block} (h : f.prune.Path before b) :
    f.Path before b := by
  have found {l : Label} {b : Block} (hb : f.prune.block? l = some b) : f.block? l = some b := by
    obtain ⟨hmem, rfl⟩ := mem_of_block? hb
    rwa [block?_prune (mem_prune.1 hmem).2] at hb
  induction h with
  | entry hb => exact .entry (found hb)
  | jump _ hl hb ih => exact .jump ih hl (found hb)

theorem Path.prune (he : f.hasEntry = true) (hu : (f.blocks.map Block.label).Nodup)
    {before : List Block} {b : Block} (h : f.Path before b) : f.prune.Path before b := by
  have kept {l : Label} {b : Block} (hl : f.Reached l) (hb : f.block? l = some b) :
      f.prune.block? l = some b := (block?_prune ((mem_reachable he).2 hl)).trans hb
  induction h with
  | entry hb => exact .entry (kept .entry hb)
  | jump h hl hb ih =>
    exact .jump ih hl (kept ((h.reached hu).jump (successors_of_mem hu h.mem ▸ hl)) hb)

end Function

end Codegen.Ir
