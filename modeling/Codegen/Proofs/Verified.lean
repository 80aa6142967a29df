import Codegen.Lowering.Module
import Codegen.Proofs.Factor
import Codegen.Proofs.Flow
import Codegen.Proofs.Labels
import Codegen.Proofs.Terminators

/-!
# Lowered functions pass the check

Whatever a function looks like, and whatever is wrong with it, its blocks form a closed graph: the
entry comes first, labels are defined once and in order, and every jump leads somewhere.  So the
check of a module never finds anything, and it is of no consequence whether it is run.
-/

namespace Codegen.Lowering

open Ir (Inst Value Label Terminator Block)

/-! ## Closed graphs -/

theorem sound_start : Sound {} := by
  refine ⟨List.Perm.refl _, fun t ht => ?_⟩
  cases ht

theorem advancing_closeLast {t : Terminator} (ht : t.targets = []) : Advancing (closeLast t) := by
  intro g h
  cases hc : g.current with
  | none =>
    rw [closeLast_closed hc]
    exact .refl h
  | some b =>
    rw [closeLast_open hc]
    simpa only [finishBlock_open hc] using advancing_finishBlock (t := t) (by rw [ht]; rfl) g h

theorem closeLast_current (t : Terminator) (g : Graph) : (closeLast t g).2.current = none := by
  cases hc : g.current with
  | none =>
    rw [closeLast_closed hc]
    exact hc
  | some b => rw [closeLast_open hc]

theorem targets_fallback (f : Func) : (fallback f).targets = [] := by
  rw [fallback]
  split <;> rfl

section Function

variable (env : Env) (f : Func) (strings : List String) (debugInfo : Ir.DebugInfo)

/-- The graph of a function stays sound from its start. -/
theorem advances_finalState :
    Advances {} (finalState env f strings debugInfo).toGraph := by
  rw [finalState_eq]
  have emitted := (draftOf env f strings debugInfo).code.emit_advances {} sound_start
  exact emitted.trans (advancing_closeLast (targets_fallback f) _ emitted.sound)

theorem labels_finalState :
    (finalState env f strings debugInfo).toGraph.labels =
      (finalState env f strings debugInfo).blocks.map Block.label := by
  have hc : (finalState env f strings debugInfo).current = none := by
    rw [finalState_eq]
    exact closeLast_current _ _
  rw [Graph.labels, hc]
  exact List.append_nil _

/-- The entry comes first, and its label is the least. -/
theorem exists_labels_finalState :
    ∃ new, (finalState env f strings debugInfo).blocks.map Block.label = Ir.entryLabel :: new ∧
      ∀ l ∈ new, Ir.entryLabel < l := by
  obtain ⟨new, hl, hnew⟩ := (advances_finalState env f strings debugInfo).labels
  rw [labels_finalState] at hl
  exact ⟨new, hl, hnew⟩

/-- Every target of the blocks is filled in. -/
theorem complete_finalState :
    Ending (fun t => none ∉ t.targets) (finalState env f strings debugInfo).blocks := by
  have filled : Ends (fun t => none ∉ t.targets) Set.univ := by
    constructor <;> intros <;> simp [Terminator.targets]
  rw [finalState_blocks]
  exact Code.ending_blocks filled _ (fun t _ => Set.mem_univ t) (by simp [targets_fallback])

/-- The blocks of a function form a closed graph. -/
theorem unpruned_closed : (unpruned env f (finalState env f strings debugInfo)).Closed where
  entry := by
    obtain ⟨new, hl, -⟩ := exists_labels_finalState env f strings debugInfo
    rw [Ir.Function.hasEntry, decide_eq_true_eq, ← List.head?_map]
    exact congrArg List.head? hl
  unique := by
    have labels := (advances_finalState env f strings debugInfo).sound.labels
    rw [labels_finalState] at labels
    exact labels.nodup_iff.2 List.nodup_range
  targets b hb t ht := by
    have sound := (advances_finalState env f strings debugInfo).sound
    cases t with
    | none => exact absurd ht (complete_finalState env f strings debugInfo b hb)
    | some l =>
      have hl : l ∈ targetsOf (finalState env f strings debugInfo).blocks :=
        List.mem_flatMap.2 ⟨b, hb, List.mem_filterMap.2 ⟨_, ht, rfl⟩⟩
      have hlabel := sound.labels.symm.subset (List.mem_range.2 (sound.targets l hl).1)
      rw [labels_finalState] at hlabel
      obtain ⟨b', hb', rfl⟩ := List.mem_map.1 hlabel
      exact ⟨b', hb', rfl⟩

/-- Only greater labels stand behind a label that can be reached. -/
theorem inOrder_of_reached {l : Label}
    (h : (unpruned env f (finalState env f strings debugInfo)).Reached l) :
    InOrder l ((finalState env f strings debugInfo).blocks.map Block.label) := by
  cases h with
  | entry =>
    obtain ⟨new, hl, hnew⟩ := exists_labels_finalState env f strings debugInfo
    have start : InOrder Ir.entryLabel [Ir.entryLabel] := List.pairwise_singleton _ _
    rw [hl]
    exact start.append hnew
  | @jump l₀ l hl₀ hl =>
    have closed := unpruned_closed env f strings debugInfo
    obtain ⟨b, hb, rfl⟩ := closed.exists_block hl₀
    rw [Ir.Function.successors_of_mem closed.unique hb] at hl
    rw [← labels_finalState]
    exact ((advances_finalState env f strings debugInfo).sound.targets l
      (List.mem_flatMap.2 ⟨b, hb, hl⟩)).2

theorem lowerFunction_function :
    (lowerFunction env f strings debugInfo).function =
      (unpruned env f (finalState env f strings debugInfo)).prune := rfl

theorem labels_increasing :
    ((lowerFunction env f strings debugInfo).function.blocks.map Block.label).Pairwise (· < ·) := by
  have closed := unpruned_closed env f strings debugInfo
  rw [lowerFunction_function, List.pairwise_iff_forall_sublist]
  intro a b hab
  have hsub := hab.trans (List.filter_sublist.map Block.label)
  have ha := hab.subset List.mem_cons_self
  obtain ⟨c, hc, rfl⟩ := List.mem_map.1 ha
  have order := inOrder_of_reached env f strings debugInfo (closed.mem_prune.1 hc).2
  exact List.pairwise_iff_forall_sublist.1 order hsub rfl

theorem head_lowered :
    ((lowerFunction env f strings debugInfo).function.blocks.map Block.label).head? = some 0 := by
  have entry := (unpruned_closed env f strings debugInfo).entry_prune
  rw [Ir.Function.hasEntry, decide_eq_true_eq, ← List.head?_map] at entry
  exact entry

theorem verify_lowered : (lowerFunction env f strings debugInfo).function.verify = [] :=
  (unpruned_closed env f strings debugInfo).verify_prune

end Function

/-! ## Modules -/

section Replace

variable (r : Inst → Option Inst) (f : Ir.Function)

theorem successors_replace (l : Label) : (f.replace r).successors l = f.successors l := by
  have filtered : (f.replace r).blocks.filter (fun b => b.label = l) =
      (f.blocks.filter fun b => b.label = l).map (Block.replace r) := List.filter_map ..
  rw [Ir.Function.successors, Ir.Function.blockAt?, filtered, List.getLast?_map, Option.map_map]
  rfl

theorem hasEntry_replace : (f.replace r).hasEntry = f.hasEntry := by
  simp [Ir.Function.hasEntry, Ir.Function.replace, Function.comp_def, Block.replace]

theorem reachable_replace : (f.replace r).reachable = f.reachable := by
  have mentioned : (f.replace r).mentioned = f.mentioned := by
    simp only [Ir.Function.mentioned, Ir.Function.replace, List.flatMap_map]
    rfl
  rw [Ir.Function.reachable, Ir.Function.reachable, hasEntry_replace, mentioned,
    funext (successors_replace r f)]

/-- A replacement of instructions leaves labels and jumps alone. -/
theorem verify_replace : (f.replace r).verify = f.verify := by
  have labels : (f.replace r).blocks.map Block.label = f.blocks.map Block.label := by
    simp [Ir.Function.replace, Function.comp_def, Block.replace]
  have targets (b : Block) : (f.replace r).targetError? (b.replace r) = f.targetError? b := by
    funext t
    cases t with
    | none => rfl
    | some l =>
      simp only [Ir.Function.targetError?, labels]
      rfl
  have blocks : (f.replace r).blocks = f.blocks.map (Block.replace r) := rfl
  have declared : (f.replace r).isDeclaration = f.isDeclaration := List.isEmpty_map
  simp only [Ir.Function.verify, declared, hasEntry_replace, labels, reachable_replace]
  simp only [blocks, List.flatMap_map, targets, List.filter_map, List.map_map]
  rfl

end Replace

theorem verify_lowerFunctions (env : Func → Env) (fs : List Func) (m : Ir.Module)
    (hm : m.verify = []) : (lowerFunctions env fs m).1.verify = [] := by
  induction fs generalizing m with
  | nil => exact hm
  | cons f fs ih =>
    refine ih _ ?_
    rw [Ir.Module.verify] at hm
    rw [Ir.Module.verify, List.flatMap_append, hm]
    simp [verify_lowered]

theorem verify_run (pass : Ir.Pass) (m : Ir.Module) : (pass.run m).module.verify = m.verify := by
  have replaced (r : Inst → Option Inst) : (m.replace r).verify = m.verify := by
    simp [Ir.Module.verify, Ir.Module.replace, List.flatMap_map, verify_replace]
  cases pass with
  | redefinition => rfl
  | primitiveSize => exact replaced _
  | receiverPtr => exact replaced _

theorem verify_runAll (passes : List Ir.Pass) (m : Ir.Module) :
    (Ir.Pass.runAll passes m).1.verify = m.verify := by
  induction passes generalizing m with
  | nil => rfl
  | cons pass passes ih =>
    rw [Ir.Pass.runAll]
    split
    · rw [ih, verify_run]
    · exact verify_run pass m

theorem verify_buildModule (context : Context) (symbols : SymbolTable) (config : Config) :
    (buildModule context symbols config).1.verify = [] := verify_lowerFunctions _ _ _ rfl

/-- Whether a program is checked does not change what it is lowered to. -/
theorem lowerProgram_verify (context : Context) (symbols : SymbolTable) (config : Config) :
    lowerProgram context symbols { config with verify := true } =
      lowerProgram context symbols { config with verify := false } := by
  have same : buildModule context symbols { config with verify := true } =
    buildModule context symbols { config with verify := false } := rfl
  have built := verify_buildModule context symbols { config with verify := false }
  rw [lowerProgram, lowerProgram, same]
  generalize buildModule context symbols { config with verify := false } = result at built ⊢
  obtain ⟨m, errors⟩ := result
  have passed : (if errors.isEmpty then Ir.Pass.runAll Ir.Pass.standard m
      else (m, errors)).1.verify = [] := by
    split
    · rw [verify_runAll]
      exact built
    · exact built
  dsimp only
  generalize (if errors.isEmpty then Ir.Pass.runAll Ir.Pass.standard m else (m, errors)) = final
    at passed ⊢
  simp [passed]

/-- Every function that is lowered, whatever its body, passes the check of its blocks: they start
with the entry, labels are defined once and increase from 0, every target is filled in and defined,
and every block is reached.  So a program is lowered to the same result with and without the
check. -/
theorem lowered_functions_pass_the_check :
    (∀ env f strings debugInfo,
      let g := (lowerFunction env f strings debugInfo).function
      g.verify = [] ∧ g.Closed ∧ (∀ b ∈ g.blocks, g.Reached b.label) ∧
        (g.blocks.map Block.label).head? = some 0 ∧
        (g.blocks.map Block.label).Pairwise (· < ·)) ∧
    ∀ context symbols (config : Config),
      lowerProgram context symbols { config with verify := true } =
        lowerProgram context symbols { config with verify := false } := by
  refine ⟨fun env f strings debugInfo => ?_, fun context symbols config => ?_⟩
  · have closed := unpruned_closed env f strings debugInfo
    exact ⟨verify_lowered env f strings debugInfo, closed.prune,
      fun b hb => closed.reached_prune (closed.mem_prune.1 hb).2,
      head_lowered env f strings debugInfo, labels_increasing env f strings debugInfo⟩
  · exact lowerProgram_verify context symbols config

end Codegen.Lowering
