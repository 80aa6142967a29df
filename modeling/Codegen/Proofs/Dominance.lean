import Codegen.Proofs.Runs
import Codegen.Proofs.Walk

/-!
# Definitions come before uses

Along every path from the entry of a function, what an instruction or a terminator reads is a
parameter, a stack slot, or defined by an instruction earlier on the path: `DefinedOnPaths`.

Code that is `Safe` gives blocks with this property (`definedOnPaths_of_covered`), and blocks keep
it when blocks that nothing reaches are removed and when the passes replace instructions.  The walk
over a tree with values where values belong gives code that is `Safe` (`lowerNode_leaves`).
-/

namespace Codegen.Ir

namespace Function

/-- The names that are there from the start: parameters and stack slots. -/
def given (f : Function) : Set String :=
  {x | x ∈ f.params.map Prod.fst ∨ x ∈ f.slots.map Slot.name}

/-- Along every path, what is read is given or defined by an instruction before. -/
def DefinedOnPaths (f : Function) : Prop :=
  ∀ before b, f.Path before b →
    (∀ pre inst post, b.insts = pre ++ inst :: post → ∀ v ∈ inst.reads, ∀ x ∈ v.name?,
      x ∈ f.given ∨ ∃ i ∈ before.flatMap Block.insts ++ pre, x ∈ i.defines) ∧
    ∀ v ∈ b.terminator.reads, ∀ x ∈ v.name?,
      x ∈ f.given ∨ ∃ i ∈ before.flatMap Block.insts ++ b.insts, x ∈ i.defines

variable {f : Function}

/-- A path stays where only known names are read. -/
theorem Path.covered {known : Set String} {before : List Block} {b : Block}
    (h : f.Path before b) (hf : ∀ k, f.Covered k entryLabel known) (k : Nat) :
    Readable known (before.flatMap Block.insts ++ b.insts) ∧
      (∀ v ∈ b.terminator.reads,
        v.Known (extendAll known (before.flatMap Block.insts ++ b.insts))) ∧
      ∀ l ∈ b.successors,
        f.Covered k l (extendAll known (before.flatMap Block.insts ++ b.insts)) := by
  induction h generalizing k with
  | entry hb =>
    obtain ⟨_, hb', hi, ht, hl⟩ := hf (k + 1)
    obtain rfl := Option.some.inj (hb.symm.trans hb')
    exact ⟨hi, ht, hl⟩
  | @jump before b b' l _ hl hb ih =>
    obtain ⟨hr, -, hs⟩ := ih (k + 1)
    obtain ⟨_, hb', hi, ht, hl'⟩ := hs l hl
    obtain rfl := Option.some.inj (hb.symm.trans hb')
    have insts : (before ++ [b]).flatMap Block.insts = before.flatMap Block.insts ++ b.insts := by
      simp
    rw [insts]
    exact ⟨readable_append.2 ⟨hr, hi⟩, by rwa [extendAll_append], by rwa [extendAll_append]⟩

theorem definedOnPaths_of_covered (hf : ∀ k, f.Covered k entryLabel f.given) :
    f.DefinedOnPaths := by
  intro before b h
  obtain ⟨hr, ht, -⟩ := h.covered hf 0
  refine ⟨fun pre inst post hi v hv x hx => ?_, fun v hv x hx => ?_⟩
  · rw [hi, ← List.append_assoc] at hr
    exact mem_extendAll.1 (hr.known_of_mem v hv x hx)
  · exact mem_extendAll.1 (ht v hv x hx)

/-! ## Blocks that nothing reaches -/

theorem DefinedOnPaths.prune (h : f.DefinedOnPaths) : f.prune.DefinedOnPaths :=
  fun before b hp => h before b hp.of_prune

/-! ## Replaced instructions -/

theorem Path.of_replace {r : Inst → Option Inst} {before : List Block} {b : Block}
    (h : (f.replace r).Path before b) :
    ∃ before₀ b₀, f.Path before₀ b₀ ∧ before = before₀.map (Block.replace r) ∧
      b = b₀.replace r := by
  have kept {l : Label} {b : Block} (hb : (f.replace r).block? l = some b) :
      ∃ b₀, f.block? l = some b₀ ∧ b = b₀.replace r := by
    have found : (f.replace r).block? l = (f.block? l).map (Block.replace r) := List.find?_map ..
    rw [found] at hb
    obtain ⟨b₀, hb₀, rfl⟩ := Option.map_eq_some_iff.1 hb
    exact ⟨b₀, hb₀, rfl⟩
  induction h with
  | entry hb =>
    obtain ⟨b₀, hb₀, rfl⟩ := kept hb
    exact ⟨[], b₀, .entry hb₀, rfl, rfl⟩
  | jump _ hl hb ih =>
    obtain ⟨before₀, b₀, hp, rfl, rfl⟩ := ih
    obtain ⟨b₁, hb₁, rfl⟩ := kept hb
    exact ⟨before₀ ++ [b₀], b₁, .jump hp hl hb₁, by simp, rfl⟩

/-- A replacement that defines what it replaces defines, and reads no other name. -/
def Keeps (r : Inst → Option Inst) : Prop :=
  ∀ inst inst', r inst = some inst' → inst'.defines = inst.defines ∧
    ∀ v ∈ inst'.reads, ∀ x ∈ v.name?, ∃ v₀ ∈ inst.reads, x ∈ v₀.name?

theorem defines_replaceInst {r : Inst → Option Inst} (hr : Keeps r) (inst : Inst) :
    (replaceInst r inst).defines = inst.defines := by
  rw [replaceInst]
  cases h : r inst with
  | none => rfl
  | some inst' => exact (hr inst inst' h).1

theorem reads_replaceInst {r : Inst → Option Inst} (hr : Keeps r) {inst : Inst} {v : Value}
    (hv : v ∈ (replaceInst r inst).reads) {x : String} (hx : x ∈ v.name?) :
    ∃ v₀ ∈ inst.reads, x ∈ v₀.name? := by
  rw [replaceInst] at hv
  cases h : r inst with
  | none =>
    rw [h] at hv
    exact ⟨v, hv, hx⟩
  | some inst' =>
    rw [h] at hv
    exact (hr inst inst' h).2 v hv x hx

theorem DefinedOnPaths.replace {r : Inst → Option Inst} (hr : Keeps r) (h : f.DefinedOnPaths) :
    (f.replace r).DefinedOnPaths := by
  intro before b hp
  obtain ⟨before₀, b₀, hp₀, rfl, rfl⟩ := hp.of_replace
  obtain ⟨hi, ht⟩ := h before₀ b₀ hp₀
  have behind (pre : List Inst) {x : String}
      (hx : x ∈ f.given ∨ ∃ i ∈ before₀.flatMap Block.insts ++ pre, x ∈ i.defines) :
      x ∈ (f.replace r).given ∨
        ∃ i ∈ (before₀.map (Block.replace r)).flatMap Block.insts ++ pre.map (replaceInst r),
          x ∈ i.defines := by
    have insts : (before₀.map (Block.replace r)).flatMap Block.insts ++ pre.map (replaceInst r) =
        (before₀.flatMap Block.insts ++ pre).map (replaceInst r) := by
      simp [List.flatMap_map, List.map_flatMap, Block.replace]
    rw [insts]
    obtain hg | ⟨i, hmem, hd⟩ := hx
    · exact .inl hg
    · exact .inr ⟨_, List.mem_map_of_mem hmem, by rwa [defines_replaceInst hr]⟩
  refine ⟨fun pre inst post hsplit v hv x hx => ?_, fun v hv x hx => ?_⟩
  · obtain ⟨pre₀, rest, hsplit₀, rfl, hrest⟩ := List.map_eq_append_iff.1 hsplit
    obtain ⟨inst₀, post₀, rfl, rfl, -⟩ := List.map_eq_cons_iff.1 hrest
    obtain ⟨v₀, hv₀, hx₀⟩ := reads_replaceInst hr hv hx
    exact behind pre₀ (hi pre₀ inst₀ post₀ hsplit₀ v₀ hv₀ x hx₀)
  · exact behind b₀.insts (ht v hv x hx)

theorem keeps_sizeReplacement : Keeps sizeReplacement? := by
  intro inst inst' h
  obtain ⟨_, _, _, _, _, _, size, rfl, rfl⟩ := sizeReplacement?_eq_some h
  refine ⟨rfl, fun v hv x hx => ?_⟩
  obtain rfl | rfl : v = .lit size ∨ v = .lit "0" := by simpa [Inst.reads] using hv
  all_goals cases hx

theorem keeps_ptrReplacement : Keeps ptrReplacement? := by
  intro inst inst' h
  obtain ⟨_, _, _, _, receiver, _, _, _, _, _, rfl, -, ht, hs, rfl⟩ := ptrReplacement?_eq_some h
  refine ⟨by simp [Inst.defines, ht], fun v hv x hx => ?_⟩
  obtain rfl := List.mem_singleton.1 hv
  obtain rfl := Option.some.inj hx
  exact ⟨receiver, List.mem_singleton_self _, hs⟩

end Function

end Codegen.Ir

namespace Codegen.Lowering

open Ir (Inst Value Terminator)

/-- The blocks of structured code that ends by a terminator without a target. -/
theorem covered_blocks {f : Ir.Function} {code : Code false} {t : Terminator} {known : Set String}
    (hf : Holds f (code.blocks t)) (h : code.Safe known) (ht : t.reads = [])
    (hl : t.targets = []) (k : Nat) : f.Covered k Ir.entryLabel known := by
  have start : (Graph.site {}).Covered f k known :=
    code.covered hf.left h ?_ fun hl => nomatch hl
  · exact (covered_of_start start).pred
  intro o ho
  have hb := hf.right (o.close t) (by simp [ho])
  refine ⟨_, [], hb, (List.append_nil _).symm, trivial, ?_, ?_⟩
  · change ∀ v ∈ t.reads, _
    rw [ht]
    exact List.forall_mem_nil _
  · change ∀ l ∈ t.targets.filterMap id, _
    rw [hl]
    exact List.forall_mem_nil _

theorem definedOnPaths_lowered {env : Env} {f : Func} {g : Ir.Function}
    (hbody : ∀ body ∈ f.body, body.OperandsOk) (h : LoweredFrom env f g) : g.DefinedOnPaths := by
  obtain ⟨strings, debugInfo, herrors, rfl⟩ := h
  let u := unpruned env f (finalState env f strings debugInfo)
  have given : u.given = givenNames f (draftOf env f strings debugInfo).notes.slots := by
    have hslots : u.slots = (draftOf env f strings debugInfo).notes.slots := by
      change (finalState env f strings debugInfo).notes.slots = _
      rw [finalState_eq]
    have hparams : u.params.map Prod.fst = f.params.map (·.1 ++ ".param") := List.map_map
    rw [Ir.Function.given, hslots, hparams]
    rfl
  obtain ⟨safe, -⟩ := draftOf_follows env (fun body hm => (hbody body hm).fits) herrors
  have covered := covered_blocks (holds_unpruned env f strings debugInfo) (given ▸ safe)
    (by rw [fallback]; split <;> rfl) (targets_fallback f)
  exact (Ir.Function.definedOnPaths_of_covered covered).prune

/-- In a program whose bodies have values where values belong, and which is lowered without an
error, definitions come before uses: on every path from the entry of a function, what an
instruction or the terminator of a block reads is a parameter, a stack slot, or defined by an
instruction earlier on the path. -/
theorem definitions_dominate_uses {context : Context} {symbols : SymbolTable} {config : Config}
    {m : Ir.Module} (hbodies : ∀ f ∈ context.impls, ∀ body ∈ f.body, body.OperandsOk)
    (h : lowerProgram context symbols config = .ok m) : ∀ g ∈ m.impls, g.DefinedOnPaths := by
  intro g hg
  obtain ⟨env, f, hf, g₀, hlowered, rfl⟩ := exists_lowered_of_mem h hg
  exact ((definedOnPaths_lowered (hbodies f hf) hlowered).replace
    Ir.Function.keeps_sizeReplacement).replace Ir.Function.keeps_ptrReplacement

theorem countUp_definitions_dominate_uses :
    (∀ f ∈ [Sample.countUp], ∀ body ∈ f.body, body.OperandsOk) ∧
      ∃ m, lowerProgram { impls := [Sample.countUp] } {} {} = .ok m ∧ m.impls.length = 1 ∧
        ∀ g ∈ m.impls, g.DefinedOnPaths := by
  have hbodies : ∀ f ∈ [Sample.countUp], ∀ body ∈ f.body, body.OperandsOk := by decide
  have lowered : (lowerProgram { impls := [Sample.countUp] } {} {}).toOption.isSome = true := by
    decide +kernel
  cases h : lowerProgram { impls := [Sample.countUp] } {} {} with
  | error e =>
    rw [h] at lowered
    cases lowered
  | ok m =>
    obtain ⟨_, gs, hlowered, himpls⟩ := lowerProgram_impls h
    refine ⟨hbodies, m, rfl, ?_, definitions_dominate_uses hbodies h⟩
    rw [himpls, List.length_map, ← hlowered.length_eq]
    rfl

end Codegen.Lowering
