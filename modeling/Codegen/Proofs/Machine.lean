import Codegen.Proofs.Flow

/-!
# Running blocks

A machine says what instructions do to a state and how tests and switches come out.  It is left
open what the states are, so one notion of a run serves for values, for calls and for paths.

* `Ends M f l s r`: from the start of the block `l` of the function `f` and the state `s`, the run
  ends with the result `r`.
* `Ends.unique`: there is only one such result.
* `ends_prune`: blocks that nothing reaches have no part in a run.
-/

namespace Codegen.Ir

/-- What instructions and decisions do to a state.  A decision may also end the run. -/
structure Machine (σ ρ : Type) where
  /-- An instruction. -/
  inst : Inst → σ → σ
  /-- How a test of a value comes out. -/
  test : Value → σ → Except ρ (Bool × σ)
  /-- The position of the case that a switch on a value takes; behind the last one is the
  default. -/
  pick : Value → String → List Int → σ → Except ρ (Nat × σ)
  /-- A return. -/
  ret : String → Option Value → σ → ρ
  /-- Control gets to where it cannot be. -/
  stuck : σ → ρ

namespace Machine

variable {σ ρ : Type} (M : Machine σ ρ)

/-- Instructions in order. -/
def line (insts : List Inst) (s : σ) : σ := insts.foldl (fun s inst => M.inst inst s) s

/-- The label that a terminator leads to. -/
def leave : Terminator → σ → Except ρ (Option Label × σ)
  | .goto target, s => .ok (target, s)
  | .branch cond onTrue onFalse, s => do
    let (holds, s) ← M.test cond s
    pure (if holds then onTrue else onFalse, s)
  | .switch value type cases otherwise, s => do
    let (i, s) ← M.pick value type (cases.map Prod.fst) s
    pure ((cases[i]?.map Prod.snd).or otherwise, s)
  | .ret type value, s => .error (M.ret type value s)
  | .unreachable, s => .error (M.stuck s)

/-- From the start of a block and a state, the run ends with a result. -/
inductive Ends (f : Function) : Label → σ → ρ → Prop where
  | here {l : Label} {b : Block} {s : σ} {r : ρ} (hb : f.block? l = some b)
      (hr : M.leave b.terminator (M.line b.insts s) = .error r) : Ends f l s r
  | jump {l l' : Label} {b : Block} {s s' : σ} {r : ρ} (hb : f.block? l = some b)
      (hs : M.leave b.terminator (M.line b.insts s) = .ok (some l', s')) (hr : Ends f l' s' r) :
    Ends f l s r

/-- How a run goes on behind a terminator. -/
def Goes (f : Function) : Except ρ (Option Label × σ) → ρ → Prop
  | .error r', r => r = r'
  | .ok (some l, s), r => M.Ends f l s r
  | .ok (none, _), _ => False

variable {M} {f : Function}

theorem ends_iff {l : Label} {s : σ} {r : ρ} :
    M.Ends f l s r ↔
      ∃ b, f.block? l = some b ∧ M.Goes f (M.leave b.terminator (M.line b.insts s)) r := by
  constructor
  · intro h
    cases h with
    | @here _ b _ _ hb hr => exact ⟨b, hb, by rw [hr]; rfl⟩
    | @jump _ _ b _ _ _ hb hs hr => exact ⟨b, hb, by rw [hs]; exact hr⟩
  · rintro ⟨b, hb, hg⟩
    match hf : M.leave b.terminator (M.line b.insts s) with
    | .error r' =>
      rw [hf] at hg
      exact .here hb (hf.trans (congrArg _ hg.symm))
    | .ok (some l', s') =>
      rw [hf] at hg
      exact .jump hb hf hg
    | .ok (none, _) =>
      rw [hf] at hg
      exact hg.elim

/-- A run ends in one way only. -/
theorem Ends.unique {l : Label} {s : σ} {r r' : ρ} (h : M.Ends f l s r) (h' : M.Ends f l s r') :
    r = r' := by
  induction h with
  | here hb hr =>
    obtain ⟨b, hb', hg⟩ := ends_iff.1 h'
    obtain rfl := Option.some.inj (hb.symm.trans hb')
    rw [hr] at hg
    exact hg.symm
  | jump hb hs _ ih =>
    obtain ⟨b, hb', hg⟩ := ends_iff.1 h'
    obtain rfl := Option.some.inj (hb.symm.trans hb')
    rw [hs] at hg
    exact ih hg

theorem line_append (is js : List Inst) (s : σ) :
    M.line (is ++ js) s = M.line js (M.line is s) := List.foldl_append

section Leave

variable {cond value : Value} {onTrue onFalse otherwise : Option Label} {type : String}
  {cases : List (Int × Label)} {s s' : σ} {r : ρ}

theorem leave_branch_error (h : M.test cond s = .error r) :
    M.leave (.branch cond onTrue onFalse) s = .error r := by
  rw [leave, h]
  rfl

theorem leave_branch_ok {holds : Bool} (h : M.test cond s = .ok (holds, s')) :
    M.leave (.branch cond onTrue onFalse) s = .ok (if holds then onTrue else onFalse, s') := by
  rw [leave, h]
  rfl

theorem leave_switch_error (h : M.pick value type (cases.map Prod.fst) s = .error r) :
    M.leave (.switch value type cases otherwise) s = .error r := by
  rw [leave, h]
  rfl

theorem leave_switch_ok {i : Nat} (h : M.pick value type (cases.map Prod.fst) s = .ok (i, s')) :
    M.leave (.switch value type cases otherwise) s =
      .ok ((cases[i]?.map Prod.snd).or otherwise, s') := by
  rw [leave, h]
  rfl

end Leave

/-! ## Blocks that nothing reaches -/

/-- A terminator leads to one of its targets. -/
theorem mem_targets_of_leave {t : Terminator} {s s' : σ} {l : Label}
    (h : M.leave t s = .ok (some l, s')) : some l ∈ t.targets := by
  cases t with
  | goto target =>
    obtain ⟨rfl, -⟩ := Prod.mk.inj (Except.ok.inj h)
    exact List.mem_singleton_self _
  | branch cond onTrue onFalse =>
    cases ht : M.test cond s with
    | error r =>
      rw [leave_branch_error ht] at h
      cases h
    | ok v =>
      rw [leave_branch_ok ht] at h
      obtain ⟨hl, -⟩ := Prod.mk.inj (Except.ok.inj h)
      cases hv : v.1 <;> simp [Terminator.targets, ← hl, hv]
  | switch value type cases otherwise =>
    cases hp : M.pick value type (cases.map Prod.fst) s with
    | error r =>
      rw [leave_switch_error hp] at h
      cases h
    | ok v =>
      obtain ⟨i, s₁⟩ := v
      rw [leave_switch_ok hp] at h
      obtain ⟨hl, -⟩ := Prod.mk.inj (Except.ok.inj h)
      cases hi : cases[i]? with
      | none =>
        rw [hi] at hl
        exact List.mem_append_right _ (hl ▸ List.mem_singleton_self _)
      | some c =>
        rw [hi] at hl
        exact List.mem_append_left _ (hl ▸ List.mem_map_of_mem (List.mem_of_getElem? hi))
  | ret type value => cases h
  | unreachable => cases h

/-- A run meets only blocks that are reached. -/
theorem ends_prune (hf : f.Closed) {l : Label} {s : σ} {r : ρ} (hl : f.Reached l)
    (h : M.Ends f l s r) : M.Ends f.prune l s r := by
  have kept {l : Label} {b : Block} (hl : f.Reached l) (hb : f.block? l = some b) :
      f.prune.block? l = some b :=
    (Function.block?_prune ((Function.mem_reachable hf.entry).2 hl)).trans hb
  induction h with
  | here hb hr => exact .here (kept hl hb) hr
  | jump hb hs _ ih =>
    refine .jump (kept hl hb) hs (ih (hl.jump ?_))
    obtain ⟨hmem, rfl⟩ := Function.mem_of_block? hb
    rw [Function.successors_of_mem hf.unique hmem]
    exact List.mem_filterMap.2 ⟨_, mem_targets_of_leave hs, rfl⟩

end Machine

end Codegen.Ir
