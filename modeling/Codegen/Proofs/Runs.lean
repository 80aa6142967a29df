import Codegen.Proofs.Simulation
import Codegen.Proofs.Verified

/-!
# Runs of a lowered function

A lowered function runs as the structured code of its body does: `ends_of_finishes`.  What comes out
of it for a particular machine is a matter of the drafts of its body alone.
-/

namespace Codegen.Lowering

open Ir (Inst Value Label Terminator Block Machine)

variable {σ ρ : Type} {M : Machine σ ρ}

/-! ## Code outside of loops -/

theorem Then.stays {first second : σ → Outcome σ ρ → Prop} {s : σ} {o : Outcome σ ρ}
    (h : Then first second s o) (hf : ∀ {s o}, first s o → o.Stays)
    (hs : ∀ {s o}, second s o → o.Stays) : o.Stays := by
  cases o with
  | normal s => trivial
  | ended r => trivial
  | out s => exact h.elim hf fun ⟨_, _, h⟩ => hs h
  | on s => exact h.elim hf fun ⟨_, _, h⟩ => hs h

theorem Decided.stays {α : Type} {decision : Except ρ (α × σ)} {runs : α → σ → Outcome σ ρ → Prop}
    {o : Outcome σ ρ} (h : Decided decision runs o) (hr : ∀ {a s o}, runs a s o → o.Stays) :
    o.Stays := by
  cases decision with
  | error r =>
    obtain rfl : o = .ended r := h
    trivial
  | ok v => exact hr h

mutual

/-- Code that is not in a loop does not leave one. -/
theorem Code.runs_stays : (code : Code false) → {s : σ} → {o : Outcome σ ρ} → code.Runs M s o →
    o.Stays
  | .done, s, _, h => by
    obtain rfl : _ = Outcome.normal s := h
    trivial
  | .cons step rest, _, _, h => Then.stays h step.runs_stays rest.runs_stays

theorem Step.runs_stays : (step : Step false) → {s : σ} → {o : Outcome σ ρ} → step.Runs M s o →
    o.Stays
  | .inst i, s, _, h => by
    obtain rfl : _ = Outcome.normal (M.inst i s) := h
    trivial
  | .guard isAnd cond right, _, _, h => by
    refine Decided.stays h fun {holds s o} hr => ?_
    split at hr
    · exact right.runs_stays hr
    · rw [hr]
      trivial
  | .branch arms, _, _, h => arms.runs_stays h
  | .switch value type cases, _, _, h => Decided.stays h cases.runs_stays
  | .loop _ _ _ _, _, _, h => Rounds.stays h
  | .ret type value, s, _, h => by
    obtain rfl : _ = Outcome.ended (M.ret type value s) := h
    trivial

theorem Arms.runs_stays : (arms : Arms false) → {s : σ} → {o : Outcome σ ρ} → arms.Runs M s o →
    o.Stays
  | .nil, s, _, h => by
    obtain rfl : _ = Outcome.normal s := h
    trivial
  | .always body _, _, _, h => body.runs_stays h
  | .when check cond body rest, _, _, h => by
    refine Then.stays h check.runs_stays fun h => Decided.stays h fun {holds s o} hr => ?_
    split at hr
    · exact body.runs_stays hr
    · exact rest.runs_stays hr

theorem Cases.runs_stays : (cases : Cases false) → {i : Nat} → {s : σ} → {o : Outcome σ ρ} →
    cases.Runs M i s o → o.Stays
  | .nil, _, s, _, h => by
    obtain rfl : _ = Outcome.normal s := h
    trivial
  | .otherwise body, _, _, _, h => body.runs_stays h
  | .case _ body _, 0, _, _, h => body.runs_stays h
  | .case _ _ rest, _ + 1, _, _, h => rest.runs_stays h

end

/-! ## Functions -/

/-- How the body of a function ends: by itself, or by the terminator behind it. -/
inductive Finishes (M : Machine σ ρ) (code : Code false) (t : Terminator) (s : σ) (r : ρ) :
    Prop where
  | ended (h : code.Runs M s (.ended r))
  | behind {s' : σ} (h : code.Runs M s (.normal s')) (ht : M.leave t s' = .error r)

theorem holds_unpruned (env : Env) (f : Func) (strings : List String) (debugInfo : Ir.DebugInfo) :
    Holds (unpruned env f (finalState env f strings debugInfo))
      ((draftOf env f strings debugInfo).code.blocks (fallback f)) := by
  rw [← finalState_blocks]
  exact fun b hb =>
    Ir.Function.block?_of_mem (unpruned_closed env f strings debugInfo).unique hb

/-- The blocks of a body do what its structured code does. -/
theorem Finishes.ends {f : Ir.Function} {code : Code false} {t : Terminator} {s : σ} {r : ρ}
    (h : Finishes M code t s r) (hf : Holds f (code.blocks t)) : M.Ends f Ir.entryLabel s r := by
  have start : (Graph.site {}).Resumes M f s r := by
    cases h with
    | ended h => exact code.resumes hf.left h rfl
    | @behind s' h ht =>
      refine code.resumes hf.left h fun o ho => ?_
      have hb := hf.right (o.close t) (by simp [ho])
      exact ⟨_, [], hb, (List.append_nil _).symm, ht.symm ▸ rfl⟩
  exact ends_of_resumes (start _ rfl)

/-- A lowered function runs as the structured code of its body. -/
theorem ends_of_finishes {env : Env} {f : Func} {strings : List String} {debugInfo : Ir.DebugInfo}
    {s : σ} {r : ρ}
    (h : Finishes M (draftOf env f strings debugInfo).code (fallback f) s r) :
    M.Ends (lowerFunction env f strings debugInfo).function Ir.entryLabel s r :=
  Machine.ends_prune (unpruned_closed env f strings debugInfo) .entry
    (h.ends (holds_unpruned env f strings debugInfo))

end Codegen.Lowering
