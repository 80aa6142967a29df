import Codegen.Proofs.Placement
import Codegen.Proofs.Machine

/-!
# Blocks run as the structured code they come from

`Code.Runs` says what structured code does on a machine, construct by construct.  Its blocks do the
same: `Code.resumes` leads every run of structured code to a run of its blocks.
-/

namespace Codegen.Lowering

open Ir (Inst Value Label Terminator Block Machine)

open Ir.Machine (leave_branch_error leave_branch_ok leave_switch_error leave_switch_ok)

/-- How a piece of structured code ends. -/
inductive Outcome (σ ρ : Type) where
  /-- Control gets behind the code. -/
  | normal (s : σ)
  /-- Control leaves the loop around the code. -/
  | out (s : σ)
  /-- Control goes to the next round of that loop. -/
  | on (s : σ)
  /-- The run is over. -/
  | ended (r : ρ)

variable {σ ρ : Type} (M : Machine σ ρ)

/-- The rounds of a loop.  Check and update neither leave the loop nor start its next round. -/
inductive Rounds (check : σ → Outcome σ ρ → Prop) (cond : Value)
    (body update : σ → Outcome σ ρ → Prop) : σ → Outcome σ ρ → Prop where
  | checkOver {s : σ} {r : ρ} (hc : check s (.ended r)) : Rounds check cond body update s (.ended r)
  | testOver {s s₁ : σ} {r : ρ} (hc : check s (.normal s₁)) (ht : M.test cond s₁ = .error r) :
    Rounds check cond body update s (.ended r)
  | done {s s₁ s₂ : σ} (hc : check s (.normal s₁)) (ht : M.test cond s₁ = .ok (false, s₂)) :
    Rounds check cond body update s (.normal s₂)
  | bodyOver {s s₁ s₂ : σ} {r : ρ} (hc : check s (.normal s₁))
      (ht : M.test cond s₁ = .ok (true, s₂)) (hb : body s₂ (.ended r)) :
    Rounds check cond body update s (.ended r)
  | left {s s₁ s₂ s₃ : σ} (hc : check s (.normal s₁)) (ht : M.test cond s₁ = .ok (true, s₂))
      (hb : body s₂ (.out s₃)) : Rounds check cond body update s (.normal s₃)
  | updateOver {s s₁ s₂ s₃ : σ} {r : ρ} (hc : check s (.normal s₁))
      (ht : M.test cond s₁ = .ok (true, s₂)) (hb : body s₂ (.normal s₃) ∨ body s₂ (.on s₃))
      (hu : update s₃ (.ended r)) : Rounds check cond body update s (.ended r)
  | round {s s₁ s₂ s₃ s₄ : σ} {o : Outcome σ ρ} (hc : check s (.normal s₁))
      (ht : M.test cond s₁ = .ok (true, s₂)) (hb : body s₂ (.normal s₃) ∨ body s₂ (.on s₃))
      (hu : update s₃ (.normal s₄)) (hr : Rounds check cond body update s₄ o) :
    Rounds check cond body update s o

/-- One piece of code, and another one behind it if control gets there. -/
def Then (first second : σ → Outcome σ ρ → Prop) (s : σ) : Outcome σ ρ → Prop
  | .normal s₂ => ∃ s₁, first s (.normal s₁) ∧ second s₁ (.normal s₂)
  | o => first s o ∨ ∃ s₁, first s (.normal s₁) ∧ second s₁ o

/-- Code that runs by the outcome of a decision. -/
def Decided {α : Type} (decision : Except ρ (α × σ)) (runs : α → σ → Outcome σ ρ → Prop) :
    Outcome σ ρ → Prop :=
  match decision with
  | .error r => fun o => o = .ended r
  | .ok (a, s) => runs a s

/-- The values of the cases. -/
def Cases.values : {inLoop : Bool} → Cases inLoop → List Int
  | _, .nil => []
  | _, .otherwise _ => []
  | _, .case value _ rest => value :: rest.values

mutual

/-- What structured code does. -/
def Code.Runs : {inLoop : Bool} → Code inLoop → σ → Outcome σ ρ → Prop
  | _, .done, s, o => o = .normal s
  | _, .cons step rest, s, o => Then step.Runs rest.Runs s o

/-- What a step does. -/
def Step.Runs : {inLoop : Bool} → Step inLoop → σ → Outcome σ ρ → Prop
  | _, .inst inst, s, o => o = .normal (M.inst inst s)
  | _, .guard isAnd cond right, s, o =>
    Decided (M.test cond s)
      (fun holds s o => if holds = isAnd then right.Runs s o else o = .normal s) o
  | _, .branch arms, s, o => arms.Runs s o
  | _, .switch value type cases, s, o =>
    Decided (M.pick value type cases.values s) cases.Runs o
  | _, .loop check cond body update, s, o => Rounds M check.Runs cond body.Runs update.Runs s o
  | _, .jumpOut, s, o => o = .out s
  | _, .jumpOn, s, o => o = .on s
  | _, .ret type value, s, o => o = .ended (M.ret type value s)

/-- What the arms of a branch do: the first one whose condition holds. -/
def Arms.Runs : {inLoop : Bool} → Arms inLoop → σ → Outcome σ ρ → Prop
  | _, .nil, s, o => o = .normal s
  | _, .always body _, s, o => body.Runs s o
  | _, .when check cond body rest, s, o =>
    Then check.Runs (fun s o => Decided (M.test cond s)
      (fun holds s o => if holds then body.Runs s o else rest.Runs s o) o) s o

/-- What the case at a position does; behind the last one is the default. -/
def Cases.Runs : {inLoop : Bool} → Cases inLoop → Nat → σ → Outcome σ ρ → Prop
  | _, .nil, _, s, o => o = .normal s
  | _, .otherwise body, _, s, o => body.Runs s o
  | _, .case _ body _, 0, s, o => body.Runs s o
  | _, .case _ _ rest, i + 1, s, o => rest.Runs i s o

end

/-! ## Runs of structured code -/

section Structured

variable {M}

/-- What comes behind code that ends in some way. -/
def Outcome.bind : Outcome σ ρ → (σ → Outcome σ ρ) → Outcome σ ρ
  | .normal s, next => next s
  | o, _ => o

/-- Control gets behind the code, or the run is over. -/
def Outcome.Stays : Outcome σ ρ → Prop
  | .normal _ => True
  | .ended _ => True
  | _ => False

theorem Outcome.Stays.bind {o : Outcome σ ρ} {next : σ → Outcome σ ρ} (ho : o.Stays)
    (hn : ∀ s, (next s).Stays) : (o.bind next).Stays := by
  cases o with
  | normal s => exact hn s
  | ended r => trivial
  | out s => exact ho
  | on s => exact ho

section Then

variable {first second third : σ → Outcome σ ρ → Prop} {s : σ} {o : Outcome σ ρ}

theorem then_bind {next : σ → Outcome σ ρ} (hf : first s o)
    (hn : ∀ s₁, second s₁ (next s₁)) : Then first second s (o.bind next) := by
  cases o with
  | normal s₁ =>
    change Then first second s (next s₁)
    generalize hnext : next s₁ = o
    cases o with
    | normal s₂ => exact ⟨s₁, hf, hnext ▸ hn s₁⟩
    | _ => exact .inr ⟨s₁, hf, hnext ▸ hn s₁⟩
  | _ => exact .inl hf

theorem then_assoc :
    Then (Then first second) third s o ↔ Then first (Then second third) s o := by
  cases o with
  | normal s₃ =>
    constructor
    · rintro ⟨s₂, ⟨s₁, h₁, h₂⟩, h₃⟩
      exact ⟨s₁, h₁, s₂, h₂, h₃⟩
    · rintro ⟨s₁, h₁, s₂, h₂, h₃⟩
      exact ⟨s₂, ⟨s₁, h₁, h₂⟩, h₃⟩
  | _ =>
    constructor
    · rintro ((h₁ | ⟨s₁, h₁, h₂⟩) | ⟨s₂, ⟨s₁, h₁, h₂⟩, h₃⟩)
      · exact .inl h₁
      · exact .inr ⟨s₁, h₁, .inl h₂⟩
      · exact .inr ⟨s₁, h₁, .inr ⟨s₂, h₂, h₃⟩⟩
    · rintro (h₁ | ⟨s₁, h₁, h₂ | ⟨s₂, h₂, h₃⟩⟩)
      · exact .inl (.inl h₁)
      · exact .inl (.inr ⟨s₁, h₁, h₂⟩)
      · exact .inr ⟨s₂, ⟨s₁, h₁, h₂⟩, h₃⟩

/-- Code that does nothing comes first. -/
theorem then_normal : Then (fun s o => o = .normal s) second s o ↔ second s o := by
  cases o with
  | normal s₁ =>
    exact ⟨fun ⟨_, h₁, h₂⟩ => Outcome.normal.inj h₁ ▸ h₂, fun h => ⟨s, rfl, h⟩⟩
  | _ =>
    refine ⟨?_, fun h => .inr ⟨s, rfl, h⟩⟩
    rintro (h | ⟨_, h₁, h₂⟩)
    · cases h
    · exact Outcome.normal.inj h₁ ▸ h₂

end Then

theorem Code.runs_append {inLoop : Bool} : (a b : Code inLoop) → {s : σ} → {o : Outcome σ ρ} →
    ((a ++ b).Runs M s o ↔ Then (a.Runs M) (b.Runs M) s o)
  | .done, _, _, _ => then_normal.symm
  | .cons step rest, b, s, o => by
    have ih : (rest ++ b).Runs M = Then (rest.Runs M) (b.Runs M) :=
      funext fun s => funext fun o => propext (rest.runs_append b)
    change Then (step.Runs M) ((rest ++ b).Runs M) s o ↔ _
    rw [ih]
    exact then_assoc.symm

theorem Code.runs_line {inLoop : Bool} (insts : List Inst) (s : σ) :
    (Code.line insts : Code inLoop).Runs M s (.normal (M.line insts s)) := by
  induction insts generalizing s with
  | nil => rfl
  | cons inst insts ih => exact ⟨_, rfl, ih _⟩

/-- A loop leaves no other loop. -/
theorem Rounds.stays {check body update : σ → Outcome σ ρ → Prop} {cond : Value} {s : σ}
    {o : Outcome σ ρ} (h : Rounds M check cond body update s o) : o.Stays := by
  induction h with
  | round _ _ _ _ _ ih => exact ih
  | _ => trivial

/-- A single step. -/
theorem Code.runs_of {inLoop : Bool} {step : Step inLoop} {s : σ} {o : Outcome σ ρ}
    (h : step.Runs M s o) : (Code.of step).Runs M s o := by
  cases o with
  | normal s₁ => exact ⟨s₁, h, rfl⟩
  | _ => exact .inl h

end Structured

/-! ## Runs of blocks -/

variable (f : Ir.Function)

/-- The blocks are blocks of the function. -/
def Holds (blocks : List Block) : Prop := ∀ b ∈ blocks, f.block? b.label = some b

theorem Holds.left {f : Ir.Function} {a b : List Block} (h : Holds f (a ++ b)) : Holds f a :=
  fun c hc => h c (List.mem_append_left b hc)

theorem Holds.right {f : Ir.Function} {a b : List Block} (h : Holds f (a ++ b)) : Holds f b :=
  fun c hc => h c (List.mem_append_right a hc)

/-- Behind the instructions of an open block, the run goes on to the result. -/
def Resumes (o : OpenBlock) (s : σ) (r : ρ) : Prop :=
  ∃ b rest, f.block? o.label = some b ∧ b.insts = o.insts ++ rest ∧
    M.Goes f (M.leave b.terminator (M.line rest s)) r

/-- From a site, the run goes on to the result.  A site without an open block is never met. -/
def Site.Resumes (site : Site) (s : σ) (r : ρ) : Prop :=
  ∀ o, site.current = some o → Lowering.Resumes M f o s r

/-- By the way that code ends, the run goes on to the result. -/
def Continues (w : Way → Label) (site : Site) (r : ρ) : Outcome σ ρ → Prop
  | .normal s => site.Resumes M f s r
  | .out s => M.Ends f (w .out) s r
  | .on s => M.Ends f (w .on) s r
  | .ended r' => r = r'

variable {M f}

theorem Continues.of_over {w : Way → Label} {site : Site} {r r' : ρ}
    (h : Continues M f w site r (.ended r')) : r = r' := h

section Sites

variable {s : Site} {st : σ} {r : ρ}

/-- To go on at the start of a block is to start there. -/
theorem ends_of_resumes {l : Label} {comment : String}
    (h : Resumes M f { label := l, comment } st r) : M.Ends f l st r := by
  obtain ⟨b, rest, hb, hi, hg⟩ := h
  refine Machine.ends_iff.2 ⟨b, hb, ?_⟩
  rw [hi]
  exact hg

theorem ends_of_joined {comment : String} (h : (s.joined comment).Resumes M f st r) :
    M.Ends f s.next st r := ends_of_resumes (h _ rfl)

theorem ends_of_forked {comment : String} (h : (s.forked comment).Resumes M f st r) :
    M.Ends f s.next st r := ends_of_resumes (h _ rfl)

theorem resumes_close {t : Terminator} (hf : Holds f [s.last.close t])
    (h : M.Goes f (M.leave t st) r) : s.Resumes M f st r := by
  intro o ho
  have hb := hf _ (List.mem_singleton_self _)
  rw [Site.last, ho] at hb
  exact ⟨_, [], hb, (List.append_nil _).symm, h⟩

theorem resumes_leaving {l : Label} (hf : Holds f (s.leaving l)) (h : M.Ends f l st r) :
    s.Resumes M f st r := by
  intro o ho
  have hb := hf (o.close (.goto (some l))) (by simp [Site.leaving, ho])
  exact ⟨_, [], hb, (List.append_nil _).symm, h⟩

theorem resumes_opened {comment : String} (h : (s.opened comment).Resumes M f st r) :
    s.Resumes M f st r := by
  intro o ho
  rw [Site.opened, ho] at h
  exact h o ho

variable {w : Way → Label} {site : Site} {o : Outcome σ ρ}

section Fork

variable {holds : Bool} {cond : Value} {other : Label} (hf : Holds f [s.fork holds cond other])
include hf

theorem resumes_of_goes
    (h : M.Goes f (M.leave (if holds then .branch cond (some s.next) (some other)
      else .branch cond (some other) (some s.next)) st) r) : s.Resumes M f st r := by
  intro b hb
  have hblock := hf _ (List.mem_singleton_self _)
  rw [Site.fork, Site.last, Site.drawn, hb] at hblock
  exact ⟨_, [], hblock, (List.append_nil _).symm, h⟩

theorem resumes_fork_error (ht : M.test cond st = .error r) : s.Resumes M f st r := by
  refine resumes_of_goes hf ?_
  cases holds with
  | true => exact (leave_branch_error ht).symm ▸ rfl
  | false => exact (leave_branch_error ht).symm ▸ rfl

/-- A test goes on along one of its two ways. -/
theorem resumes_fork_ok {v : Bool} {st' : σ} (ht : M.test cond st = .ok (v, st'))
    (h : M.Ends f (if v = holds then s.next else other) st' r) : s.Resumes M f st r := by
  refine resumes_of_goes hf ?_
  have leads : M.leave (if holds then .branch cond (some s.next) (some other)
      else .branch cond (some other) (some s.next)) st =
      .ok (some (if v = holds then s.next else other), st') := by
    cases holds <;> cases v <;> simp [leave_branch_ok ht]
  rw [leads]
  exact h

theorem resumes_fork {runs : Bool → σ → Outcome σ ρ → Prop}
    (h : Decided (M.test cond st) runs o) (hc : Continues M f w site r o)
    (hr : ∀ v st, runs v st o → M.Ends f (if v = holds then s.next else other) st r) :
    s.Resumes M f st r := by
  cases ht : M.test cond st with
  | error r' =>
    rw [ht] at h
    obtain rfl : o = .ended r' := h
    obtain rfl : r = r' := hc
    exact resumes_fork_error hf ht
  | ok v =>
    rw [ht] at h
    exact resumes_fork_ok hf ht (hr v.1 v.2 h)

end Fork

/-- A switch goes on at one of its targets. -/
theorem resumes_switch {value : Value} {type : String} {targets : List (Int × Label)}
    {otherwise : Label} {runs : Nat → σ → Outcome σ ρ → Prop}
    (hf : Holds f [s.last.close (.switch value type targets (some otherwise))])
    (h : Decided (M.pick value type (targets.map Prod.fst) st) runs o)
    (hc : Continues M f w site r o)
    (hr : ∀ i st, runs i st o →
      M.Ends f ((targets[i]?.map Prod.snd).getD otherwise) st r) :
    s.Resumes M f st r := by
  refine resumes_close hf ?_
  cases ht : M.pick value type (targets.map Prod.fst) st with
  | error r' =>
    rw [ht] at h
    obtain rfl : o = .ended r' := h
    rw [leave_switch_error ht]
    exact hc
  | ok v =>
    rw [ht] at h
    have goes := hr v.1 v.2 h
    have target : (targets[v.1]?.map Prod.snd).or (some otherwise) =
        some ((targets[v.1]?.map Prod.snd).getD otherwise) := by
      cases targets[v.1]? <;> rfl
    rw [leave_switch_ok ht, target]
    exact goes

/-- One piece of code goes on with the next. -/
theorem Then.resumes {first second : σ → Outcome σ ρ → Prop} {start middle : Site}
    (h : Then first second st o) (hc : Continues M f w site r o)
    (h₁ : ∀ o, first st o → Continues M f w middle r o → start.Resumes M f st r)
    (h₂ : ∀ st, second st o → middle.Resumes M f st r) : start.Resumes M f st r := by
  have behind : (∃ st₁, first st (.normal st₁) ∧ second st₁ o) → start.Resumes M f st r := by
    rintro ⟨st₁, hfirst, hsecond⟩
    exact h₁ _ hfirst (h₂ st₁ hsecond)
  cases o with
  | normal s₂ => exact behind h
  | out s₂ => exact h.elim (fun hfirst => h₁ _ hfirst hc) behind
  | on s₂ => exact h.elim (fun hfirst => h₁ _ hfirst hc) behind
  | ended r' => exact h.elim (fun hfirst => h₁ _ hfirst hc) behind

/-- Only code that ends normally asks for the site behind it. -/
theorem Continues.through {w' : Way → Label} {site' : Site} (hc : Continues M f w site r o)
    (hout : w' .out = w .out) (hon : w' .on = w .on)
    (h : ∀ st, site.Resumes M f st r → site'.Resumes M f st r) : Continues M f w' site' r o := by
  cases o with
  | normal st => exact h st hc
  | out st => exact (congrArg (M.Ends f · st r) hout).mpr hc
  | on st => exact (congrArg (M.Ends f · st r) hon).mpr hc
  | ended r' => exact hc

/-- An instruction is appended to the open block. -/
theorem resumes_appended {inst : Inst} (h : (s.appended inst).Resumes M f (M.inst inst st) r) :
    s.Resumes M f st r := by
  intro o ho
  have current : (s.appended inst).current = some { o with insts := o.insts ++ [inst] } := by
    simp [Site.appended, Site.opened, ho]
  obtain ⟨b, rest, hb, hi, hg⟩ := h _ current
  exact ⟨b, inst :: rest, hb, by simpa using hi, hg⟩

end Sites

/-! ## Rounds of a loop -/

section Rounds

variable {check body update : σ → Outcome σ ρ → Prop} {cond : Value} {entry : Label}
  {w w' : Way → Label} {c b u site : Site} {r : ρ}

/-- The blocks of a loop do its rounds, if the blocks of its parts do what the parts do. -/
theorem Rounds.ends {st : σ} {o : Outcome σ ρ} (h : Rounds M check cond body update st o)
    (hc : Continues M f w site r o)
    (hexit : ∀ st, site.Resumes M f st r → M.Ends f (w' .out) st r)
    (hcheck : ∀ st o, check st o → Continues M f w' c r o → M.Ends f entry st r)
    (hfork : Holds f [c.fork true cond (w' .out)])
    (hbody : ∀ st o, body st o → Continues M f w' b r o → M.Ends f c.next st r)
    (hnext : ∀ st, M.Ends f (w' .on) st r → b.Resumes M f st r)
    (hupdate : ∀ st o, update st o → Continues M f w' u r o → M.Ends f (w' .on) st r)
    (hback : ∀ st, M.Ends f entry st r → u.Resumes M f st r) : M.Ends f entry st r := by
  have bodyThen {st₂ st₃ : σ} (hb : body st₂ (.normal st₃) ∨ body st₂ (.on st₃))
      (hn : M.Ends f (w' .on) st₃ r) : M.Ends f c.next st₂ r :=
    hb.elim (fun hb => hbody _ _ hb (hnext _ hn)) fun hb => hbody _ _ hb hn
  induction h with
  | checkOver hch => exact hcheck _ _ hch hc
  | testOver hch ht =>
    obtain rfl := hc.of_over
    exact hcheck _ _ hch (resumes_fork_error hfork ht)
  | done hch ht => exact hcheck _ _ hch (resumes_fork_ok hfork ht (hexit _ hc))
  | bodyOver hch ht hb => exact hcheck _ _ hch (resumes_fork_ok hfork ht (hbody _ _ hb hc))
  | left hch ht hb =>
    exact hcheck _ _ hch (resumes_fork_ok hfork ht (hbody _ _ hb (hexit _ hc)))
  | updateOver hch ht hb hu =>
    exact hcheck _ _ hch (resumes_fork_ok hfork ht (bodyThen hb (hupdate _ _ hu hc)))
  | round hch ht hb hu _ ih =>
    have again := hupdate _ _ hu (hback _ (ih hc))
    exact hcheck _ _ hch (resumes_fork_ok hfork ht (bodyThen hb again))

end Rounds

/-! ## Cases of a switch -/

theorem Cases.map_targets : {inLoop : Bool} → (cases : Cases inLoop) → (next : Label) →
    (cases.place next).targets.map Prod.fst = cases.values
  | _, .nil, _ => rfl
  | _, .otherwise _, _ => rfl
  | _, .case value _ rest, _ => congrArg (value :: ·) (rest.map_targets _)

theorem Cases.ends_behind : {inLoop : Bool} → (cases : Cases inLoop) → {next : Label} → {st : σ} →
    {r : ρ} → (cases.place next).site.Resumes M f st r →
    M.Ends f (cases.place next).behind st r
  | _, .nil, _, _, _, h => ends_of_joined h
  | _, .otherwise _, _, _, _, h => ends_of_joined h
  | _, .case _ _ rest, _, _, _, h => rest.ends_behind h

/-! ## The simulation -/

mutual

/-- Blocks do what the structured code does that they come from. -/
theorem Code.resumes : {inLoop : Bool} → (code : Code inLoop) → {s : Site} → {w : Way → Label} →
    {st : σ} → {o : Outcome σ ρ} → {r : ρ} → Holds f ((code.place s).blocks w) →
    code.Runs M st o → Continues M f w (code.place s).site r o → s.Resumes M f st r
  | _, .done, s, w, st, o, r, _, h, hc => by
    obtain rfl : o = .normal st := h
    exact hc
  | _, .cons step rest, s, w, st, o, r, hf, h, hc =>
    Then.resumes h hc (fun _ h₁ hc₁ => step.resumes hf.left h₁ hc₁)
      fun _ h₂ => rest.resumes hf.right h₂ hc

theorem Step.resumes : {inLoop : Bool} → (step : Step inLoop) → {s : Site} → {w : Way → Label} →
    {st : σ} → {o : Outcome σ ρ} → {r : ρ} → Holds f ((step.place s).blocks w) →
    step.Runs M st o → Continues M f w (step.place s).site r o → s.Resumes M f st r
  | _, .inst inst, s, w, st, o, r, _, h, hc => by
    obtain rfl : o = .normal (M.inst inst st) := h
    exact resumes_appended hc
  | _, .guard isAnd cond right, s, w, st, o, r, hf, h, hc => by
    have hf : Holds f ([s.fork isAnd cond _] ++ (_ ++ _)) := hf
    refine resumes_fork hf.left h hc fun v st' hv => ?_
    by_cases heq : v = isAnd
    · rw [if_pos heq] at hv ⊢
      refine ends_of_forked (right.resumes hf.right.left hv (hc.through rfl rfl fun st hj => ?_))
      exact resumes_leaving hf.right.right (ends_of_joined hj)
    · rw [if_neg heq] at hv ⊢
      obtain rfl := hv
      exact ends_of_joined hc
  | _, .branch arms, s, w, st, o, r, hf, h, hc => by
    refine arms.resumes hf.left ?_ h (hc.through rfl rfl fun _ hs => hs) fun st hs => ?_
    · rw [Function.update_self]
      exact hf.right
    · rw [Function.update_self]
      exact ends_of_joined hs
  | _, .switch value type cases, s, w, st, o, r, hf, h, hc => by
    have hf : Holds f ([s.last.close _] ++ _) := hf
    have h : Decided (M.pick value type cases.values st) (cases.Runs M) o := h
    rw [← cases.map_targets s.ended.next] at h
    refine resumes_switch hf.left h hc fun i st' hi => ?_
    exact cases.ends hf.right (Function.update_self _ _ _) hi (hc.through rfl rfl fun _ hs => hs)
  | _, .loop check cond body update, s, w, st, o, r, hf, h, hc => by
    have hf : Holds f (_ ++ _ ++ [_] ++ _ ++ _ ++ _ ++ [_]) := hf
    refine resumes_leaving hf.left.left.left.left.left.left ?_
    have h : Rounds M (check.Runs M) cond (body.Runs M) (update.Runs M) st o := h
    exact h.ends hc (fun _ hs => ends_of_joined hs)
      (fun _ _ hch hcc => ends_of_joined (check.resumes hf.left.left.left.left.left.right hch hcc))
      hf.left.left.left.left.right
      (fun _ _ hb hcb => ends_of_forked (body.resumes hf.left.left.left.right hb hcb))
      (fun _ hn => resumes_opened (resumes_leaving hf.left.left.right hn))
      (fun _ _ hu hcu => ends_of_joined (update.resumes hf.left.right hu hcu))
      (fun _ he => resumes_close hf.right he)
  | _, .jumpOut, s, w, st, o, r, hf, h, hc => by
    obtain rfl : o = .out st := h
    exact resumes_close hf hc
  | _, .jumpOn, s, w, st, o, r, hf, h, hc => by
    obtain rfl : o = .on st := h
    exact resumes_close hf hc
  | _, .ret type value, s, w, st, o, r, hf, h, hc => by
    obtain rfl : o = .ended (M.ret type value st) := h
    exact resumes_close hf hc

/-- Behind a branch all of its arms come together at `w .behind`. -/
theorem Arms.resumes : {inLoop : Bool} → (arms : Arms inLoop) → {s site : Site} →
    {w : Way → Label} → {st : σ} → {o : Outcome σ ρ} → {r : ρ} →
    Holds f ((arms.place s).blocks w) →
    Holds f ((arms.place s).site.leaving (w .behind)) → arms.Runs M st o →
    Continues M f w site r o → (∀ st, site.Resumes M f st r → M.Ends f (w .behind) st r) →
    s.Resumes M f st r
  | _, .nil, s, site, w, st, o, r, _, hl, h, hc, hb => by
    obtain rfl : o = .normal st := h
    exact resumes_leaving hl (hb st hc)
  | _, .always body rest, s, site, w, st, o, r, hf, hl, h, hc, hb =>
    body.resumes hf.left.left h <| hc.through rfl rfl fun st hs =>
      resumes_opened (resumes_close hf.left.right (hb st hs))
  | _, .when check cond body rest, s, site, w, st, o, r, hf, hl, h, hc, hb => by
    refine Then.resumes h hc (fun _ h₁ hc₁ => check.resumes hf.left.left.left.left h₁ hc₁)
      fun st hd => ?_
    refine resumes_fork hf.left.left.left.right hd hc fun v st hv => ?_
    cases v with
    | true =>
      refine ends_of_forked
        (body.resumes hf.left.left.right hv (hc.through rfl rfl fun st hs => ?_))
      exact resumes_opened (resumes_close hf.left.right (hb st hs))
    | false =>
      have hv : rest.Runs M st o := hv
      cases rest with
      | nil =>
        obtain rfl : o = .normal st := hv
        exact hb st hc
      | always body' rest =>
        exact ends_of_joined ((Arms.always body' rest).resumes hf.right hl hv hc hb)
      | when check' cond' body' rest =>
        exact ends_of_joined ((Arms.when check' cond' body' rest).resumes hf.right hl hv hc hb)

theorem Cases.ends : {inLoop : Bool} → (cases : Cases inLoop) → {next : Label} →
    {w : Way → Label} → {i : Nat} → {st : σ} → {o : Outcome σ ρ} → {r : ρ} →
    Holds f ((cases.place next).blocks w) → w .behind = (cases.place next).behind →
    cases.Runs M i st o → Continues M f w (cases.place next).site r o →
    M.Ends f (((cases.place next).targets[i]?.map Prod.snd).getD (cases.place next).otherwise) st r
  | _, .nil, next, w, i, st, o, r, hf, hw, h, hc => by
    obtain rfl : o = .normal st := h
    exact ends_of_joined hc
  | _, .otherwise body, next, w, i, st, o, r, hf, hw, h, hc => by
    refine ends_of_joined (body.resumes hf.left h (hc.through rfl rfl fun st hs => ?_))
    exact resumes_leaving hf.right (hw.symm ▸ ends_of_joined hs)
  | _, .case value body rest, next, w, 0, st, o, r, hf, hw, h, hc => by
    refine ends_of_joined (body.resumes hf.left.left h (hc.through rfl rfl fun st hs => ?_))
    exact resumes_leaving hf.left.right (hw.symm ▸ rest.ends_behind hs)
  | _, .case _ body rest, next, w, i + 1, st, o, r, hf, hw, h, hc => rest.ends hf.right hw h hc

end

end Codegen.Lowering
