import Codegen.Proofs.Simulation
import Codegen.Proofs.Straight

/-!
# Courses of calls

Which functions are called, and in which order, depends on the ways that control takes.  A `Course`
says so for all ways at once: given the decisions to come, one for each test and each switch, it
makes its calls and ends like structured code does.  Where the decisions run out, it is over.

`tracer` is the machine that only notes down calls and takes the ways that it is told.  Structured
code `Follows` a course when it does on this machine what the course says.
-/

namespace Codegen.Lowering

open Ir (Inst Value Machine)

/-- What decides about the way of control. -/
inductive Decision where
  /-- How a test comes out. -/
  | test (holds : Bool)
  /-- The value that a switch looks at. -/
  | select (value : Int)
  deriving DecidableEq

/-- The decisions to come and the calls so far. -/
structure Trace where
  decisions : List Decision
  calls : List String := []

namespace Trace

/-- How the next test comes out. -/
def test : Trace → Except (List String) (Bool × Trace)
  | ⟨.test holds :: decisions, calls⟩ => .ok (holds, ⟨decisions, calls⟩)
  | ⟨_, calls⟩ => .error calls

/-- The value that the next switch looks at. -/
def select : Trace → Except (List String) (Int × Trace)
  | ⟨.select value :: decisions, calls⟩ => .ok (value, ⟨decisions, calls⟩)
  | ⟨_, calls⟩ => .error calls

theorem test_lt {t t' : Trace} {holds : Bool} (h : t.test = .ok (holds, t')) :
    t'.decisions.length < t.decisions.length := by
  unfold test at h
  split at h
  · obtain ⟨-, rfl⟩ := Prod.mk.inj (Except.ok.inj h)
    exact Nat.lt_succ_self _
  · cases h

theorem select_lt {t t' : Trace} {value : Int} (h : t.select = .ok (value, t')) :
    t'.decisions.length < t.decisions.length := by
  unfold select at h
  split at h
  · obtain ⟨-, rfl⟩ := Prod.mk.inj (Except.ok.inj h)
    exact Nat.lt_succ_self _
  · cases h

end Trace

/-- The machine that notes down calls and takes the ways that it is told. -/
def tracer : Machine Trace (List String) where
  inst i t := { t with calls := t.calls ++ i.callee?.toList }
  test _ t := t.test
  pick _ _ values t := do
    let (value, t) ← t.select
    pure (values.idxOf value, t)
  ret _ _ t := t.calls
  stuck t := t.calls

/-- At most `n` decisions are left. -/
def Outcome.Within {ρ : Type} (n : Nat) : Outcome Trace ρ → Prop
  | .normal t => t.decisions.length ≤ n
  | .out t => t.decisions.length ≤ n
  | .on t => t.decisions.length ≤ n
  | .ended _ => True

/-- The calls that are made and the way that control takes, by the decisions to come. -/
structure Course where
  run : Trace → Outcome Trace (List String)
  within : ∀ t, (run t).Within t.decisions.length

namespace Outcome

variable {ρ : Type} {o : Outcome Trace ρ} {m n : Nat}

theorem Within.mono (h : o.Within m) (hmn : m ≤ n) : o.Within n := by
  cases o with
  | ended r => trivial
  | _ => exact Nat.le_trans h hmn

theorem Within.bind {next : Trace → Outcome Trace ρ} (h : o.Within n)
    (hn : ∀ t, (next t).Within t.decisions.length) : (o.bind next).Within n := by
  cases o with
  | normal t => exact (hn t).mono h
  | _ => exact h

/-- What a loop makes of the end of its body: to go on is to get behind the body. -/
def rejoined : Outcome Trace ρ → Outcome Trace ρ
  | .on t => .normal t
  | o => o

theorem Within.rejoined (h : o.Within n) : o.rejoined.Within n := by
  cases o with
  | _ => exact h

end Outcome

namespace Course

/-- Courses that do the same are the same. -/
@[ext]
theorem ext {c d : Course} (h : ∀ t, c.run t = d.run t) : c = d := by
  obtain ⟨run, _⟩ := c
  obtain ⟨run', _⟩ := d
  obtain rfl : run = run' := funext h
  rfl

/-- Nothing happens. -/
def skip : Course where
  run t := .normal t
  within _ := Nat.le_refl _

/-- Calls in order. -/
def calls (names : List String) : Course where
  run t := .normal { t with calls := t.calls ++ names }
  within _ := Nat.le_refl _

/-- The loop around is left. -/
def leave : Course where
  run t := .out t
  within _ := Nat.le_refl _

/-- The next round of the loop around begins. -/
def next : Course where
  run t := .on t
  within _ := Nat.le_refl _

/-- The function returns. -/
def stop : Course where
  run t := .ended t.calls
  within _ := trivial

/-- One course, and the other one behind it. -/
instance : Append Course where
  append c d :=
    { run := fun t => (c.run t).bind d.run
      within := fun t => (c.within t).bind d.within }

/-- A test. -/
def test (yes no : Course) : Course where
  run t :=
    match t.test with
    | .ok (true, t) => yes.run t
    | .ok (false, t) => no.run t
    | .error calls => .ended calls
  within t := by
    split
    · rename_i h
      exact (yes.within _).mono (Trace.test_lt h).le
    · rename_i h
      exact (no.within _).mono (Trace.test_lt h).le
    · trivial

theorem run_test_ok {yes no : Course} {t t' : Trace} {holds : Bool}
    (h : t.test = .ok (holds, t')) :
    (test yes no).run t = if holds then yes.run t' else no.run t' := by
  cases holds <;> simp [test, h]

theorem run_test_error {yes no : Course} {t : Trace} {calls : List String}
    (h : t.test = .error calls) : (test yes no).run t = .ended calls := by
  simp [test, h]

/-- A test that control gets behind at once unless it comes out as `holds`. -/
def guard (holds : Bool) (right : Course) : Course :=
  if holds then test right skip else test skip right

/-- Arms tried in order, each with the course of its condition. -/
def branch : List (Option Course × Course) → Course
  | [] => skip
  | (none, body) :: _ => body
  | (some check, body) :: rest => check ++ test body (branch rest)

/-- The first case with the value, or else the default. -/
def pick (otherwise : Option Course) (value : Int) : List (Int × Course) → Course
  | [] => otherwise.getD skip
  | (v, body) :: rest => if v = value then body else pick otherwise value rest

/-- A switch. -/
def switch (cases : List (Int × Course)) (otherwise : Option Course) : Course where
  run t :=
    match t.select with
    | .ok (value, t) => (pick otherwise value cases).run t
    | .error calls => .ended calls
  within t := by
    split
    · rename_i h
      exact ((pick otherwise _ cases).within _).mono (Trace.select_lt h).le
    · trivial

/-- A body of a loop, where to go on is to get behind it. -/
def rejoined (body : Course) : Course where
  run t := (body.run t).rejoined
  within t := (body.within t).rejoined

/-- One round of a loop, which leaves it when the condition fails. -/
def round (check body update : Course) : Course :=
  check ++ test (body.rejoined ++ update) leave

/-- A round takes a decision. -/
theorem round_lt {check body update : Course} {t t' : Trace}
    (h : (round check body update).run t = .normal t') :
    t'.decisions.length < t.decisions.length := by
  have hc := check.within t
  change (check.run t).bind _ = .normal t' at h
  cases hrun : check.run t with
  | normal t₁ =>
    rw [hrun] at h hc
    change (match t₁.test with
      | .ok (true, t) => _ | .ok (false, t) => _ | .error calls => _) = _ at h
    split at h
    · rename_i t₂ ht
      have hb := (body.rejoined ++ update).within t₂
      rw [h] at hb
      exact Nat.lt_of_le_of_lt hb (Nat.lt_of_lt_of_le (Trace.test_lt ht) hc)
    · cases h
    · cases h
  | out t₁ =>
    rw [hrun] at h
    cases h
  | on t₁ =>
    rw [hrun] at h
    cases h
  | ended r =>
    rw [hrun] at h
    cases h

/-- The rounds of a loop, up to the one that leaves it.  Each of them takes a decision, so there are
at most as many as there are decisions. -/
def rounds (check body update : Course) : (limit : Nat) → Trace → Outcome Trace (List String)
  | 0, t => .ended t.calls
  | limit + 1, t =>
    match (round check body update).run t with
    | .normal t' => rounds check body update limit t'
    | .out t' => .normal t'
    | o => o

theorem rounds_within (check body update : Course) (limit : Nat) (t : Trace) :
    (rounds check body update limit t).Within t.decisions.length := by
  induction limit generalizing t with
  | zero => trivial
  | succ limit ih =>
    have hr := (round check body update).within t
    rw [rounds]
    split
    · rename_i t' h
      exact (ih t').mono (round_lt h).le
    · rename_i t' h
      rw [h] at hr
      exact hr
    · exact hr

/-- A loop. -/
def loop (check body update : Course) : Course where
  run t := rounds check body update (t.decisions.length + 1) t
  within t := rounds_within check body update _ t

@[simp]
theorem skip_append (c : Course) : skip ++ c = c := rfl

@[simp]
theorem append_skip (c : Course) : c ++ skip = c := by
  ext t
  change (c.run t).bind _ = c.run t
  cases c.run t <;> rfl

@[simp]
theorem calls_nil : calls [] = skip := by
  ext t
  change Outcome.normal { t with calls := t.calls ++ [] } = .normal t
  rw [List.append_nil]

/-! ## Courses that stay in the loop around them -/

/-- A course that neither leaves the loop around it nor starts its next round. -/
def Stays (c : Course) : Prop := ∀ t, (c.run t).Stays

section Stays

variable {c d : Course}

theorem stays_skip : skip.Stays := fun _ => trivial

theorem stays_calls (names : List String) : (calls names).Stays := fun _ => trivial

theorem stays_stop : stop.Stays := fun _ => trivial

theorem Stays.append (hc : c.Stays) (hd : d.Stays) : (c ++ d).Stays := fun t => (hc t).bind hd

theorem Stays.test (hc : c.Stays) (hd : d.Stays) : (test c d).Stays := by
  intro t
  simp only [Course.test]
  split
  · exact hc _
  · exact hd _
  · trivial

theorem stays_branch {arms : List (Option Course × Course)}
    (h : ∀ arm ∈ arms, (∀ check ∈ arm.1, check.Stays) ∧ arm.2.Stays) : (branch arms).Stays := by
  induction arms with
  | nil => exact stays_skip
  | cons arm arms ih =>
    obtain ⟨⟨hcheck, hbody⟩, harms⟩ := List.forall_mem_cons.1 h
    obtain ⟨_ | check, body⟩ := arm
    · exact hbody
    · exact (hcheck check rfl).append (hbody.test (ih harms))

theorem stays_pick {cases : List (Int × Course)} {otherwise : Option Course}
    (h : ∀ case ∈ cases, case.2.Stays) (ho : ∀ body ∈ otherwise, body.Stays) (value : Int) :
    (pick otherwise value cases).Stays := by
  induction cases with
  | nil =>
    cases otherwise with
    | none => exact stays_skip
    | some body => exact ho body rfl
  | cons case cases ih =>
    obtain ⟨hcase, hcases⟩ := List.forall_mem_cons.1 h
    rw [pick]
    split
    · exact hcase
    · exact ih hcases

theorem stays_switch {cases : List (Int × Course)} {otherwise : Option Course}
    (h : ∀ case ∈ cases, case.2.Stays) (ho : ∀ body ∈ otherwise, body.Stays) :
    (switch cases otherwise).Stays := by
  intro t
  simp only [switch]
  split
  · exact stays_pick h ho _ _
  · trivial

end Stays

/-! ## Loops -/

section Loop

variable {check body update : Course} {C B U : Trace → Outcome Trace (List String) → Prop}

/-- What a round does, as a part of all rounds. -/
theorem round_rounds (hC : ∀ t, C t (check.run t)) (hB : ∀ t, B t (body.run t))
    (hU : ∀ t, U t (update.run t)) (hc : check.Stays) (hu : update.Stays) (cond : Value)
    (t : Trace) :
    match (round check body update).run t with
    | .normal t' => ∀ o, Rounds tracer C cond B U t' o → Rounds tracer C cond B U t o
    | .out t' => Rounds tracer C cond B U t (.normal t')
    | .on _ => False
    | .ended r => Rounds tracer C cond B U t (.ended r) := by
  have hCt := hC t
  have hct := hc t
  change match (check.run t).bind (test (body.rejoined ++ update) leave).run with
    | .normal t' => _ | .out t' => _ | .on _ => _ | .ended r => _
  generalize check.run t = o at hCt hct ⊢
  cases o with
  | out t₁ => exact hct.elim
  | on t₁ => exact hct.elim
  | ended r => exact .checkOver hCt
  | normal t₁ =>
    change match (test (body.rejoined ++ update) leave).run t₁ with
      | .normal t' => _ | .out t' => _ | .on _ => _ | .ended r => _
    cases ht : t₁.test with
    | error r =>
      rw [run_test_error ht]
      exact .testOver hCt ht
    | ok v =>
      obtain ⟨holds, t₂⟩ := v
      rw [run_test_ok ht]
      cases holds with
      | false => exact .done hCt ht
      | true =>
        have updated {t₃ : Trace} (hb : B t₂ (.normal t₃) ∨ B t₂ (.on t₃)) :
            match update.run t₃ with
            | .normal t' => ∀ o, Rounds tracer C cond B U t' o → Rounds tracer C cond B U t o
            | .out t' => Rounds tracer C cond B U t (.normal t')
            | .on _ => False
            | .ended r => Rounds tracer C cond B U t (.ended r) := by
          have hUt := hU t₃
          have hut := hu t₃
          generalize update.run t₃ = o at hUt hut ⊢
          cases o with
          | out t₄ => exact hut.elim
          | on t₄ => exact hut.elim
          | ended r => exact .updateOver hCt ht hb hUt
          | normal t₄ => exact fun o hr => .round hCt ht hb hUt hr
        have hBt := hB t₂
        change match (body.run t₂).rejoined.bind update.run with
          | .normal t' => _ | .out t' => _ | .on _ => _ | .ended r => _
        generalize body.run t₂ = o at hBt ⊢
        cases o with
        | ended r => exact .bodyOver hCt ht hBt
        | out t₃ => exact .left hCt ht hBt
        | normal t₃ => exact updated (.inl hBt)
        | on t₃ => exact updated (.inr hBt)

/-- A loop runs in rounds. -/
theorem rounds_rounds (hC : ∀ t, C t (check.run t)) (hB : ∀ t, B t (body.run t))
    (hU : ∀ t, U t (update.run t)) (hc : check.Stays) (hu : update.Stays) (cond : Value)
    (t : Trace) : Rounds tracer C cond B U t ((loop check body update).run t) := by
  have enough (limit : Nat) (t : Trace) (hl : t.decisions.length < limit) :
      Rounds tracer C cond B U t (rounds check body update limit t) := by
    induction limit generalizing t with
    | zero => cases hl
    | succ limit ih =>
      have hr := round_rounds hC hB hU hc hu cond t
      rw [rounds]
      cases ho : (round check body update).run t with
      | normal t' =>
        rw [ho] at hr
        exact hr _ (ih t' (Nat.lt_of_lt_of_le (round_lt ho) (Nat.le_of_lt_succ hl)))
      | out t' =>
        rw [ho] at hr
        exact hr
      | on t' =>
        rw [ho] at hr
        exact hr.elim
      | ended r =>
        rw [ho] at hr
        exact hr
  exact enough _ t (Nat.lt_succ_self _)

/-- A loop leaves no other loop, whatever its body does. -/
theorem stays_loop (hc : check.Stays) (hu : update.Stays) : (loop check body update).Stays :=
  fun t => (rounds_rounds (fun _ => rfl) (fun _ => rfl) (fun _ => rfl) hc hu (.lit "") t).stays

end Loop

/-! ## Structured code that follows a course -/

end Course

variable {inLoop : Bool}

/-- Structured code does what a course says. -/
def Code.Follows (code : Code inLoop) (c : Course) : Prop := ∀ t, code.Runs tracer t (c.run t)

/-- The arms of a branch do what a course says. -/
def Arms.Follows (arms : Arms inLoop) (c : Course) : Prop := ∀ t, arms.Runs tracer t (c.run t)

theorem Code.follows_done : (Code.done : Code inLoop).Follows .skip := fun _ => rfl

theorem Code.Follows.append {a b : Code inLoop} {c d : Course} (ha : a.Follows c)
    (hb : b.Follows d) : (a ++ b).Follows (c ++ d) := fun t =>
  (a.runs_append b).2 (then_bind (ha t) hb)

theorem line_tracer (insts : List Inst) (t : Trace) :
    tracer.line insts t = { t with calls := t.calls ++ insts.filterMap Inst.callee? } := by
  induction insts generalizing t with
  | nil => simp [Machine.line]
  | cons inst insts ih =>
    change tracer.line insts (tracer.inst inst t) = _
    rw [ih]
    cases h : inst.callee? <;> simp [tracer, h]

theorem Code.follows_line (insts : List Inst) :
    (Code.line insts : Code inLoop).Follows (.calls (insts.filterMap Inst.callee?)) := by
  intro t
  have runs : (Code.line insts : Code inLoop).Runs tracer t _ := Code.runs_line insts t
  rw [line_tracer] at runs
  exact runs

/-- How a jump goes on. -/
def Jump.course : Jump → Course
  | out => .leave
  | on => .next

theorem Code.follows_jump (kind : Jump) : (Code.of kind.step).Follows kind.course := fun _ => by
  cases kind <;> exact Code.runs_of rfl

theorem Code.follows_ret (type : String) (value : Option Value) :
    (Code.of (Step.ret type value) : Code inLoop).Follows .stop := fun _ => Code.runs_of rfl

/-- Code behind a test, on both of its ways. -/
theorem decided_test {yes no : Course} {runs : Bool → Trace → Outcome Trace (List String) → Prop}
    (hyes : ∀ t, runs true t (yes.run t)) (hno : ∀ t, runs false t (no.run t)) (cond : Value)
    (t : Trace) : Decided (tracer.test cond t) runs ((Course.test yes no).run t) := by
  change Decided t.test runs _
  cases ht : t.test with
  | error calls => exact Course.run_test_error ht
  | ok v =>
    obtain ⟨holds, t'⟩ := v
    rw [Course.run_test_ok ht]
    cases holds with
    | true => exact hyes t'
    | false => exact hno t'

theorem Code.Follows.guard {right : Code inLoop} {c : Course} (h : right.Follows c) (isAnd : Bool)
    (cond : Value) : (Code.of (.guard isAnd cond right)).Follows (.guard isAnd c) := by
  intro t
  refine Code.runs_of ?_
  cases isAnd with
  | true =>
    refine decided_test ?_ ?_ cond t
    · exact h
    · exact fun _ => rfl
  | false =>
    refine decided_test ?_ ?_ cond t
    · exact fun _ => rfl
    · exact h

theorem Code.Follows.loop {check body update : Code true} {c b u : Course}
    (hcheck : check.Follows c) (hbody : body.Follows b) (hupdate : update.Follows u) (hc : c.Stays)
    (hu : u.Stays) (cond : Value) :
    (Code.of (.loop check cond body update) : Code inLoop).Follows (.loop c b u) := fun t =>
  Code.runs_of (Course.rounds_rounds hcheck hbody hupdate hc hu cond t)

theorem Arms.Follows.branch {arms : Arms inLoop} {c : Course} (h : arms.Follows c) :
    (Code.of (.branch arms)).Follows c := fun t => Code.runs_of (h t)

theorem Arms.follows_nil : (Arms.nil : Arms inLoop).Follows (.branch []) := fun _ => rfl

theorem Arms.follows_always {body : Code inLoop} {b : Course} (hb : body.Follows b)
    (rest : Arms inLoop) (courses : List (Option Course × Course)) :
    (Arms.always body rest).Follows (.branch ((none, b) :: courses)) := hb

theorem Arms.Follows.when {check body : Code inLoop} {rest : Arms inLoop} {c b : Course}
    {courses : List (Option Course × Course)} (hr : rest.Follows (.branch courses))
    (hc : check.Follows c) (hb : body.Follows b) (cond : Value) :
    (Arms.when check cond body rest).Follows (.branch ((some c, b) :: courses)) := by
  refine fun t => then_bind (hc t) fun t₁ => decided_test ?_ ?_ cond t₁
  · exact hb
  · exact hr

/-- The case of each value does what its course says. -/
def Cases.Follows (cases : Cases inLoop) (courses : List (Int × Course))
    (otherwise : Option Course) : Prop :=
  cases.values = courses.map Prod.fst ∧
    ∀ value t, cases.Runs tracer (cases.values.idxOf value) t
      ((Course.pick otherwise value courses).run t)

theorem Cases.follows_nil : (Cases.nil : Cases inLoop).Follows [] none := ⟨rfl, fun _ _ => rfl⟩

theorem Cases.follows_otherwise {body : Code inLoop} {b : Course} (h : body.Follows b) :
    (Cases.otherwise body).Follows [] (some b) := ⟨rfl, fun _ => h⟩

theorem Cases.Follows.case {body : Code inLoop} {rest : Cases inLoop} {b : Course}
    {courses : List (Int × Course)} {otherwise : Option Course}
    (hr : rest.Follows courses otherwise) (hb : body.Follows b) (v : Int) :
    (Cases.case v body rest).Follows ((v, b) :: courses) otherwise := by
  refine ⟨congrArg (v :: ·) hr.1, fun value t => ?_⟩
  change (Cases.case v body rest).Runs tracer ((v :: rest.values).idxOf value) t _
  rw [Course.pick, List.idxOf_cons]
  by_cases hv : v = value
  · rw [if_pos hv, hv, beq_self_eq_true]
    exact hb t
  · rw [if_neg hv, beq_eq_false_iff_ne.2 hv]
    exact hr.2 value t

theorem Cases.Follows.switch {cases : Cases inLoop} {courses : List (Int × Course)}
    {otherwise : Option Course} (h : cases.Follows courses otherwise) (value : Value)
    (type : String) :
    (Code.of (.switch value type cases)).Follows (.switch courses otherwise) := by
  intro t
  refine Code.runs_of ?_
  change Decided (do let (v, t) ← t.select; pure (cases.values.idxOf v, t)) _ _
  simp only [Course.switch]
  cases ht : t.select with
  | error calls => rfl
  | ok v => exact h.2 v.1 v.2

end Codegen.Lowering
