import Codegen.Lowering.Function

/-!
# Structured code

What a walk over a body has to say about control flow, before any block exists: instructions put
together by conjunctions, branches, switches and loops.

* `Code.emit` turns structured code into blocks by the same steps that `Lower` takes.
* `Draft` is the assembler that only writes the structured code down.  So what is true of names,
  values and faults is a statement about drafts, and what is true of blocks is a statement about
  `Code.emit`.
-/

namespace Codegen.Lowering

open Ir (Inst Value)

mutual

/-- Structured code.  The index says whether a loop is around it; only then can it leave one. -/
inductive Code : (inLoop : Bool) → Type where
  | done {inLoop : Bool} : Code inLoop
  | cons {inLoop : Bool} (step : Step inLoop) (rest : Code inLoop) : Code inLoop

/-- A step of structured code. -/
inductive Step : (inLoop : Bool) → Type where
  | inst {inLoop : Bool} (inst : Inst) : Step inLoop
  /-- The right operand of a conjunction or disjunction. -/
  | guard {inLoop : Bool} (isAnd : Bool) (cond : Value) (right : Code inLoop) : Step inLoop
  | branch {inLoop : Bool} (arms : Arms inLoop) : Step inLoop
  | switch {inLoop : Bool} (value : Value) (type : String) (cases : Cases inLoop) : Step inLoop
  | loop {inLoop : Bool} (check : Code true) (cond : Value) (body update : Code true) : Step inLoop
  | jumpOut : Step true
  | jumpOn : Step true
  | ret {inLoop : Bool} (type : String) (value : Option Value) : Step inLoop

/-- The arms of a branch. -/
inductive Arms : (inLoop : Bool) → Type where
  | nil {inLoop : Bool} : Arms inLoop
  | always {inLoop : Bool} (body : Code inLoop) (rest : Arms inLoop) : Arms inLoop
  | when {inLoop : Bool} (check : Code inLoop) (cond : Value) (body : Code inLoop)
      (rest : Arms inLoop) : Arms inLoop

/-- The cases of a switch, which end with or without a default. -/
inductive Cases : (inLoop : Bool) → Type where
  | nil {inLoop : Bool} : Cases inLoop
  | otherwise {inLoop : Bool} (body : Code inLoop) : Cases inLoop
  | case {inLoop : Bool} (value : Int) (body : Code inLoop) (rest : Cases inLoop) : Cases inLoop

end

variable {inLoop : Bool} {α β : Type}

namespace Code

/-- Code with further code behind it. -/
protected def append : Code inLoop → Code inLoop → Code inLoop
  | .done, c => c
  | .cons step rest, c => .cons step (rest.append c)

instance : Append (Code inLoop) := ⟨Code.append⟩

/-- A single step. -/
def of (step : Step inLoop) : Code inLoop := .cons step .done

/-- Instructions in order. -/
def line : List Inst → Code inLoop
  | [] => .done
  | inst :: insts => .cons (.inst inst) (line insts)

@[simp]
theorem done_append (c : Code inLoop) : .done ++ c = c := rfl

@[simp]
theorem cons_append (step : Step inLoop) (rest c : Code inLoop) :
    .cons step rest ++ c = .cons step (rest ++ c) := rfl

@[simp]
theorem append_done : (c : Code inLoop) → c ++ .done = c
  | .done => rfl
  | .cons step rest => congrArg (Code.cons step) (append_done rest)

theorem append_assoc : (a b c : Code inLoop) → a ++ b ++ c = a ++ (b ++ c)
  | .done, _, _ => rfl
  | .cons step rest, b, c => congrArg (Code.cons step) (append_assoc rest b c)

@[simp]
theorem line_nil : (line [] : Code inLoop) = .done := rfl

theorem line_append (is js : List Inst) : (line (is ++ js) : Code inLoop) = line is ++ line js := by
  induction is with
  | nil => rfl
  | cons i is ih => exact congrArg (Code.cons (.inst i)) ih

end Code

/-- Whether there are no arms. -/
def Arms.isNil : Arms inLoop → Bool
  | .nil => true
  | _ => false

mutual

/-- The blocks of structured code. -/
def Code.emit : {inLoop : Bool} → Code inLoop → Build Unit
  | _, .done => pure ()
  | _, .cons step rest => do
    step.emit
    rest.emit

/-- The blocks of a step. -/
def Step.emit : {inLoop : Bool} → Step inLoop → Build Unit
  | _, .inst inst => append inst
  | _, .guard isAnd cond right => do
    let past ← beginGuard isAnd cond
    right.emit
    endGuard isAnd past
  | _, .branch arms => do
    pushExits
    arms.emit
    endBranch
  | _, .switch value type cases => do
    let switch ← beginSwitch value type
    cases.emit switch []
  | _, .loop check cond body update => do
    let entry ← beginLoop
    check.emit
    let out ← beginLoopBody cond
    body.emit
    let next ← beginUpdate
    update.emit
    endLoop entry next out
  | _, .jumpOut => jumpOut
  | _, .jumpOn => jumpOn
  | _, .ret type value => leave type value

/-- The blocks of the arms of a branch. -/
def Arms.emit : {inLoop : Bool} → Arms inLoop → Build Unit
  | _, .nil => pure ()
  | _, .always body rest => do
    body.emit
    endArm
    rest.emit
  | _, .when check cond body rest => do
    check.emit
    let notTaken ← beginArm cond
    body.emit
    endArm
    elseArm rest.isNil notTaken
    rest.emit

/-- The blocks of the cases and the default of a switch; `exits` are the jumps behind it. -/
def Cases.emit (switch : Nat) : {inLoop : Bool} → (exits : List Pending) → Cases inLoop → Build Unit
  | _, exits, .nil => do
    let default ← beginDefault switch
    patchAll exits default
  | _, exits, .otherwise body => do
    let _ ← beginDefault switch
    body.emit
    endSwitch (← endCase exits)
  | _, exits, .case value body rest => do
    beginCase switch value
    body.emit
    let exits ← endCase exits
    rest.emit switch exits

end

theorem Code.emit_append : (a b : Code inLoop) → (g : Graph) →
    ((a ++ b).emit g).2 = (b.emit (a.emit g).2).2
  | .done, _, _ => rfl
  | .cons _ rest, b, _ => emit_append rest b _

theorem Code.emit_line (insts : List Inst) (g : Graph) :
    ((line insts : Code inLoop).emit g).2 = (appendAll insts g).2 := by
  induction insts generalizing g with
  | nil => rfl
  | cons inst insts ih => exact ih _

/-! ## Drafts -/

@[simp]
theorem Notes.slots_append (a b : Notes) : (a ++ b).slots = a.slots ++ b.slots := rfl

@[simp]
theorem Notes.faults_append (a b : Notes) : (a ++ b).faults = a.faults ++ b.faults := rfl

theorem Notes.append_nil (a : Notes) : a ++ ({} : Notes) = a :=
  congr (congrArg Notes.mk (List.append_nil _)) (List.append_nil _)

theorem Notes.append_assoc (a b c : Notes) : a ++ b ++ c = a ++ (b ++ c) := by
  change Notes.mk (_ ++ _ ++ _) (_ ++ _ ++ _) = _
  rw [List.append_assoc, List.append_assoc]
  rfl

/-- The step of structured code for a jump. -/
def Jump.step : Jump → Step true
  | out => .jumpOut
  | on => .jumpOn

/-- What a draft leaves behind: a result, the names, structured code, and notes. -/
structure Drafted (α κ : Type) where
  value : α
  names : Names
  code : κ
  notes : Notes := {}

/-- A walk that writes structured code down. -/
def Draft (α : Type) : Type := (inLoop : Bool) → Names → Drafted α (Code inLoop)

namespace Draft

instance : Monad Draft where
  pure a _ n := { value := a, names := n, code := .done }
  bind x f inLoop n :=
    let first := x inLoop n
    let second := f first.value inLoop first.names
    { value := second.value
      names := second.names
      code := first.code ++ second.code
      notes := first.notes ++ second.notes }

/-- A straight-line step. -/
def line (step : Line α) : Draft α := fun _ n =>
  { value := (step n).value
    names := (step n).names
    code := .line (step n).insts
    notes := (step n).notes }

/-- A walk that ends with a step of control flow. -/
def closing (step : Step inLoop) (n : Names) (notes : Notes) :
    Drafted Unit (Code inLoop) :=
  { value := (), names := n, code := .of step, notes }

/-- The arms of a branch. -/
def arms (inLoop : Bool) : List (ArmWalk Draft) → Names → Drafted Unit (Arms inLoop)
  | [], n => { value := (), names := n, code := .nil }
  | ⟨none, body⟩ :: rest, n =>
    let body := body inLoop n
    let rest := arms inLoop rest body.names
    { rest with code := .always body.code rest.code, notes := body.notes ++ rest.notes }
  | ⟨some check, body⟩ :: rest, n =>
    let check := check inLoop n
    let body := body inLoop check.names
    let rest := arms inLoop rest body.names
    { rest with
      code := .when check.code check.value body.code rest.code
      notes := check.notes ++ body.notes ++ rest.notes }

/-- The cases and the default of a switch. -/
def cases (inLoop : Bool) (otherwise : Option (Draft Unit)) :
    List (Int × Draft Unit) → Names → Drafted Unit (Cases inLoop)
  | [], n =>
    match otherwise with
    | none => { value := (), names := n, code := .nil }
    | some body =>
      let body := body inLoop n
      { body with code := .otherwise body.code }
  | (value, body) :: rest, n =>
    let body := body inLoop n
    let rest := cases inLoop otherwise rest body.names
    { rest with code := .case value body.code rest.code, notes := body.notes ++ rest.notes }

instance : Assembler Draft where
  line := line
  guarded isAnd cond right inLoop n :=
    let right := right inLoop n
    closing (.guard isAnd cond right.code) right.names right.notes
  branching walks inLoop n :=
    let arms := arms inLoop walks n
    closing (.branch arms.code) arms.names arms.notes
  switching value type walks otherwise inLoop n :=
    let cases := cases inLoop otherwise walks n
    closing (.switch value type cases.code) cases.names cases.notes
  looping check body update _ n :=
    let check := check true n
    let body := body true check.names
    let update := update true body.names
    closing (.loop check.code check.value body.code update.code) update.names
      (check.notes ++ body.notes ++ update.notes)
  jumping kind span
    | true, n => closing kind.step n {}
    | false, n => line (fault span kind.outside) false n
  returning type value _ n := closing (.ret type value) n {}

end Draft

end Codegen.Lowering
