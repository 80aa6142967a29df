import Codegen.Proofs.Relation

/-!
# A walk that tells where its jumps are

`Watched` is the assembler `Lower` with a log.  It builds the same blocks (`erasing`), and of every
loop that it builds it tells the positions of the blocks where the parts of the loop begin and end,
and of the blocks that leave the loop or go on with its next round.  A jump belongs to the loop in
whose parts it was met, unless a loop inside of it comes first.
-/

namespace Codegen.Lowering

open Ir (Value)

/-- Where the parts of a loop lie: positions of blocks. -/
structure LoopTrace where
  /-- The block that begins the check. -/
  entry : Nat
  /-- The block that ends the check. -/
  check : Nat
  /-- The block that begins the update. -/
  next : Nat
  /-- The block that ends the update. -/
  latch : Nat
  /-- The blocks that leave the loop by a jump of its own. -/
  breaks : List Nat
  /-- The blocks that go on with the next round by a jump of the loop's own. -/
  continues : List Nat
  deriving DecidableEq

/-- What there is to tell of a walk. -/
structure Log where
  /-- The blocks that leave the loop around the walk. -/
  breaks : List Nat := []
  /-- The blocks that go on with the next round of that loop. -/
  continues : List Nat := []
  /-- The loops inside of the walk, in the order in which they end. -/
  loops : List LoopTrace := []
  deriving DecidableEq

instance : Append Log :=
  ⟨fun a b => ⟨a.breaks ++ b.breaks, a.continues ++ b.continues, a.loops ++ b.loops⟩⟩

@[simp]
theorem Log.breaks_append (a b : Log) : (a ++ b).breaks = a.breaks ++ b.breaks := rfl

@[simp]
theorem Log.continues_append (a b : Log) : (a ++ b).continues = a.continues ++ b.continues := rfl

@[simp]
theorem Log.loops_append (a b : Log) : (a ++ b).loops = a.loops ++ b.loops := rfl

theorem Log.append_nil (log : Log) : log ++ ({} : Log) = log := by
  change Log.mk (_ ++ []) (_ ++ []) (_ ++ []) = _
  simp only [List.append_nil]

theorem Log.append_assoc (a b c : Log) : a ++ b ++ c = a ++ (b ++ c) := by
  change Log.mk (_ ++ _ ++ _) (_ ++ _ ++ _) (_ ++ _ ++ _) = _
  simp only [List.append_assoc]
  rfl

/-- The loop whose parts have the log: their own jumps are those of the loop. -/
def Log.around (log : Log) (entry check next latch : Nat) : LoopTrace :=
  ⟨entry, check, next, latch, log.breaks, log.continues⟩

/-- The log of a loop, by the log of its parts. -/
def Log.closing (log : Log) (entry check next latch : Nat) : Log :=
  { loops := log.loops ++ [log.around entry check next latch] }

/-- The log of a jump that ends a block. -/
def Jump.log (kind : Jump) (block : Nat) : Log :=
  match kind with
  | out => { breaks := [block] }
  | on => { continues := [block] }

/-- A step of a walk that builds blocks, with its log. -/
def Watched (α : Type) : Type := Lower (α × Log)

namespace Watched

variable {α β : Type}

instance : Monad Watched where
  pure a s := ((a, {}), s)
  bind x f s :=
    let first := x s
    let second := f first.1.1 first.2
    ((second.1.1, first.1.2 ++ second.1.2), second.2)

/-- A step of `Lower`, with a log that the state before it gives. -/
def noting (log : State → Log) (x : Lower α) : Watched α := fun s => (((x s).1, log s), (x s).2)

/-- A step of `Lower` of which there is nothing to tell. -/
instance : MonadLift Lower Watched := ⟨noting fun _ => {}⟩

/-- The arms of a branch. -/
def arms : List (ArmWalk Watched) → Watched Unit
  | [] => pure ()
  | ⟨none, body⟩ :: rest => do
    body
    endArm
    arms rest
  | ⟨some check, body⟩ :: rest => do
    let cond ← check
    let notTaken ← beginArm cond
    body
    endArm
    elseArm rest.isEmpty notTaken
    arms rest

/-- The cases of a switch; gives the jumps behind it. -/
def cases (switch : Nat) (exits : List Pending) : List (Int × Watched Unit) → Watched (List Pending)
  | [] => pure exits
  | (value, body) :: rest => do
    beginCase switch value
    body
    let exits ← endCase exits
    cases switch exits rest

/-- The default of a switch, and what lies behind it. -/
def switchEnd (switch : Nat) (otherwise : Option (Watched Unit)) (exits : List Pending) :
    Watched Unit := do
  let default ← beginDefault switch
  match otherwise with
  | some body => do
    body
    endSwitch (← endCase exits)
  | none => patchAll exits default

/-- The number of finished blocks, which is the position of the block in progress. -/
def position : Lower Nat := do
  return (← get).blocks.length

/-- The parts of a loop one behind the other; gives the jump out of the loop, and the label and the
position of the update. -/
def parts (check : Watched Value) (body update : Watched Unit) :
    Watched (Pending × Ir.Label × Nat) :=
  show Lower ((Pending × Ir.Label × Nat) × Log) from do
    let (cond, inCheck) ← check
    let out ← beginLoopBody cond
    let (_, inBody) ← body
    let again ← beginUpdate
    let next ← position
    let (_, inUpdate) ← update
    pure ((out, again, next), inCheck ++ (inBody ++ inUpdate))

/-- A loop, which takes the jumps of its parts. -/
def looping (check : Watched Value) (body update : Watched Unit) : Watched Unit :=
  show Lower (Unit × Log) from do
    let label ← beginLoop
    let entry ← position
    let ((out, again, next), log) ← parts check body update
    let latch ← position
    endLoop label again out
    pure ((), log.closing entry out.block next latch)

instance : Assembler Watched where
  line step := noting (fun _ => {}) (Lower.line step)
  guarded isAnd cond right := do
    let past ← beginGuard isAnd cond
    right
    endGuard isAnd past
  branching walks := do
    pushExits
    arms walks
    endBranch
  switching value type walks otherwise := do
    let switch ← beginSwitch value type
    let exits ← cases switch [] walks
    switchEnd switch otherwise exits
  looping := looping
  jumping kind span := noting
    (fun s => if (kind.waiting s.toGraph).isEmpty then {} else kind.log s.blocks.length)
    (Assembler.jumping kind span)
  returning type value := leave type value

/-- A jump is noted down, or is a fault where there is no loop. -/
theorem jumping_eq (kind : Jump) (span : Span) (s : State) :
    (Assembler.jumping kind span : Watched Unit) s =
      if (kind.waiting s.toGraph).isEmpty then
        (((), {}), { s with notes := s.notes ++ { faults := [(kind.outside, span)] } })
      else
        (((), kind.log s.blocks.length), ⟨s.toNames, (kind.leave s.toGraph).2, s.notes⟩) := by
  change (((), if (kind.waiting s.toGraph).isEmpty then ({} : Log) else _),
    ((Assembler.jumping kind span : Lower Unit) s).2) = _
  rw [Lower.jumping_run]
  split <;> rfl

end Watched

/-! ## Without the log -/

/-- A walk without its log. -/
def Erases {α : Type} (w : Watched α) (x : Lower α) : Prop := ∀ s, ((w s).1.1, (w s).2) = x s

namespace Erases

variable {α β : Type}

theorem pure (a : α) : Erases (pure a) (pure a) := fun _ => rfl

theorem bind {w : Watched α} {x : Lower α} {f : α → Watched β} {g : α → Lower β} (hx : Erases w x)
    (hf : ∀ a, Erases (f a) (g a)) : Erases (w >>= f) (x >>= g) := by
  intro s
  change _ = g (x s).1 (x s).2
  rw [← hx s]
  exact hf _ _

theorem noting (log : State → Log) (x : Lower α) : Erases (Watched.noting log x) x := fun _ => rfl

theorem build (step : Build α) : Erases (liftM step) (liftM step) := fun _ => rfl

theorem guarded (isAnd : Bool) (cond : Value) {w : Watched Unit} {x : Lower Unit}
    (h : Erases w x) : Erases (Assembler.guarded isAnd cond w) (Assembler.guarded isAnd cond x) :=
  .bind (.build _) fun _ => .bind h fun _ => .build _

theorem arms {ws : List (ArmWalk Watched)} {xs : List (ArmWalk Lower)}
    (h : List.Forall₂ (ArmWalk.Related fun _ => Erases) ws xs) :
    Erases (Watched.arms ws) (Lower.arms xs) := by
  induction h with
  | nil => exact .pure ()
  | @cons w x ws xs hwx hrest ih =>
    cases hwx with
    | always hbody => exact .bind hbody fun _ => .bind (.build _) fun _ => ih
    | when hcheck hbody =>
      have last : ws.isEmpty = xs.isEmpty := by cases hrest <;> rfl
      rw [Watched.arms, Lower.arms, last]
      exact .bind hcheck fun _ => .bind (.build _) fun _ => .bind hbody fun _ =>
        .bind (.build _) fun _ => .bind (.build _) fun _ => ih

theorem branching {ws : List (ArmWalk Watched)} {xs : List (ArmWalk Lower)}
    (h : List.Forall₂ (ArmWalk.Related fun _ => Erases) ws xs) :
    Erases (Assembler.branching ws) (Assembler.branching xs) :=
  .bind (.build _) fun _ => .bind (arms h) fun _ => .build _

theorem cases (switch : Nat) (exits : List Pending) {ws : List (Int × Watched Unit)}
    {xs : List (Int × Lower Unit)}
    (h : List.Forall₂ (fun w x => w.1 = x.1 ∧ Erases w.2 x.2) ws xs) :
    Erases (Watched.cases switch exits ws) (Lower.cases switch exits xs) := by
  induction h generalizing exits with
  | nil => exact .pure exits
  | @cons w x ws xs hwx _ ih =>
    obtain ⟨value, w⟩ := w
    obtain ⟨_, x⟩ := x
    obtain ⟨rfl, hbody⟩ := hwx
    exact .bind (.build _) fun _ => .bind hbody fun _ => .bind (.build _) fun exits => ih exits

theorem switchEnd (switch : Nat) {w : Option (Watched Unit)} {x : Option (Lower Unit)}
    (h : Option.Rel Erases w x) (exits : List Pending) :
    Erases (Watched.switchEnd switch w exits) (Lower.switchEnd switch x exits) := by
  cases h with
  | none => exact .bind (.build _) fun _ => .build _
  | some hbody =>
    exact .bind (.build _) fun _ => .bind hbody fun _ => .bind (.build _) fun _ => .build _

theorem switching (value : Value) (type : String) {ws : List (Int × Watched Unit)}
    {xs : List (Int × Lower Unit)}
    (h : List.Forall₂ (fun w x => w.1 = x.1 ∧ Erases w.2 x.2) ws xs)
    {w : Option (Watched Unit)} {x : Option (Lower Unit)} (ho : Option.Rel Erases w x) :
    Erases (Assembler.switching value type ws w) (Assembler.switching value type xs x) :=
  .bind (.build _) fun switch => .bind (cases switch [] h) (switchEnd switch ho)

theorem looping {check : Watched Value} {body update : Watched Unit} {check' : Lower Value}
    {body' update' : Lower Unit} (hcheck : Erases check check') (hbody : Erases body body')
    (hupdate : Erases update update') :
    Erases (Assembler.looping check body update) (Assembler.looping check' body' update') := by
  intro s
  have walked : Assembler.looping check' body' update' s =
    let c := check' ⟨s.toNames, (beginLoop s.toGraph).2, s.notes⟩
    let tested := beginLoopBody c.1 c.2.toGraph
    let b := (body' ⟨c.2.toNames, tested.2, c.2.notes⟩).2
    let next := beginUpdate b.toGraph
    let u := (update' ⟨b.toNames, next.2, b.notes⟩).2
    ((), ⟨u.toNames, (endLoop (beginLoop s.toGraph).1 next.1 tested.1 u.toGraph).2, u.notes⟩) := rfl
  rw [walked, ← hcheck]
  dsimp only
  rw [← hbody]
  dsimp only
  rw [← hupdate]
  rfl

end Erases

/-- Without their logs, watched walks are the walks that build blocks. -/
def erasing (env : Env) : WalkRelation .stay env env.record Set.univ Watched Lower where
  Relates := Erases
  pure := .pure
  bind := .bind
  line h := h.eq_of_stay ▸ .noting _ _
  string _ _ := .noting _ _
  enclosed h := .bind (.noting _ _) fun _ => .bind h fun _ => .noting _ _
  guarded := .guarded
  branching := .branching
  switching _ _ _ _ _ h _ _ ho := by
    rw [Env.relocate_stay, Relocation.span_stay]
    exact .bind (.noting _ _) fun _ => .switching _ _ h ho
  looping := .looping
  jumping _ _ := .noting _ _
  returning _ _ := .build _

end Codegen.Lowering
