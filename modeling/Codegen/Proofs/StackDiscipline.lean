import Codegen.Proofs.Walk
import Codegen.Proofs.Factor
import Codegen.Proofs.CallOrder

/-!
# The discipline of the value stack

A walk that builds blocks looks at its blocks in one place only: a jump asks whether a loop is
around it.  So as long as it finds no fault, it does to names, values and notes what the draft of
the same walk does inside of a loop, whatever the blocks are (`Echoes`).  What walks leave on the
stack is known of drafts; here it is carried over to walks from any state.
-/

namespace Codegen.Lowering

open Ir (Value)

variable {α β : Type}

/-- What a draft says of results, names and notes. -/
def Drafted.told {κ : Type} (d : Drafted α κ) : α × Names × Notes := (d.value, d.names, d.notes)

/-- A step that ends in `r` adds to the notes, and unless it has added a fault, it gives the result,
the names and the new notes that are told. -/
def Tells (notes : Notes) (r : α × State) (told : α × Names × Notes) : Prop :=
  ∃ new, r.2.notes = notes ++ new ∧ (new.faults = [] → (r.1, r.2.toNames, new) = told)

/-- What is told of two steps in a row. -/
theorem Tells.andThen {notes : Notes} {r : α × State} {told : α × Names × Notes} {r' : β × State}
    (h : Tells notes r told) (next : α → Names → β × Names × Notes)
    (h' : Tells r.2.notes r' (next r.1 r.2.toNames)) :
    Tells notes r' ((next told.1 told.2.1).1, (next told.1 told.2.1).2.1,
      told.2.2 ++ (next told.1 told.2.1).2.2) := by
  obtain ⟨new, hnotes, htold⟩ := h
  obtain ⟨new', hnotes', htold'⟩ := h'
  refine ⟨new ++ new', by rw [hnotes', hnotes, Notes.append_assoc], fun hf => ?_⟩
  obtain ⟨hf, hf'⟩ := List.append_eq_nil_iff.1 hf
  rw [← htold hf, ← htold' hf']

/-- Nothing is noted down. -/
theorem Tells.quiet (a : α) (s : State) : Tells s.notes (a, s) (a, s.toNames, {}) :=
  ⟨{}, (Notes.append_nil _).symm, fun _ => rfl⟩

/-- What is told says nothing of a step that finds a fault. -/
theorem Tells.faulty (notes : Notes) (a : α) (n : Names) (g : Graph) (fault : Fault × Span)
    (told : α × Names × Notes) : Tells notes (a, ⟨n, g, notes ++ { faults := [fault] }⟩) told :=
  ⟨_, rfl, fun h => nomatch h⟩

/-- From any state, a walk does to names and notes what its draft does inside of a loop, unless it
finds a fault. -/
def Echoes (x : Lower α) (d : Draft α) : Prop :=
  ∀ s, Tells s.notes (x s) (d true s.toNames).told

namespace Echoes

theorem pure (a : α) : Echoes (pure a) (pure a) := fun s => .quiet a s

theorem bind {x : Lower α} {d : Draft α} {f : α → Lower β} {e : α → Draft β} (hx : Echoes x d)
    (hf : ∀ a, Echoes (f a) (e a)) : Echoes (x >>= f) (d >>= e) := fun s =>
  (hx s).andThen (fun a n => (e a true n).told) (hf (x s).1 (x s).2)

theorem line (step : Line α) : Echoes (Assembler.line step) (Assembler.line step) :=
  fun _ => ⟨_, rfl, fun _ => rfl⟩

theorem guarded (isAnd : Bool) (cond : Value) {x : Lower Unit} {d : Draft Unit} (h : Echoes x d) :
    Echoes (Assembler.guarded isAnd cond x) (Assembler.guarded isAnd cond d) := fun s =>
  h ⟨s.toNames, (beginGuard isAnd cond s.toGraph).2, s.notes⟩

theorem arms {xs : List (ArmWalk Lower)} {ds : List (ArmWalk Draft)}
    (h : List.Forall₂ (ArmWalk.Related fun _ => Echoes) xs ds) (s : State) :
    Tells s.notes (Lower.arms xs s) (Draft.arms true ds s.toNames).told := by
  induction h generalizing s with
  | nil => exact .quiet () s
  | @cons x d xs ds hxd hrest ih =>
    cases hxd with
    | @always body body' hbody =>
      let b := (body s).2
      exact (hbody s).andThen (fun _ n => (Draft.arms true ds n).told)
        (ih ⟨b.toNames, (endArm b.toGraph).2, b.notes⟩)
    | @when check check' body body' hcheck hbody =>
      let c := check s
      let tested := beginArm c.1 c.2.toGraph
      let b := (body ⟨c.2.toNames, tested.2, c.2.notes⟩).2
      have first := (hcheck s).andThen (fun _ n => (body' true n).told)
        (hbody ⟨c.2.toNames, tested.2, c.2.notes⟩)
      exact first.andThen (fun _ n => (Draft.arms true ds n).told)
        (ih ⟨b.toNames, (elseArm xs.isEmpty tested.1 (endArm b.toGraph).2).2, b.notes⟩)

theorem branching {xs : List (ArmWalk Lower)} {ds : List (ArmWalk Draft)}
    (h : List.Forall₂ (ArmWalk.Related fun _ => Echoes) xs ds) :
    Echoes (Assembler.branching xs) (Assembler.branching ds) := fun s =>
  arms h ⟨s.toNames, (pushExits s.toGraph).2, s.notes⟩

theorem cases {xs : List (Int × Lower Unit)} {ds : List (Int × Draft Unit)}
    (h : List.Forall₂ (fun x d => x.1 = d.1 ∧ Echoes x.2 d.2) xs ds)
    {x : Option (Lower Unit)} {d : Option (Draft Unit)} (ho : Option.Rel Echoes x d) (switch : Nat)
    (exits : List Pending) (s : State) :
    Tells s.notes ((Lower.cases switch exits xs >>= Lower.switchEnd switch x) s)
      (Draft.cases true d ds s.toNames).told := by
  induction h generalizing exits s with
  | nil =>
    cases ho with
    | none => exact .quiet () ⟨s.toNames, _, s.notes⟩
    | some hbody => exact hbody ⟨s.toNames, (beginDefault switch s.toGraph).2, s.notes⟩
  | @cons y e ys es hye hrest ih =>
    obtain ⟨value, body⟩ := y
    obtain ⟨_, body'⟩ := e
    obtain ⟨rfl, hbody⟩ := hye
    let b := (body ⟨s.toNames, (beginCase switch value s.toGraph).2, s.notes⟩).2
    let ended := endCase exits b.toGraph
    exact (hbody ⟨s.toNames, (beginCase switch value s.toGraph).2, s.notes⟩).andThen
      (fun _ n => (Draft.cases true d es n).told) (ih ended.1 ⟨b.toNames, ended.2, b.notes⟩)

theorem switching (value : Value) (type : String) {xs : List (Int × Lower Unit)}
    {ds : List (Int × Draft Unit)}
    (h : List.Forall₂ (fun x d => x.1 = d.1 ∧ Echoes x.2 d.2) xs ds)
    {x : Option (Lower Unit)} {d : Option (Draft Unit)} (ho : Option.Rel Echoes x d) :
    Echoes (Assembler.switching value type xs x) (Assembler.switching value type ds d) := fun s =>
  let begun := beginSwitch value type s.toGraph
  cases h ho begun.1 [] ⟨s.toNames, begun.2, s.notes⟩

theorem looping {check : Lower Value} {body update : Lower Unit} {check' : Draft Value}
    {body' update' : Draft Unit} (hcheck : Echoes check check') (hbody : Echoes body body')
    (hupdate : Echoes update update') :
    Echoes (Assembler.looping check body update) (Assembler.looping check' body' update') := by
  intro s
  let begun : State := ⟨s.toNames, (beginLoop s.toGraph).2, s.notes⟩
  let c := check begun
  let tested : State := ⟨c.2.toNames, (beginLoopBody c.1 c.2.toGraph).2, c.2.notes⟩
  let b := (body tested).2
  let updated : State := ⟨b.toNames, (beginUpdate b.toGraph).2, b.notes⟩
  have first := (hcheck begun).andThen (fun _ n => (body' true n).told) (hbody tested)
  exact first.andThen (fun _ n => (update' true n).told) (hupdate updated)

theorem jumping (kind : Jump) (span : Span) :
    Echoes (Assembler.jumping kind span) (Assembler.jumping kind span) := by
  intro s
  rw [Lower.jumping_run]
  split
  · exact .faulty s.notes () s.toNames _ _ _
  · exact .quiet () ⟨s.toNames, (kind.leave s.toGraph).2, s.notes⟩

theorem returning (type : String) (value : Option Value) :
    Echoes (Assembler.returning type value) (Assembler.returning type value) := fun s =>
  .quiet () ⟨s.toNames, (leave type value s.toGraph).2, s.notes⟩

end Echoes

/-- Walks echo their drafts, whatever they walk over. -/
def echoing (env : Env) : WalkRelation .stay env env.record Set.univ Lower Draft where
  Relates := Echoes
  pure := .pure
  bind := .bind
  line h := h.eq_of_stay ▸ .line _
  string _ _ := .line _
  enclosed h := .bind (.line _) fun _ => .bind h fun _ => .line _
  guarded := .guarded
  branching := .branching
  switching _ _ _ _ _ h _ _ ho := by
    rw [Env.relocate_stay, Relocation.span_stay]
    exact .bind (.line _) fun _ => .switching _ _ h ho
  looping := .looping
  jumping := .jumping
  returning _ := .returning _

/-! ## Stacks -/

/-- The state behind the walk over a node that builds blocks. -/
def walked (env : Env) (node : Node) (s : State) : State := ((lowerNode env node : Lower Unit) s).2

/-- Unless it finds a fault, the walk over a tree with values where values belong puts one value on
top of the stack for an expression and none for any other node, and what was on the stack before
stays as it was. -/
theorem walk_leaves_one_value_per_expression (env : Env) {node : Node} (ok : node.OperandsOk)
    (s : State) (quiet : (walked env node s).notes.faults = s.notes.faults) :
    ∃ values : List Operand, (walked env node s).stack = values ++ s.stack ∧
      values.length = if node.isExpression then 1 else 0 := by
  have echoes : Echoes (lowerNode env node) (lowerNode env node) :=
    lowerNode_related (echoing env).graded node fun x _ => Set.mem_univ x
  obtain ⟨new, hnotes, htold⟩ := echoes s
  have noFault : new.faults = [] := by
    rw [walked, hnotes] at quiet
    exact List.append_right_eq_self.1 quiet
  obtain ⟨-, hnames, rfl⟩ : _ ∧ _ ∧ _ := by
    simpa only [Drafted.told, Prod.mk.injEq] using htold noFault
  obtain ⟨-, -, -, values, hstack, left⟩ :=
    lowerNode_leaves (G := Set.univ) (K := Set.univ) env node ok.fits true s.toNames s.stack
      (Set.Subset.refl _) rfl (fun _ _ _ _ => Set.mem_univ _) noFault fun _ _ => Set.mem_univ _
  refine ⟨values, ?_, ?_⟩
  · rw [walked, hnames]
    exact hstack
  · rw [NodeLeft] at left
    split at left
    · obtain ⟨o, rfl, -⟩ := left
      rw [if_pos ‹_›, List.length_singleton]
    · rw [if_neg ‹_›, left, List.length_nil]

namespace Sample

open Codegen.Sample

def list : Ty := { name := "list", path := "m" }

/-- Calls the method `add` of `items` with what `next()` gives. -/
def addNext : Node := node <| .call i64
  [ node (.callId "items" list), node (.getField "add" i64),
    node (.callFunc i64 [invoke "next" i64 []] []) ]

/-- Loops while `more()`, and leaves the loop when `items` has got an item. -/
def addOnce : Node := node <| .loop (invoke "more" bool [])
  (node (.block [addNext, node .breakLoop])) none

/-- The symbols with a struct that has a method. -/
def listEnv : Env :=
  { env with symbols := symbols.addStruct "m" { name := "list", methods := .ofList ["add"] } }

/-- `items` is in scope, and two values are on the stack. -/
def midway : State :=
  { scopes := [[("items", "items.0")]], stack := [.lit "1" i64, .lit "2" i64] }

end Sample

theorem call_and_loop_over_two_values :
    (Sample.addNext.OperandsOk ∧
      (walked Sample.listEnv Sample.addNext Sample.midway).notes.faults =
        Sample.midway.notes.faults ∧
      ∃ value, (walked Sample.listEnv Sample.addNext Sample.midway).stack =
        value :: Sample.midway.stack) ∧
    Sample.addOnce.OperandsOk ∧
      (walked Sample.listEnv Sample.addOnce Sample.midway).notes.faults =
        Sample.midway.notes.faults ∧
      (walked Sample.listEnv Sample.addOnce Sample.midway).stack = Sample.midway.stack := by
  have callOk : Sample.addNext.OperandsOk := by decide
  have loopOk : Sample.addOnce.OperandsOk := by decide
  have callQuiet : (walked Sample.listEnv Sample.addNext Sample.midway).notes.faults =
    Sample.midway.notes.faults := by decide +kernel
  have loopQuiet : (walked Sample.listEnv Sample.addOnce Sample.midway).notes.faults =
    Sample.midway.notes.faults := by decide +kernel
  refine ⟨⟨callOk, callQuiet, ?_⟩, loopOk, loopQuiet, ?_⟩
  · obtain ⟨values, stack, one⟩ := walk_leaves_one_value_per_expression Sample.listEnv callOk
      Sample.midway callQuiet
    rw [if_pos (by decide)] at one
    obtain ⟨value, rfl⟩ := List.length_eq_one_iff.1 one
    exact ⟨value, stack⟩
  · obtain ⟨values, stack, zero⟩ := walk_leaves_one_value_per_expression Sample.listEnv loopOk
      Sample.midway loopQuiet
    rw [if_neg (by decide)] at zero
    rw [stack, List.length_eq_zero_iff.1 zero, List.nil_append]

end Codegen.Lowering
