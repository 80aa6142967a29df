import Codegen.Proofs.Placement
import Codegen.Proofs.Relation

/-!
# To build blocks is to draft code and to emit it

`Factors` says so of a walk over a part of a body: the blocks that it builds are the blocks of the
structured code that it drafts, and it gives the same names, notes and results either way.  Every
way to put walks together keeps the property, so it holds of the walk over any tree (`factoring`).
-/

namespace Codegen.Lowering

open Ir (Inst Value Label Terminator Block)

/-- The graph is inside of a loop, or outside of all of them. -/
structure Graph.InLoop (inLoop : Bool) (g : Graph) : Prop where
  breaks : g.breaks.isEmpty = !inLoop
  continues : g.continues.isEmpty = !inLoop

theorem Graph.InLoop.of_eq {inLoop : Bool} {g g' : Graph} (h : g.InLoop inLoop)
    (hb : g'.breaks = g.breaks) (hc : g'.continues = g.continues) : g'.InLoop inLoop :=
  ⟨hb ▸ h.breaks, hc ▸ h.continues⟩

theorem Graph.InLoop.extend {inLoop : Bool} {g : Graph} (h : g.InLoop inLoop) (p : Piece)
    (s : Site) : (g.extend p s).InLoop inLoop :=
  ⟨(isEmpty_modifyHead _ _).trans h.breaks, (isEmpty_modifyHead _ _).trans h.continues⟩

theorem Graph.InLoop.emit {inLoop : Bool} {g : Graph} (h : g.InLoop inLoop) (code : Code inLoop) :
    (code.emit g).2.InLoop inLoop := by
  obtain ⟨p, -, -, he⟩ := code.emit_place g
  rw [he]
  exact h.extend p _

theorem Graph.InLoop.branchOn {inLoop : Bool} {g : Graph} (h : g.InLoop inLoop) (holds : Bool)
    (cond : Value) (comment : String) : (branchOn holds cond comment g).2.InLoop inLoop := by
  rw [branchOn_eq]
  exact h.extend _ _

theorem Graph.InLoop.endArm {inLoop : Bool} {g : Graph} (h : g.InLoop inLoop) :
    (endArm g).2.InLoop inLoop := by
  rw [endArm_eq]
  exact h.extend _ _

theorem Graph.InLoop.beginUpdate {inLoop : Bool} {g : Graph} (h : g.InLoop inLoop) :
    (beginUpdate g).2.InLoop inLoop := by
  rw [beginUpdate_eq]
  exact h.extend _ _

theorem Graph.InLoop.join {inLoop : Bool} {g : Graph} (h : g.InLoop inLoop) (jumps : List Pending)
    (comment : String) : (join jumps comment g).2.InLoop inLoop := by
  cases hc : g.current with
  | none =>
    rw [join_closed hc]
    exact h.of_eq rfl rfl
  | some b =>
    rw [join_open hc]
    exact h.of_eq rfl rfl

theorem Graph.InLoop.elseArm {inLoop : Bool} {g : Graph} (h : g.InLoop inLoop) (isLast : Bool)
    (notTaken : Pending) : (elseArm isLast notTaken g).2.InLoop inLoop := by
  cases isLast with
  | true => exact h.of_eq rfl rfl
  | false => exact h.join [notTaken] "cond.false"

theorem Graph.InLoop.endCase {inLoop : Bool} {g : Graph} (h : g.InLoop inLoop)
    (exits : List Pending) : (endCase exits g).2.InLoop inLoop := by
  cases hc : g.current with
  | none =>
    rw [endCase_closed hc]
    exact h
  | some b =>
    rw [endCase_open hc]
    exact h.of_eq rfl rfl

/-- What a draft leaves behind, with its code emitted into the graph and its notes behind those
taken before. -/
def Drafted.build {α : Type} {inLoop : Bool} (d : Drafted α (Code inLoop)) (g : Graph)
    (notes : Notes) : α × State :=
  (d.value, ⟨d.names, (d.code.emit g).2, notes ++ d.notes⟩)

section Build

variable {α β : Type} {inLoop : Bool} (n : Names) (g : Graph) (notes : Notes)

theorem build_bind (d : Draft α) (e : α → Draft β) :
    ((d >>= e) inLoop n).build g notes =
      let first := d inLoop n
      (e first.value inLoop first.names).build (first.code.emit g).2 (notes ++ first.notes) := by
  change (_, State.mk _ (((d inLoop n).code ++ _).emit g).2 (notes ++ (_ ++ _))) = _
  rw [Code.emit_append, ← Notes.append_assoc]
  rfl

theorem build_line (step : Line α) :
    (Draft.line step inLoop n).build g notes = Lower.line step ⟨n, g, notes⟩ := by
  change (_, State.mk _ ((Code.line _).emit g).2 _) = _
  rw [Code.emit_line]
  rfl

theorem build_closing (step : Step inLoop) (new : Notes) :
    (Draft.closing step n new).build g notes = ((), ⟨n, (step.emit g).2, notes ++ new⟩) := rfl

end Build

/-- A walk builds the blocks of the code that it drafts. -/
def Factors {α : Type} (x : Lower α) (d : Draft α) : Prop :=
  ∀ inLoop n g notes, g.InLoop inLoop → x ⟨n, g, notes⟩ = (d inLoop n).build g notes

namespace Factors

variable {α β : Type}

theorem pure (a : α) : Factors (pure a) (pure a) := fun _ n g notes _ =>
  congrArg (fun notes => (a, State.mk n g notes)) (Notes.append_nil notes).symm

theorem bind {x : Lower α} {d : Draft α} {f : α → Lower β} {e : α → Draft β} (hx : Factors x d)
    (hf : ∀ a, Factors (f a) (e a)) : Factors (x >>= f) (d >>= e) := by
  intro inLoop n g notes hg
  change f (x ⟨n, g, notes⟩).1 (x ⟨n, g, notes⟩).2 = _
  rw [hx inLoop n g notes hg]
  exact (hf _ inLoop _ _ _ (hg.emit _)).trans (build_bind n g notes d e).symm

theorem line (step : Line α) : Factors (Assembler.line step) (Assembler.line step) :=
  fun _ n g notes _ => (build_line n g notes step).symm

theorem guarded (isAnd : Bool) (cond : Value) {x : Lower Unit} {d : Draft Unit} (h : Factors x d) :
    Factors (Assembler.guarded isAnd cond x) (Assembler.guarded isAnd cond d) := by
  intro inLoop n g notes hg
  have begun : (beginGuard isAnd cond g).2.InLoop inLoop := hg.branchOn _ _ _
  have walked : Assembler.guarded isAnd cond x ⟨n, g, notes⟩ =
    let s := (x ⟨n, (beginGuard isAnd cond g).2, notes⟩).2
    ((), ⟨s.toNames, (endGuard isAnd (beginGuard isAnd cond g).1 s.toGraph).2, s.notes⟩) := rfl
  rw [walked, h inLoop n _ notes begun]
  rfl

/-- The walks over an arm factor. -/
abbrev Arm : ArmWalk Lower → ArmWalk Draft → Prop := ArmWalk.Related fun _ => Factors

theorem arms {xs : List (ArmWalk Lower)} {ds : List (ArmWalk Draft)} (h : List.Forall₂ Arm xs ds)
    {inLoop : Bool} (n : Names) {g : Graph} (notes : Notes)
    (hg : g.InLoop inLoop) :
    Lower.arms xs ⟨n, g, notes⟩ =
      let arms := Draft.arms inLoop ds n
      ((), ⟨arms.names, (arms.code.emit g).2, notes ++ arms.notes⟩) := by
  induction h generalizing n g notes with
  | nil => exact pure () inLoop n g notes hg
  | @cons x d xs ds hxd hrest ih =>
    cases hxd with
    | @always body body' hbody =>
      have walked : Lower.arms (⟨none, body⟩ :: xs) ⟨n, g, notes⟩ =
        let s := (body ⟨n, g, notes⟩).2
        Lower.arms xs ⟨s.toNames, (endArm s.toGraph).2, s.notes⟩ := rfl
      rw [walked, hbody inLoop n g notes hg]
      dsimp only [Drafted.build]
      rw [ih _ _ (hg.emit _).endArm]
      dsimp only
      rw [Notes.append_assoc]
      rfl
    | @when check check' body body' hcheck hbody =>
      have walked : Lower.arms (⟨some check, body⟩ :: xs) ⟨n, g, notes⟩ =
        let c := check ⟨n, g, notes⟩
        let tested := beginArm c.1 c.2.toGraph
        let s := (body ⟨c.2.toNames, tested.2, c.2.notes⟩).2
        Lower.arms xs
          ⟨s.toNames, (elseArm xs.isEmpty tested.1 (endArm s.toGraph).2).2, s.notes⟩ := rfl
      have tested :=
        (hg.emit (check' inLoop n).code).branchOn true (check' inLoop n).value "cond.true"
      have last (m : Names) : xs.isEmpty = (Draft.arms inLoop ds m).code.isNil := by
        cases hrest with
        | nil => rfl
        | cons hxd _ => cases hxd <;> rfl
      rw [walked, hcheck inLoop n g notes hg]
      dsimp only [Drafted.build]
      rw [beginArm, hbody inLoop _ _ _ tested, last (body' inLoop (check' inLoop n).names).names]
      dsimp only [Drafted.build]
      rw [ih _ _ (((tested.emit _).endArm).elseArm _ _)]
      dsimp only
      rw [Notes.append_assoc, Notes.append_assoc, ← Notes.append_assoc (check' inLoop n).notes]
      rfl

theorem branching {xs : List (ArmWalk Lower)} {ds : List (ArmWalk Draft)}
    (h : List.Forall₂ Arm xs ds) : Factors (Assembler.branching xs) (Assembler.branching ds) := by
  intro inLoop n g notes hg
  have walked : Assembler.branching xs ⟨n, g, notes⟩ =
    let s := (Lower.arms xs ⟨n, (pushExits g).2, notes⟩).2
    ((), ⟨s.toNames, (endBranch s.toGraph).2, s.notes⟩) := rfl
  rw [walked, arms h n notes (hg.of_eq rfl rfl : (pushExits g).2.InLoop inLoop)]
  rfl

theorem looping {check : Lower Value} {body update : Lower Unit} {check' : Draft Value}
    {body' update' : Draft Unit} (hcheck : Factors check check') (hbody : Factors body body')
    (hupdate : Factors update update') :
    Factors (Assembler.looping check body update) (Assembler.looping check' body' update') := by
  intro inLoop n g notes hg
  have walked : Assembler.looping check body update ⟨n, g, notes⟩ =
    let c := check ⟨n, (beginLoop g).2, notes⟩
    let tested := beginLoopBody c.1 c.2.toGraph
    let b := (body ⟨c.2.toNames, tested.2, c.2.notes⟩).2
    let next := beginUpdate b.toGraph
    let s := (update ⟨b.toNames, next.2, b.notes⟩).2
    ((), ⟨s.toNames, (endLoop (beginLoop g).1 next.1 tested.1 s.toGraph).2, s.notes⟩) := rfl
  have drafted : Assembler.looping check' body' update' inLoop n =
    let c := check' true n
    let b := body' true c.names
    let u := update' true b.names
    Draft.closing (.loop c.code c.value b.code u.code) u.names
      (c.notes ++ b.notes ++ u.notes) := rfl
  have begun : (beginLoop g).2.InLoop true := by
    rw [beginLoop_eq]
    exact Graph.InLoop.extend ⟨rfl, rfl⟩ _ _
  have tested := (begun.emit (check' true n).code).branchOn true (check' true n).value "loop.body"
  rw [drafted, build_closing, walked, hcheck true n _ notes begun]
  dsimp only [Drafted.build]
  rw [beginLoopBody, hbody true _ _ _ tested]
  dsimp only [Drafted.build]
  rw [hupdate true _ _ _ (tested.emit _).beginUpdate]
  dsimp only [Drafted.build]
  rw [Notes.append_assoc, Notes.append_assoc, ← Notes.append_assoc (check' true n).notes]
  rfl

theorem cases {xs : List (Int × Lower Unit)} {ds : List (Int × Draft Unit)}
    (h : List.Forall₂ (fun x d => x.1 = d.1 ∧ Factors x.2 d.2) xs ds)
    {x : Option (Lower Unit)} {d : Option (Draft Unit)} (ho : Option.Rel Factors x d)
    (switch : Nat) {inLoop : Bool} (exits : List Pending) (n : Names) {g : Graph}
    (notes : Notes) (hg : g.InLoop inLoop) :
    (Lower.cases switch exits xs >>= Lower.switchEnd switch x) ⟨n, g, notes⟩ =
      let cases := Draft.cases inLoop d ds n
      ((), ⟨cases.names, (cases.code.emit switch exits g).2, notes ++ cases.notes⟩) := by
  induction h generalizing exits n g notes with
  | nil =>
    have begun : (beginDefault switch g).2.InLoop inLoop := hg.join _ _
    cases ho with
    | none =>
      change ((), State.mk n _ notes) = ((), State.mk n _ (notes ++ {}))
      rw [Notes.append_nil]
      rfl
    | @some body body' hbody =>
      have walked : (Lower.cases switch exits [] >>= Lower.switchEnd switch (some body))
          ⟨n, g, notes⟩ =
        let s := (body ⟨n, (beginDefault switch g).2, notes⟩).2
        let ended := endCase exits s.toGraph
        ((), ⟨s.toNames, (endSwitch ended.1 ended.2).2, s.notes⟩) := rfl
      rw [walked, hbody inLoop n _ notes begun]
      rfl
  | @cons y e ys es hye hrest ih =>
    obtain ⟨value, body⟩ := y
    obtain ⟨_, body'⟩ := e
    obtain ⟨rfl, hbody⟩ := hye
    have walked : (Lower.cases switch exits ((value, body) :: ys) >>= Lower.switchEnd switch x)
        ⟨n, g, notes⟩ =
      let s := (body ⟨n, (beginCase switch value g).2, notes⟩).2
      let ended := endCase exits s.toGraph
      (Lower.cases switch ended.1 ys >>= Lower.switchEnd switch x)
        ⟨s.toNames, ended.2, s.notes⟩ := rfl
    have begun : (beginCase switch value g).2.InLoop inLoop := (hg.join _ _).of_eq rfl rfl
    dsimp only at hbody
    rw [walked, hbody inLoop n _ notes begun]
    dsimp only [Drafted.build]
    rw [ih _ _ _ ((begun.emit _).endCase _)]
    dsimp only
    rw [Notes.append_assoc]
    rfl

theorem switching (value : Value) (type : String) {xs : List (Int × Lower Unit)}
    {ds : List (Int × Draft Unit)}
    (h : List.Forall₂ (fun x d => x.1 = d.1 ∧ Factors x.2 d.2) xs ds)
    {x : Option (Lower Unit)} {d : Option (Draft Unit)} (ho : Option.Rel Factors x d) :
    Factors (Assembler.switching value type xs x) (Assembler.switching value type ds d) := by
  intro inLoop n g notes hg
  have walked : Assembler.switching value type xs x ⟨n, g, notes⟩ =
    let begun := beginSwitch value type g
    (Lower.cases begun.1 [] xs >>= Lower.switchEnd begun.1 x) ⟨n, begun.2, notes⟩ := rfl
  have begun : (beginSwitch value type g).2.InLoop inLoop := by
    rw [beginSwitch, finishBlock_eq]
    exact hg.extend _ _
  rw [walked, cases h ho _ [] n notes begun]
  rfl

theorem jumping (kind : Jump) (span : Span) :
    Factors (Assembler.jumping kind span) (Assembler.jumping kind span) := by
  intro inLoop n g notes hg
  have waits : (kind.waiting g).isEmpty = !inLoop := by
    cases kind with
    | out => exact hg.breaks
    | on => exact hg.continues
  have step : kind.step.emit = kind.leave := by cases kind <;> rfl
  rw [Lower.jumping_run, waits]
  cases inLoop with
  | false => rfl
  | true =>
    change ((), State.mk n (kind.leave g).2 notes) = ((), State.mk n (kind.step.emit g).2 _)
    rw [step]
    exact congrArg (fun notes => ((), State.mk n _ notes)) (Notes.append_nil notes).symm

theorem returning (type : String) (value : Option Value) :
    Factors (Assembler.returning type value) (Assembler.returning type value) :=
  fun _ n _ notes _ =>
    congrArg (fun notes => ((), State.mk n _ notes)) (Notes.append_nil notes).symm

end Factors

/-- Walks factor, whatever they walk over. -/
def factoring (env : Env) : WalkRelation .stay env env.record Set.univ Lower Draft where
  Relates := Factors
  pure := .pure
  bind := .bind
  line h := h.eq_of_stay ▸ .line _
  string _ _ := .line _
  enclosed h := .bind (.line _) fun _ => .bind h fun _ => .line _
  guarded := .guarded
  branching := .branching
  switching _ _ _ _ _ h _ _ ho := by
    rw [Env.relocate_stay, Relocation.span_stay]
    exact .bind (.line _) fun _ => .switching _ _ h ho
  looping := .looping
  jumping := .jumping
  returning _ := .returning _

/-! ## Functions -/

/-- What the walk over a function drafts. -/
def draftOf (env : Env) (f : Func) (strings : List String) (debugInfo : Ir.DebugInfo) :
    Drafted Unit (Code false) :=
  (walkFunction env f : Draft Unit) false { strings, debugInfo }

/-- The final state of the walk over a function, by its draft. -/
theorem finalState_eq (env : Env) (f : Func) (strings : List String) (debugInfo : Ir.DebugInfo) :
    let d := draftOf env f strings debugInfo
    finalState env f strings debugInfo =
      ⟨d.names, (closeLast (fallback f) (d.code.emit {}).2).2, d.notes⟩ := by
  intro d
  have walked : finalState env f strings debugInfo =
    let s := ((walkFunction env f : Lower Unit) ⟨{ strings, debugInfo }, {}, {}⟩).2
    ⟨s.toNames, (closeLast (fallback f) s.toGraph).2, s.notes⟩ := rfl
  have factors : Factors (walkFunction env f) (walkFunction env f) :=
    walkFunction_related (factoring env) (fun x _ => Set.mem_univ x) (.line _) (.line _)
  rw [walked, factors false _ _ {} ⟨rfl, rfl⟩]
  rfl

theorem finalState_blocks (env : Env) (f : Func) (strings : List String)
    (debugInfo : Ir.DebugInfo) :
    (finalState env f strings debugInfo).blocks =
      (draftOf env f strings debugInfo).code.blocks (fallback f) := by
  rw [finalState_eq]
  exact closeLast_emit _ _

end Codegen.Lowering
