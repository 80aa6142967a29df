import Codegen.Proofs.Scalar.Expressions

/-!
# Scalar statements have their effects

`lowerNode_walked`: wherever a scalar statement has an effect, its code ends the same way, with
stack slots that hold the new values of the locals.
-/

namespace Codegen.Lowering

open Ir (Frame Slot Value Inst scalarMachine)

/-! ## Outcomes -/

/-- The code ends as the tree does. -/
inductive Matches (slots : List Slot) :
    Outcome Store Result → Outcome (Option Frame) (Option Result) → Prop where
  | normal {σ : Store} {fr : Frame} (h : Mirrors slots σ fr) :
    Matches slots (.normal σ) (.normal (some fr))
  | out {σ : Store} {fr : Frame} (h : Mirrors slots σ fr) :
    Matches slots (.out σ) (.out (some fr))
  | on {σ : Store} {fr : Frame} (h : Mirrors slots σ fr) : Matches slots (.on σ) (.on (some fr))
  | ended (r : Result) : Matches slots (.ended r) (.ended (some r))

/-- Wherever an effect is defined, some code has it. -/
def Performs (slots : List Slot) (effect : Effect)
    (runs : Option Frame → Outcome (Option Frame) (Option Result) → Prop) : Prop :=
  ∀ ⦃σ : Store⦄ ⦃fr : Frame⦄ ⦃o : Outcome Store Result⦄, Mirrors slots σ fr → effect σ = some o →
    ∃ o', runs (some fr) o' ∧ Matches slots o o'

section Performs

variable {slots : List Slot} {inLoop : Bool}

/-- Code that does not get behind itself. -/
theorem Code.runs_left {σ ρ : Type} {M : Ir.Machine σ ρ} {a b : Code inLoop} {s : σ}
    {o : Outcome σ ρ} (h : a.Runs M s o) (ho : ∀ s, o ≠ .normal s) : (a ++ b).Runs M s o := by
  rw [Code.runs_append]
  cases o with
  | normal s => exact absurd rfl (ho s)
  | _ => exact .inl h

theorem performs_done : Performs slots (fun σ => some (.normal σ))
    ((.done : Code inLoop).Runs scalarMachine) := by
  rintro σ fr o hm ⟨⟩
  exact ⟨_, rfl, .normal hm⟩

theorem Performs.append {first second : Effect} {a b : Code inLoop}
    (ha : Performs slots first (a.Runs scalarMachine))
    (hb : Performs slots second (b.Runs scalarMachine)) :
    Performs slots (first.andThen second) ((a ++ b).Runs scalarMachine) := by
  intro σ fr o hm ho
  cases hfirst : first σ with
  | none =>
    rw [Effect.andThen, hfirst] at ho
    cases ho
  | some o₁ =>
    obtain ⟨o', hruns, hmatch⟩ := ha hm hfirst
    rw [Effect.andThen, hfirst] at ho
    cases hmatch with
    | normal hm₁ =>
      obtain ⟨o₂, hruns₂, hmatch₂⟩ := hb hm₁ ho
      exact ⟨o₂, Code.runs_then hruns hruns₂, hmatch₂⟩
    | out hm₁ =>
      cases ho
      exact ⟨_, Code.runs_left hruns nofun, .out hm₁⟩
    | on hm₁ =>
      cases ho
      exact ⟨_, Code.runs_left hruns nofun, .on hm₁⟩
    | ended r =>
      cases ho
      exact ⟨_, Code.runs_left hruns nofun, .ended r⟩

/-- Code that goes on with the value of an expression. -/
theorem Pushes.performs {s : Scalar} {value : Store → Option Datum} {n : Names}
    {d : Drafted Unit (Code inLoop)} {operand : Operand} (h : Pushes slots s value n d operand)
    {effect : Effect} {rest : Code inLoop}
    (hrest : ∀ {σ : Store} {o : Outcome Store Result}, effect σ = some o → ∃ v, value σ = some v ∧
      ∀ {fr : Frame}, Mirrors slots σ fr → fr.read s.printed operand.value = some v →
        ∃ o', rest.Runs scalarMachine (some fr) o' ∧ Matches slots o o') :
    Performs slots effect ((d.code ++ rest).Runs scalarMachine) := by
  intro σ fr o hm ho
  obtain ⟨v, hv, hrest⟩ := hrest ho
  obtain ⟨fr₁, hruns, hkeeps, hread⟩ := h.runs hm hv
  obtain ⟨o', hruns', hmatch⟩ := hrest (hm.keeps hkeeps) hread
  exact ⟨o', Code.runs_then hruns hruns', hmatch⟩

/-! ## Arms and loops -/

/-- Code that finds out how a test comes out. -/
def Checks (slots : List Slot) (test : Store → Option Bool) (check : Code inLoop) (cond : Value) :
    Prop :=
  ∀ ⦃σ : Store⦄ ⦃fr : Frame⦄ ⦃b : Bool⦄, Mirrors slots σ fr → test σ = some b →
    ∃ fr', check.Runs scalarMachine (some fr) (.normal (some fr')) ∧ Mirrors slots σ fr' ∧
      scalarMachine.test cond (some fr') = .ok (b, some fr')

theorem Arms.runs_when {σ ρ : Type} {M : Ir.Machine σ ρ} {check body : Code inLoop} {cond : Value}
    {rest : Arms inLoop} {s s₁ s₂ : σ} {b : Bool} {o : Outcome σ ρ}
    (hc : check.Runs M s (.normal s₁)) (ht : M.test cond s₁ = .ok (b, s₂))
    (h : if b then body.Runs M s₂ o else rest.Runs M s₂ o) :
    (Arms.when check cond body rest).Runs M s o := by
  refine then_of_normal hc ?_
  rw [ht]
  exact h

/-- An arm with a condition, in front of other arms. -/
theorem performs_when {check body : Code inLoop} {cond : Value} {rest : Arms inLoop}
    {test : Store → Option Bool} {bodyEffect restEffect : Effect}
    (hcheck : Checks slots test check cond)
    (hbody : Performs slots bodyEffect (body.Runs scalarMachine))
    (hrest : Performs slots restEffect (rest.Runs scalarMachine)) :
    Performs slots (fun σ =>
      match test σ with
      | none => none
      | some true => bodyEffect σ
      | some false => restEffect σ) ((Arms.when check cond body rest).Runs scalarMachine) := by
  intro σ fr o hm ho
  dsimp only at ho
  split at ho
  · cases ho
  · next htest =>
    obtain ⟨fr₁, hruns, hm₁, tested⟩ := hcheck hm htest
    obtain ⟨o', hbody, hmatch⟩ := hbody hm₁ ho
    exact ⟨o', Arms.runs_when hruns tested hbody, hmatch⟩
  · next htest =>
    obtain ⟨fr₁, hruns, hm₁, tested⟩ := hcheck hm htest
    obtain ⟨o', hrest, hmatch⟩ := hrest hm₁ ho
    exact ⟨o', Arms.runs_when hruns tested hrest, hmatch⟩

/-- Behind the body of a round come the update and the other rounds. -/
theorem rounds_behind_body {check body update : Code true} {cond : Value}
    {updateEffect rest : Effect} {fr fr₁ fr₂ : Frame} {σ : Store} {o : Outcome Store Result}
    (hcheck : check.Runs scalarMachine (some fr) (.normal (some fr₁)))
    (tested : scalarMachine.test cond (some fr₁) = .ok (true, some fr₁))
    (hb : body.Runs scalarMachine (some fr₁) (.normal (some fr₂)) ∨
      body.Runs scalarMachine (some fr₁) (.on (some fr₂)))
    (hm : Mirrors slots σ fr₂)
    (hupdate : Performs slots updateEffect (update.Runs scalarMachine))
    (hrest : Performs slots rest (Rounds scalarMachine (check.Runs scalarMachine) cond
      (body.Runs scalarMachine) (update.Runs scalarMachine)))
    (ho : (match updateEffect σ with
      | some (.normal σ) => rest σ
      | some (.ended r) => some (.ended r)
      | _ => none) = some o) :
    ∃ o', Rounds scalarMachine (check.Runs scalarMachine) cond (body.Runs scalarMachine)
      (update.Runs scalarMachine) (some fr) o' ∧ Matches slots o o' := by
  cases hu : updateEffect σ with
  | none =>
    rw [hu] at ho
    cases ho
  | some o₃ =>
    obtain ⟨o', hruns, hmatch⟩ := hupdate hm hu
    rw [hu] at ho
    cases hmatch with
    | normal hm₃ =>
      obtain ⟨o', hrounds, hmatch⟩ := hrest hm₃ ho
      exact ⟨o', .round hcheck tested hb hruns hrounds, hmatch⟩
    | ended r =>
      cases ho
      exact ⟨_, .updateOver hcheck tested hb hruns, .ended r⟩
    | out => cases ho
    | on => cases ho

/-- The rounds of a loop. -/
theorem performs_rounds {check body update : Code true} {cond : Value} {test : Store → Option Bool}
    {bodyEffect updateEffect : Effect} (hcheck : Checks slots test check cond)
    (hbody : Performs slots bodyEffect (body.Runs scalarMachine))
    (hupdate : Performs slots updateEffect (update.Runs scalarMachine)) (fuel : Nat) :
    Performs slots (.rounds test bodyEffect updateEffect fuel)
      (Rounds scalarMachine (check.Runs scalarMachine) cond (body.Runs scalarMachine)
        (update.Runs scalarMachine)) := by
  induction fuel with
  | zero =>
    intro σ fr o hm ho
    cases ho
  | succ fuel ih =>
    intro σ fr o hm ho
    rw [Effect.rounds] at ho
    cases htest : test σ with
    | none =>
      rw [htest] at ho
      cases ho
    | some b =>
      obtain ⟨fr₁, hcheck, hm₁, tested⟩ := hcheck hm htest
      rw [htest] at ho
      cases b with
      | false =>
        cases ho
        exact ⟨_, .done hcheck tested, .normal hm₁⟩
      | true =>
        cases hb : bodyEffect σ with
        | none =>
          simp only [hb] at ho
          cases ho
        | some o₂ =>
          obtain ⟨o', hruns, hmatch⟩ := hbody hm₁ hb
          simp only [hb] at ho
          cases hmatch with
          | normal hm₂ => exact rounds_behind_body hcheck tested (.inl hruns) hm₂ hupdate ih ho
          | on hm₂ => exact rounds_behind_body hcheck tested (.inr hruns) hm₂ hupdate ih ho
          | out hm₂ =>
            cases ho
            exact ⟨_, .left hcheck tested hruns, .normal hm₂⟩
          | ended r =>
            cases ho
            exact ⟨_, .bodyOver hcheck tested hruns, .ended r⟩

/-- The run of the first case with a value, or of the default. -/
def Cases.Picked (w : BitVec 64) (cases : Cases inLoop) :
    Option Frame → Outcome (Option Frame) (Option Result) → Prop :=
  cases.Runs scalarMachine (cases.values.findIdx fun value => BitVec.ofInt 64 value = w)

theorem Step.runs_switch {value : Value} {cases : Cases inLoop} {fr : Frame} {w : BitVec 64}
    {type : String} {o : Outcome (Option Frame) (Option Result)}
    (hread : fr.read type value = some (.word w)) (h : cases.Picked w (some fr) o) :
    (Step.switch value type cases).Runs scalarMachine (some fr) o := by
  have picks : scalarMachine.pick value type cases.values (some fr) =
      .ok (cases.values.findIdx fun value => BitVec.ofInt 64 value = w, some fr) := by
    simp [scalarMachine, hread]
  rw [Step.Runs, picks]
  exact h

/-- A case in front of other cases. -/
theorem performs_case {w : BitVec 64} {value : Int} {body : Code inLoop} {rest : Cases inLoop}
    {bodyEffect restEffect : Effect} (hbody : Performs slots bodyEffect (body.Runs scalarMachine))
    (hrest : Performs slots restEffect (rest.Picked w)) :
    Performs slots (if BitVec.ofInt 64 value = w then bodyEffect else restEffect)
      ((Cases.case value body rest).Picked w) := by
  by_cases hv : BitVec.ofInt 64 value = w
  · have first : (Cases.case value body rest).Picked w = body.Runs scalarMachine := by
      funext s o
      simp [Cases.Picked, Cases.values, List.findIdx_cons, hv, Cases.Runs]
    rw [if_pos hv, first]
    exact hbody
  · have later : (Cases.case value body rest).Picked w = rest.Picked w := by
      funext s o
      simp [Cases.Picked, Cases.values, List.findIdx_cons, hv, Cases.Runs]
    rw [if_neg hv, later]
    exact hrest

/-! ## Definitions and assignments -/

variable (env : Env) {Γ : Scope} {n : Names} {s : Scalar} {fuel : Nat}

/-- What the walk over a statement leaves behind: it sees the scope behind the statement, and its
code has the effect of the statement. -/
structure Walked {κ : Type} (slots : List Slot) (Γ : Scope) (effect : Effect)
    (runs : κ → Option Frame → Outcome (Option Frame) (Option Result) → Prop)
    (d : Drafted Unit κ) : Prop where
  tracks : Tracks slots Γ d.names
  performs : Performs slots effect (runs d.code)

theorem Walked.dropping {effect : Effect} {x : Draft Unit}
    (h : Walked slots Γ effect (Code.Runs scalarMachine) (x inLoop n)) :
    Walked slots Γ effect (Code.Runs scalarMachine) (Lowering.dropping x inLoop n) := by
  rw [dropping_eq]
  exact ⟨h.tracks.of_eq rfl rfl, h.performs⟩

theorem Walked.bind {Γ' : Scope} {first second : Effect} {x : Draft Unit} {f : Unit → Draft Unit}
    (hx : Walked slots Γ first (Code.Runs scalarMachine) (x inLoop n))
    (hf : Walked slots Γ' second (Code.Runs scalarMachine) (f () inLoop (x inLoop n).names)) :
    Walked slots Γ' (first.andThen second) (Code.Runs scalarMachine) ((x >>= f) inLoop n) :=
  ⟨hf.tracks, hx.performs.append hf.performs⟩

/-- A store into the slot of a visible local. -/
theorem Mirrors.store {σ : Store} {fr : Frame} {cell : Cell} {source : Value} {d : Datum}
    (hm : Mirrors slots σ fr) (ha : fr.address? (.var cell.slot) = some cell.slot)
    (hd : fr.read s.printed source = some d) :
    ∃ fr', scalarMachine.line [.store s.printed source (.var cell.slot)] (some fr) = some fr' ∧
      Mirrors slots (σ.set cell d) fr' :=
  ⟨_, line_cons (Frame.step_store hd ha), hm.put cell d⟩

theorem walked_define {name : String} {init : Node} {span : Span} (hinit : init.Typed s)
    (ht : Tracks slots Γ n)
    (hl : ((lowerKind env span (.define name s.ty init) : Draft Unit) inLoop n).notes.Listed
      slots) :
    Walked slots (Γ.defining name) (NodeKind.effect fuel Γ (.define name s.ty init))
      (Code.Runs scalarMachine)
      ((lowerKind env span (.define name s.ty init) : Draft Unit) inLoop n) := by
  let cell := Cell.defined name n.nextLocal
  let m : Names := { n with nextLocal := n.nextLocal + 1 }
  have walked : (lowerKind env span (.define name s.ty init) : Draft Unit) inLoop n =
    let e := (lowerOperand env .value init >>= fun _ =>
      Assembler.line (pop init.span) >>= fun value =>
      Assembler.line (endDefine env name s.ty cell.slot value) : Draft Unit) inLoop m
    ⟨e.value, e.names, e.code, { slots := [⟨cell.slot, env.map s.ty.notArray⟩] } ++ e.notes⟩ := by
    have mode : modeOf s.ty.isReference = .value := by cases s <;> rfl
    rw [lowerKind, mode]
    generalize (lowerOperand env .value init : Draft Unit) = operand
    rfl
  rw [walked] at hl ⊢
  obtain ⟨hslot, he⟩ := hl.append
  obtain ⟨o, ho⟩ := lowerOperand_pushes (n := m) env hinit (ht.toSees.of_scopes rfl) he.bind.1
  rw [ho.bind_pop]
  have listed : ⟨cell.slot, env.map s.ty.notArray⟩ ∈ slots := hslot.slots _ List.mem_cons_self
  have number : cell = .defined name Γ.next := congrArg (Cell.defined name) ht.next
  refine ⟨?_, ho.performs fun {σ _} heffect => ?_⟩
  · have bound : Tracks slots (Γ.bound name cell) _ := ht.bound ⟨_, listed, rfl⟩
    rw [number] at bound ⊢
    exact ⟨⟨bound.scopes, bound.kept⟩, congrArg Nat.succ ht.next⟩
  · obtain ⟨d, hd, heffect⟩ := Option.bind_eq_some_iff.1 heffect
    cases heffect
    refine ⟨d, hd, fun {fr} hm hread => ?_⟩
    have address : fr.address? (.var cell.slot) = some cell.slot :=
      hm.address? listed (.cell cell)
    obtain ⟨fr', hline, hm'⟩ := hm.store address hread
    rw [number] at hm'
    have printed : env.map s.ty.notArray = s.printed := env.map_ty s
    rw [← printed] at hline
    exact ⟨_, Code.runs_insts hline, .normal hm'⟩

/-- What an assignment stores. -/
theorem AssignOp.exists_of_effect {op : AssignOp} {cell : Cell} {d : Datum} {σ : Store}
    {o : Outcome Store Result} (h : op.effect s cell d σ = some o) :
    ∃ r, o = .normal (σ.set cell r) ∧ (op.operator? = none ∧ r = d ∨
      ∃ operator e, op.operator? = some operator ∧ σ.read s cell = some e ∧
        operator.apply s e d = some r) := by
  unfold AssignOp.effect at h
  cases hop : op.operator? with
  | none =>
    simp only [hop] at h
    cases h
    exact ⟨d, rfl, .inl ⟨rfl, rfl⟩⟩
  | some operator =>
    simp only [hop] at h
    obtain ⟨e, he, h⟩ := Option.bind_eq_some_iff.1 h
    obtain ⟨r, hr, h⟩ := Option.bind_eq_some_iff.1 h
    cases h
    exact ⟨r, rfl, .inr ⟨operator, e, rfl, he, hr⟩⟩

/-- The operation of a compound assignment is that of its operator. -/
theorem operation_of_compound {op : AssignOp} {op' : Ir.BinOp} (h : compound? op = some op') :
    ∃ operator, op.operator? = some operator ∧ operation operator = .arithmetic op' := by
  cases op <;> cases h <;> exact ⟨_, rfl, rfl⟩

theorem operator_of_compound {op : AssignOp} (h : compound? op = none) : op.operator? = none := by
  cases op <;> first | rfl | cases h

/-- A compound assignment to a local. -/
theorem runs_assignCompound {σ : Store} {fr : Frame} {cell : Cell} {k : Nat} {op : BinaryOp}
    {op' : Ir.BinOp} {source : Value} {d e r : Datum} (hm : Mirrors slots σ fr)
    (ha : fr.address? (.var cell.slot) = some cell.slot)
    (hold : ∀ j, k ≤ j → source ≠ .var (Origin.temp j).name)
    (hd : fr.read s.printed source = some d) (he : σ.read s cell = some e)
    (hop : operation op = .arithmetic op') (hr : op.apply s e d = some r) :
    ∃ fr', scalarMachine.line
        [.load s.printed (.var cell.slot) (.var (Origin.temp k).name),
          .binary op' (.var (Origin.temp (k + 1)).name) (.var (Origin.temp k).name) source true
            s.isSigned s.printed,
          .store s.printed (.var (Origin.temp (k + 1)).name) (.var cell.slot)] (some fr) =
        some fr' ∧ Mirrors slots (σ.set cell r) fr' := by
  obtain ⟨hvalue, hhas⟩ := Option.filter_eq_some_iff.1 he
  let fr₁ := fr.define (Origin.temp k).name (.datum e)
  let fr₂ := fr₁.define (Origin.temp (k + 1)).name (.datum r)
  have kept₁ : Keeps k fr fr₁ := .define (Nat.le_refl k) fr _
  have kept₂ : Keeps k fr fr₂ := kept₁.trans (.define (Nat.le_succ k) fr₁ _) (Nat.le_refl k)
  have loaded : fr.step (.load s.printed (.var cell.slot) (.var (Origin.temp k).name)) =
      some fr₁ := by
    refine Frame.step_load ha ?_
    rw [hm.values cell e hvalue]
    simp [s.hasType_printed, hhas]
  have computed : fr₁.step (.binary op' (.var (Origin.temp (k + 1)).name)
      (.var (Origin.temp k).name) source true s.isSigned s.printed) = some fr₂ :=
    Frame.step_binary hop (read_define hhas) ((kept₁.read hold _).trans hd) hr
  have address : fr₂.address? (.var cell.slot) = some cell.slot := by
    have same := kept₂.names cell.slot fun j _ => (SlotName.cell cell).ne_temp j
    rw [Frame.address?, same]
    exact ha
  have hhas' : s.has r = true := by
    rw [← op.gives_of_arithmetic hop s]
    exact op.has_apply hr hhas
  obtain ⟨fr', hline, hm'⟩ := (hm.keeps kept₂).store address (read_define hhas')
  exact ⟨fr', (line_cons loaded).trans ((line_cons computed).trans hline), hm'⟩

/-- An assignment to the slot of a scalar. -/
theorem assign_eq {value : Operand} (hv : value.type = s.ty) (op : AssignOp) (slot : String)
    (span : Span) (m : Names) :
    assign env op (.var slot s.ty.pointer) value span m =
      match compound? op with
      | none => ⟨(), m, [.store s.printed value.value (.var slot)], {}⟩
      | some op' =>
        let old := (Origin.temp m.nextTemp).name
        let new := (Origin.temp (m.nextTemp + 1)).name
        ⟨(), { m with nextTemp := m.nextTemp + 2 },
          [.load s.printed (.var slot) (.var old),
            .binary op' (.var new) (.var old) value.value true s.isSigned s.printed,
            .store s.printed (.var new) (.var slot)], {}⟩ := by
  obtain ⟨kind, content, type⟩ := value
  obtain rfl : type = s.ty := hv
  unfold assign
  cases compound? op with
  | none => cases s <;> rfl
  | some op' => cases s <;> rfl

/-- A walk that only changes the names. -/
theorem Draft.bind_of_eq {α β : Type} {x : Draft α} {f : α → Draft β} {a : α} {m : Names}
    (h : x inLoop n = ⟨a, m, .done, {}⟩) : (x >>= f) inLoop n = f a inLoop m := by
  have walked : (x >>= f) inLoop n =
    let d := x inLoop n
    let e := f d.value inLoop d.names
    ⟨e.value, e.names, d.code ++ e.code, d.notes ++ e.notes⟩ := rfl
  rw [walked, h]
  rfl

theorem walked_assign {op : AssignOp} {name : String} {value : Node}
    {span leftSpan headSpan : Span} (hvalue : value.Typed s) (ht : Tracks slots Γ n)
    (hl : ((lowerKind env span (.assign op (.mk (.call s.ty [.mk (.callId name s.ty) headSpan])
      leftSpan) value) : Draft Unit) inLoop n).notes.Listed slots) :
    Walked slots Γ (NodeKind.effect fuel Γ (.assign op (.mk (.call s.ty
      [.mk (.callId name s.ty) headSpan]) leftSpan) value)) (Code.Runs scalarMachine)
      ((lowerKind env span (.assign op (.mk (.call s.ty [.mk (.callId name s.ty) headSpan])
        leftSpan) value) : Draft Unit) inLoop n) := by
  obtain ⟨slot, hfind, head⟩ : ∃ slot, n.scopes.findSome? (List.lookup name) = some slot ∧
      (lowerChain env .address leftSpan s.ty [.mk (.callId name s.ty) headSpan] : Draft Unit)
        inLoop n = ⟨(), { n with stack := .var slot s.ty.pointer :: n.stack }, .done, {}⟩ := by
    rw [lowerKind] at hl
    exact lowerChain_callId env hl.bind.1.faults
  have walked : (lowerKind env span (.assign op (.mk (.call s.ty
      [.mk (.callId name s.ty) headSpan]) leftSpan) value) : Draft Unit) inLoop n =
    (lowerNode env value >>= fun _ => Assembler.line (pop value.span) >>= fun v =>
      Assembler.line (assign env op (.var slot s.ty.pointer) v span) : Draft Unit) inLoop n := by
    rw [lowerKind]
    generalize (lowerNode env value : Draft Unit) = right
    exact Draft.bind_of_eq head
  rw [walked] at hl ⊢
  obtain ⟨o, ho⟩ := lowerNode_pushes env hvalue ht.toSees hl.bind.1
  rw [ho.bind_pop]
  have found {cell : Cell} (hc : Γ.find? name = some cell) : slot = cell.slot :=
    Option.some.inj (hfind.symm.trans (ht.find hc).1)
  have assigned (m : Names) : (Assembler.line (assign env op (.var slot s.ty.pointer) o span) :
      Draft Unit) inLoop m =
    let d := assign env op (.var slot s.ty.pointer) o span m
    ⟨d.value, d.names, .line d.insts, d.notes⟩ := rfl
  dsimp only
  rw [assigned, assign_eq env ho.type]
  refine ⟨ht.of_eq ?_ ?_, ho.performs fun {σ _} heffect => ?_⟩
  · cases compound? op <;> rfl
  · cases compound? op <;> rfl
  · obtain ⟨s', hs', heffect⟩ := Option.bind_eq_some_iff.1 heffect
    obtain rfl := Option.some.inj (hvalue.scalar?_eq.symm.trans hs')
    obtain ⟨cell, hcell, heffect⟩ := Option.bind_eq_some_iff.1 heffect
    obtain ⟨d, hd, heffect⟩ := Option.bind_eq_some_iff.1 heffect
    obtain ⟨r, rfl, hr⟩ := AssignOp.exists_of_effect heffect
    refine ⟨d, hd, fun {fr} hm hread => ?_⟩
    have address := hm.address_of_find ht.toSees hcell
    obtain rfl := found hcell
    cases hcompound : compound? op with
    | none =>
      have plain := operator_of_compound hcompound
      rcases hr with ⟨-, rfl⟩ | ⟨operator, e, hop, -⟩
      · obtain ⟨fr', hline, hm'⟩ := hm.store address hread
        exact ⟨_, Code.runs_insts hline, .normal hm'⟩
      · cases plain.symm.trans hop
    | some op' =>
      obtain ⟨operator, hoperator, hop'⟩ := operation_of_compound hcompound
      rcases hr with ⟨hop, -⟩ | ⟨_, e, hop, he, hr⟩
      · cases hoperator.symm.trans hop
      · obtain rfl := Option.some.inj (hoperator.symm.trans hop)
        obtain ⟨fr', hline, hm'⟩ := runs_assignCompound hm address ho.old hread he hop' hr
        exact ⟨_, Code.runs_insts hline, .normal hm'⟩

/-! ## Returns and expressions -/

theorem walked_return {value : Node} {span : Span} (hvalue : value.Typed s) (ht : Tracks slots Γ n)
    (hl : ((lowerKind env span (.ret (some value) false) : Draft Unit) inLoop n).notes.Listed
      slots) :
    Walked slots Γ (NodeKind.effect fuel Γ (.ret (some value) false)) (Code.Runs scalarMachine)
      ((lowerKind env span (.ret (some value) false) : Draft Unit) inLoop n) := by
  obtain ⟨o, ho⟩ : ∃ o, Pushes slots s (Node.value Γ · value) n
      ((lowerOperand env .value value : Draft Unit) inLoop n) o := by
    rw [lowerKind] at hl
    exact lowerOperand_pushes env hvalue ht.toSees hl.bind.1
  have given : returned env o = (s.printed, some o.value) := by
    have notVoid : s.ty.isVoid = false := by cases s <;> rfl
    simp [returned, ho.type, notVoid, env.map_ty]
  have walked : (lowerKind env span (.ret (some value) false) : Draft Unit) inLoop n =
    let d := (lowerOperand env .value value : Draft Unit) inLoop n
    ⟨(), { n with nextTemp := d.names.nextTemp }, d.code ++ .of (.ret s.printed (some o.value)),
      d.notes ++ {}⟩ := by
    rw [lowerKind]
    refine (ho.bind_pop span fun result =>
      Assembler.returning (returned env result).1 (returned env result).2).trans ?_
    rw [given]
    rfl
  rw [walked]
  refine ⟨ht.of_eq rfl rfl, ho.performs fun {σ _} heffect => ?_⟩
  obtain ⟨d, hd, heffect⟩ := Option.bind_eq_some_iff.1 heffect
  cases heffect
  refine ⟨d, hd, fun {fr} hm hread => ⟨_, Code.runs_of rfl, ?_⟩⟩
  have result : scalarMachine.ret s.printed (some o.value) (some fr) = some (.value d) := by
    change (fr.read s.printed o.value).map Result.value = _
    rw [hread]
    rfl
  rw [result]
  exact .ended _

/-- An expression whose value nobody takes. -/
theorem walked_expression {kind : NodeKind} {span : Span} (h : Node.Typed (.mk kind span) s)
    (ht : Tracks slots Γ n)
    (hl : ((lowerNode env (.mk kind span) : Draft Unit) inLoop n).notes.Listed slots) :
    Walked slots Γ (fun σ => do
      let _ ← kind.value Γ σ
      some (.normal σ)) (Code.Runs scalarMachine)
      ((lowerNode env (.mk kind span) : Draft Unit) inLoop n) := by
  obtain ⟨o, ho⟩ := lowerNode_pushes env h ht.toSees hl
  refine ⟨ht.of_eq (by rw [ho.names]) (by rw [ho.names]), ?_⟩
  rw [← Code.append_done ((lowerNode env (.mk kind span) : Draft Unit) inLoop n).code]
  refine ho.performs fun {σ _} heffect => ?_
  obtain ⟨v, hv, heffect⟩ := Option.bind_eq_some_iff.1 heffect
  cases heffect
  exact ⟨v, hv, fun hm _ => ⟨_, rfl, .normal hm⟩⟩

/-- The condition of an arm or of a loop. -/
theorem checks_condition {condition : Node} (hc : condition.Typed .bool) (hs : Sees slots Γ n)
    (hl : ((lowerCondition env condition : Draft Value) inLoop n).notes.Listed slots) :
    let d := (lowerCondition env condition : Draft Value) inLoop n
    (d.names.scopes = n.scopes ∧ d.names.nextLocal = n.nextLocal) ∧
      Checks slots (condition.test Γ) d.code d.value := by
  obtain ⟨o, ho⟩ : ∃ o, Pushes slots .bool (Node.value Γ · condition) n
      ((lowerNode env condition : Draft Unit) inLoop n) o := by
    obtain ⟨kind, span⟩ := condition
    rw [lowerCondition] at hl
    refine lowerNode_pushes env hc hs ?_
    rw [lowerNode]
    exact hl.bind.1
  intro d
  have walked := lowerCondition_eq env ho
  refine ⟨?_, fun σ fr b hm htest => ?_⟩
  · simp only [d, walked, and_self]
  · have value : condition.value Γ σ = some (.bit b) := by
      dsimp only [Node.test] at htest
      split at htest
      · cases htest
        assumption
      · cases htest
    obtain ⟨fr', hruns, hkeeps, hread⟩ := ho.runs hm value
    simp only [d, walked]
    exact ⟨fr', hruns, hm.keeps hkeeps, test_of_read hread⟩

/-- What an expression is as a statement. -/
theorem expression_eq {kind : NodeKind} (h : kind.isExpression = true) (fuel : Nat) (Γ : Scope) :
    kind.isScalar = kind.scalar?.isSome ∧ kind.past Γ = Γ ∧
      kind.effect fuel Γ = (fun σ => do
        let _ ← kind.value Γ σ
        some (.normal σ)) := by
  cases kind <;> first | exact ⟨rfl, rfl, rfl⟩ | cases h

/-- A switch on an integer does not select by the tag of a union. -/
theorem switchesOnUnion_of_typed {node : Node} (h : node.Typed s) :
    switchesOnUnion env node.kind = false := by
  have basic (s : Scalar) : env.symbols.kindOf s.ty = .basic := by
    cases s <;> exact if_pos rfl
  cases h <;> simp [switchesOnUnion, Node.kind, NodeKind.type?, basic]

end Performs

/-! ## Trees -/

section Trees

variable {slots : List Slot} (env : Env) (fuel : Nat)

mutual

/-- The walk over a scalar statement leaves code with its effect. -/
theorem lowerNode_walked : (node : Node) → {Γ : Scope} → {n : Names} → {inLoop : Bool} →
    node.isScalar = true → Tracks slots Γ n →
    ((lowerNode env node : Draft Unit) inLoop n).notes.Listed slots →
    Walked slots (node.past Γ) (node.effect fuel Γ) (Code.Runs scalarMachine)
      ((lowerNode env node : Draft Unit) inLoop n)
  | .mk kind span, Γ, n, inLoop, h, ht, hl => by
    by_cases he : kind.isExpression = true
    · obtain ⟨hscalar, hpast, heffect⟩ := expression_eq he fuel Γ
      obtain ⟨s, hs⟩ := Option.isSome_iff_exists.1 (hscalar.symm.trans h)
      rw [Node.past, Node.effect, hpast, heffect]
      exact walked_expression env (Node.typed_of_scalar? (.mk kind span) hs) ht hl
    · have balance := (balanced_eq hl.faults).2
      rw [lowerNode, balance] at hl ⊢
      exact lowerKind_walked span kind (by simpa using he) h ht hl

theorem lowerKind_walked (span : Span) : (kind : NodeKind) → {Γ : Scope} → {n : Names} →
    {inLoop : Bool} → kind.isExpression = false → kind.isScalar = true → Tracks slots Γ n →
    ((lowerKind env span kind : Draft Unit) inLoop n).notes.Listed slots →
    Walked slots (kind.past Γ) (kind.effect fuel Γ) (Code.Runs scalarMachine)
      ((lowerKind env span kind : Draft Unit) inLoop n)
  | .block content, Γ, n, inLoop, _, h, ht, hl => by
    have walked : (lowerKind env span (.block content) : Draft Unit) inLoop n =
      let d := (lowerStatements env content : Draft Unit) inLoop { n with scopes := [] :: n.scopes }
      ⟨(), { d.names with scopes := d.names.scopes.tail }, d.code ++ .done, d.notes ++ {}⟩ := by
      rw [lowerKind]
      generalize (lowerStatements env content : Draft Unit) = statements
      rfl
    rw [walked] at hl ⊢
    have inner := lowerStatements_walked content h ht.opened hl.append.1
    refine ⟨inner.tracks.closed, ?_⟩
    dsimp only
    rw [Code.append_done]
    exact inner.performs
  | .define name type init, Γ, n, inLoop, _, h, ht, hl => by
    obtain ⟨s, hs, htype⟩ := (Option.any_eq_true _ _).1 h
    obtain rfl := Scalar.of?_eq_some (of_decide_eq_true htype)
    exact walked_define env (Node.typed_of_scalar? init hs) ht hl
  | .assign op target value, Γ, n, inLoop, _, h, ht, hl => by
    obtain ⟨s, hs, htarget⟩ := (Option.any_eq_true _ _).1 h
    obtain ⟨name, leftSpan, headSpan, rfl⟩ := Node.exists_of_isLocal htarget
    exact walked_assign env (Node.typed_of_scalar? value hs) ht hl
  | .branch [], Γ, n, inLoop, _, h, ht, hl => ⟨ht, performs_done⟩
  | .branch (arm :: arms), Γ, n, inLoop, _, h, ht, hl => by
    have walked : (lowerKind env span (.branch (arm :: arms)) : Draft Unit) inLoop n =
      let d := Draft.arms inLoop (lowerArms env (arm :: arms)) n
      ⟨(), d.names, .of (.branch d.code), d.notes⟩ := by
      rw [lowerKind]
      rfl
    rw [walked] at hl ⊢
    have inner := lowerArms_walked (arm :: arms) h ht hl
    refine ⟨inner.tracks, fun σ fr o hm ho => ?_⟩
    obtain ⟨o', hruns, hmatch⟩ := inner.performs hm ho
    exact ⟨o', Code.runs_of hruns, hmatch⟩
  | .switch condition cases otherwise, Γ, n, inLoop, _, h, ht, hl => by
    obtain ⟨h, hotherwise⟩ := Bool.and_eq_true_iff.1 h
    obtain ⟨hc, hcases⟩ := Bool.and_eq_true_iff.1 h
    have typed := Node.typed_of_scalar? condition (of_decide_eq_true hc)
    have walked : (lowerKind env span (.switch condition cases otherwise) : Draft Unit) inLoop n =
      (lowerNode env condition >>= fun _ => Assembler.line (pop condition.span) >>= fun operand =>
        Assembler.switching operand.value (env.map operand.type) (lowerCases env cases)
          (lowerDefault env otherwise) : Draft Unit) inLoop n := by
      rw [lowerKind, switchesOnUnion_of_typed env typed]
      rfl
    rw [walked] at hl ⊢
    obtain ⟨o, ho⟩ := lowerNode_pushes env typed ht.toSees hl.bind.1
    rw [ho.bind_pop, ho.type, env.map_ty] at hl ⊢
    let m : Names :=
      { n with nextTemp := ((lowerNode env condition : Draft Unit) inLoop n).names.nextTemp }
    have picked (w : BitVec 64) := lowerCases_walked (n := m) w
      (fun hΓ hn => lowerDefault_walked w otherwise hotherwise hΓ hn) cases hcases
      (ht.of_eq rfl rfl) hl.append.2
    refine ⟨(picked 0).tracks, ho.performs fun {σ _} heffect => ?_⟩
    dsimp only [NodeKind.effect] at heffect
    split at heffect
    · next w hw =>
      refine ⟨_, hw, fun {fr} hm hread => ?_⟩
      obtain ⟨o', hruns, hmatch⟩ := (picked w).performs hm heffect
      exact ⟨o', Code.runs_of (Step.runs_switch hread hruns), hmatch⟩
    · cases heffect
  | .breakLoop, Γ, n, inLoop, _, h, ht, hl => by
    cases inLoop with
    | false => cases hl.faults
    | true =>
      refine ⟨ht, fun σ fr o hm ho => ?_⟩
      cases ho
      exact ⟨_, Code.runs_of rfl, .out hm⟩
  | .continueLoop, Γ, n, inLoop, _, h, ht, hl => by
    cases inLoop with
    | false => cases hl.faults
    | true =>
      refine ⟨ht, fun σ fr o hm ho => ?_⟩
      cases ho
      exact ⟨_, Code.runs_of rfl, .on hm⟩
  | .loop condition body update, Γ, n, inLoop, _, h, ht, hl => by
    obtain ⟨h, hupdate⟩ := Bool.and_eq_true_iff.1 h
    obtain ⟨hc, hbody⟩ := Bool.and_eq_true_iff.1 h
    have typed := Node.typed_of_scalar? condition (of_decide_eq_true hc)
    have walked : (lowerKind env span (.loop condition body update) : Draft Unit) inLoop n =
      let check := (lowerCondition env condition : Draft Value) true n
      let round := (lowerNode env body : Draft Unit) true check.names
      let next := (lowerUpdate env update : Draft Unit) true round.names
      ⟨(), next.names, .of (.loop check.code check.value round.code next.code),
        check.notes ++ round.notes ++ next.notes⟩ := by
      rw [lowerKind]
      rfl
    rw [walked] at hl ⊢
    obtain ⟨hl, hlupdate⟩ := hl.append
    obtain ⟨hlcheck, hlbody⟩ := hl.append
    obtain ⟨⟨hscopes, hnext⟩, hcheck⟩ := checks_condition env typed ht.toSees hlcheck
    have round := lowerNode_walked body hbody (ht.of_eq hscopes hnext) hlbody
    have next := lowerUpdate_walked update hupdate round.tracks hlupdate
    refine ⟨next.tracks, fun σ fr o hm ho => ?_⟩
    obtain ⟨o', hrounds, hmatch⟩ :=
      performs_rounds hcheck round.performs next.performs fuel hm ho
    exact ⟨o', Code.runs_of hrounds, hmatch⟩
  | .ret none _, Γ, n, inLoop, _, h, ht, hl => by
    refine ⟨ht, fun σ fr o hm ho => ?_⟩
    cases ho
    exact ⟨_, Code.runs_of rfl, .ended .void⟩
  | .ret (some value) byReference, Γ, n, inLoop, _, h, ht, hl => by
    obtain ⟨hs, hr⟩ := Bool.and_eq_true_iff.1 h
    obtain ⟨s, hs⟩ := Option.isSome_iff_exists.1 hs
    obtain rfl : byReference = false := by simpa using hr
    exact walked_return env (Node.typed_of_scalar? value hs) ht hl

theorem lowerStatements_walked : (nodes : List Node) → {Γ : Scope} → {n : Names} →
    {inLoop : Bool} → Node.areScalar nodes = true → Tracks slots Γ n →
    ((lowerStatements env nodes : Draft Unit) inLoop n).notes.Listed slots →
    Walked slots (Node.pastAll nodes Γ) (Node.effects fuel Γ nodes) (Code.Runs scalarMachine)
      ((lowerStatements env nodes : Draft Unit) inLoop n)
  | [], Γ, n, inLoop, _, ht, _ => ⟨ht, performs_done⟩
  | node :: rest, Γ, n, inLoop, h, ht, hl => by
    obtain ⟨hnode, hrest⟩ := Bool.and_eq_true_iff.1 h
    rw [lowerStatements] at hl ⊢
    obtain ⟨hfirst, hsecond⟩ := hl.bind
    rw [dropping_eq] at hfirst
    have first := (lowerNode_walked node hnode ht hfirst).dropping
    exact first.bind (lowerStatements_walked rest hrest first.tracks hsecond)

theorem lowerArms_walked : (arms : List Arm) → {Γ : Scope} → {n : Names} → {inLoop : Bool} →
    Arm.areScalar arms = true → Tracks slots Γ n →
    (Draft.arms inLoop (lowerArms env arms) n).notes.Listed slots →
    Walked slots (Arm.past arms Γ) (Arm.effect fuel Γ arms) (Arms.Runs scalarMachine)
      (Draft.arms inLoop (lowerArms env arms) n)
  | [], Γ, n, inLoop, _, ht, _ => by
    refine ⟨ht, fun σ fr o hm ho => ?_⟩
    cases ho
    exact ⟨_, rfl, .normal hm⟩
  | .mk none body span :: rest, Γ, n, inLoop, h, ht, hl => by
    obtain ⟨hbody, hrest⟩ := Bool.and_eq_true_iff.1 h
    cases rest with
    | cons arm arms => cases hl.faults
    | nil =>
      have walked := lowerNode_walked body hbody ht hl.append.1
      exact ⟨walked.tracks, walked.performs⟩
  | .mk (some condition) body span :: rest, Γ, n, inLoop, h, ht, hl => by
    obtain ⟨hc, hrest⟩ := Bool.and_eq_true_iff.1 h
    obtain ⟨hc, hbody⟩ := Bool.and_eq_true_iff.1 hc
    have typed := Node.typed_of_scalar? condition (of_decide_eq_true hc)
    rw [lowerArms] at hl ⊢
    rw [Draft.arms] at hl ⊢
    obtain ⟨hl, hlrest⟩ := hl.append
    obtain ⟨hlcheck, hlbody⟩ := hl.append
    obtain ⟨⟨hscopes, hnext⟩, hcheck⟩ := checks_condition env typed ht.toSees hlcheck
    have walked := lowerNode_walked body hbody (ht.of_eq hscopes hnext) hlbody
    have others := lowerArms_walked rest hrest walked.tracks hlrest
    exact ⟨others.tracks, performs_when hcheck walked.performs others.performs⟩

theorem lowerCases_walked (w : BitVec 64) {inLoop : Bool} {last : Option (Draft Unit)}
    {past : Scope → Scope} {otherwise : Scope → Effect}
    (hlast : ∀ {Γ : Scope} {n : Names}, Tracks slots Γ n →
      (Draft.cases inLoop last [] n).notes.Listed slots →
      Walked slots (past Γ) (otherwise Γ) (Cases.Picked w) (Draft.cases inLoop last [] n)) :
    (cases : List Case) → {Γ : Scope} → {n : Names} →
    Case.areScalar cases = true → Tracks slots Γ n →
    (Draft.cases inLoop last (lowerCases env cases) n).notes.Listed slots →
    Walked slots (past (Case.past cases Γ)) (Case.effect fuel Γ w otherwise cases)
      (Cases.Picked w) (Draft.cases inLoop last (lowerCases env cases) n)
  | [], Γ, n, _, ht, hl => hlast ht hl
  | .mk value body span :: rest, Γ, n, h, ht, hl => by
    obtain ⟨hbody, hrest⟩ := Bool.and_eq_true_iff.1 h
    rw [lowerCases] at hl ⊢
    rw [Draft.cases] at hl ⊢
    obtain ⟨hlbody, hlrest⟩ := hl.append
    have walked := lowerNode_walked body hbody ht hlbody
    have others := lowerCases_walked w hlast rest hrest walked.tracks hlrest
    exact ⟨others.tracks, performs_case walked.performs others.performs⟩

theorem lowerDefault_walked (w : BitVec 64) : (otherwise : Option Node) → {Γ : Scope} →
    {n : Names} → {inLoop : Bool} → Node.isScalar? otherwise = true → Tracks slots Γ n →
    (Draft.cases inLoop (lowerDefault env otherwise) [] n).notes.Listed slots →
    Walked slots (Node.past? otherwise Γ) (Node.effect? fuel Γ otherwise) (Cases.Picked w)
      (Draft.cases inLoop (lowerDefault env otherwise) [] n)
  | none, Γ, n, inLoop, _, ht, _ => by
    refine ⟨ht, fun σ fr o hm ho => ?_⟩
    cases ho
    exact ⟨_, rfl, .normal hm⟩
  | some body, Γ, n, inLoop, h, ht, hl => by
    have walked := lowerNode_walked body h ht hl
    exact ⟨walked.tracks, walked.performs⟩

theorem lowerUpdate_walked : (update : Option Node) → {Γ : Scope} → {n : Names} →
    {inLoop : Bool} → Node.isScalar? update = true → Tracks slots Γ n →
    ((lowerUpdate env update : Draft Unit) inLoop n).notes.Listed slots →
    Walked slots (Node.past? update Γ) (Node.effect? fuel Γ update) (Code.Runs scalarMachine)
      ((lowerUpdate env update : Draft Unit) inLoop n)
  | none, Γ, n, inLoop, _, ht, _ => ⟨ht, performs_done⟩
  | some update, Γ, n, inLoop, h, ht, hl => by
    rw [lowerUpdate] at hl ⊢
    rw [dropping_eq] at hl
    exact (lowerNode_walked update h ht hl).dropping

end

end Trees

end Codegen.Lowering
