import Codegen.Proofs.Leaves
import Codegen.Proofs.Scalar.Mirror
import Codegen.Proofs.Scalar.Typing

/-!
# Scalar expressions compute their values

`lowerNode_pushes`: the walk over a scalar expression leaves one operand on the value stack, and
wherever the expression has a value, its code gets behind itself with this value in the operand.
It disturbs only temporaries and hidden slots that are new.
-/

namespace Codegen.Lowering

open Ir (Frame Content Slot Value Inst scalarMachine)

/-! ## Runs of lines -/

theorem line_cons {inst : Inst} {insts : List Inst} {fr fr' : Frame}
    (h : fr.step inst = some fr') :
    scalarMachine.line (inst :: insts) (some fr) = scalarMachine.line insts (some fr') := by
  change scalarMachine.line insts (fr.step inst) = _
  rw [h]

theorem Code.runs_insts {inLoop : Bool} {insts : List Inst} {fr fr' : Frame}
    (h : scalarMachine.line insts (some fr) = some fr') :
    (Code.line insts : Code inLoop).Runs scalarMachine (some fr) (.normal (some fr')) :=
  h ▸ Code.runs_line insts (some fr)

theorem then_of_normal {σ ρ : Type} {first second : σ → Outcome σ ρ → Prop} {s s₁ : σ}
    {o : Outcome σ ρ} (hf : first s (.normal s₁)) (hs : second s₁ o) : Then first second s o := by
  cases o with
  | normal s₂ => exact ⟨s₁, hf, hs⟩
  | _ => exact .inr ⟨s₁, hf, hs⟩

theorem Code.runs_then {inLoop : Bool} {σ ρ : Type} {M : Ir.Machine σ ρ} {a b : Code inLoop}
    {s s₁ : σ} {o : Outcome σ ρ} (ha : a.Runs M s (.normal s₁)) (hb : b.Runs M s₁ o) :
    (a ++ b).Runs M s o :=
  (Code.runs_append a b).2 (then_of_normal ha hb)

theorem Step.runs_guard {inLoop isAnd b : Bool} {σ ρ : Type} {M : Ir.Machine σ ρ} {cond : Value}
    {right : Code inLoop} {s s' : σ} {o : Outcome σ ρ} (ht : M.test cond s = .ok (b, s'))
    (h : if b = isAnd then right.Runs M s' o else o = .normal s') :
    (Step.guard isAnd cond right).Runs M s o := by
  change Decided (M.test cond s) _ o
  rw [ht]
  exact h

theorem test_of_read {fr : Frame} {cond : Value} {b : Bool}
    (h : fr.read Scalar.bool.printed cond = some (.bit b)) :
    scalarMachine.test cond (some fr) = .ok (b, some fr) := by
  have read : fr.read "i1" cond = some (.bit b) := h
  simp only [scalarMachine, Option.bind_some, read]

theorem read_define {fr : Frame} {name : String} {s : Scalar} {d : Datum} (h : s.has d = true) :
    (fr.define name (.datum d)).read s.printed (.var name) = some d := by
  simp [Frame.define, Frame.read, s.hasType_printed, h]

/-! ## Operands -/

/-- What the walk over an expression of the type `s` leaves behind: an operand on top of the value
stack that is not made of a temporary to come, and code that computes the operand. -/
structure Pushes (slots : List Slot) (s : Scalar) (value : Store → Option Datum) (n : Names)
    {inLoop : Bool} (d : Drafted Unit (Code inLoop)) (o : Operand) : Prop where
  names : d.names = { n with stack := o :: n.stack, nextTemp := d.names.nextTemp }
  temps : n.nextTemp ≤ d.names.nextTemp
  type : o.type = s.ty
  old : ∀ j, d.names.nextTemp ≤ j → o.value ≠ .var (Origin.temp j).name
  runs {σ : Store} {fr : Frame} {v : Datum} (hm : Mirrors slots σ fr) (hv : value σ = some v) :
    ∃ fr', d.code.Runs scalarMachine (some fr) (.normal (some fr')) ∧
      Keeps n.nextTemp fr fr' ∧ fr'.read s.printed o.value = some v

section Walks

variable {slots : List Slot} {s : Scalar} {value : Store → Option Datum} {n : Names}
  {inLoop : Bool} {α : Type}

/-- An operand is taken from the stack where it was put. -/
theorem Pushes.bind_pop {x : Draft Unit} {o : Operand}
    (h : Pushes slots s value n (x inLoop n) o) (span : Span) (f : Operand → Draft α) :
    (x >>= fun _ => Assembler.line (pop span) >>= f) inLoop n =
      let d := x inLoop n
      let e := f o inLoop { n with nextTemp := d.names.nextTemp }
      ⟨e.value, e.names, d.code ++ e.code, d.notes ++ e.notes⟩ := by
  have taken : pop span (x inLoop n).names =
      ⟨o, { n with nextTemp := (x inLoop n).names.nextTemp }, [], {}⟩ := by
    rw [h.names]
    rfl
  have walked : (x >>= fun _ => Assembler.line (pop span) >>= f) inLoop n =
    let d := x inLoop n
    let p := pop span d.names
    let e := f p.value inLoop p.names
    ⟨e.value, e.names, d.code ++ (.line p.insts ++ e.code), d.notes ++ (p.notes ++ e.notes)⟩ := rfl
  rw [walked]
  dsimp only
  rw [taken]
  rfl

/-- A constant, behind code that may find out that it is one. -/
theorem pushes_lit {k : Nat} {text : String} {code : Code inLoop} {notes : Notes}
    (hk : n.nextTemp ≤ k)
    (h : ∀ {σ : Store} {fr : Frame} {v : Datum}, Mirrors slots σ fr → value σ = some v →
      ∃ fr₁, code.Runs scalarMachine (some fr) (.normal (some fr₁)) ∧ Keeps n.nextTemp fr fr₁ ∧
        Ir.constant? s.printed text = some v) :
    Pushes slots s value n
      ⟨(), { n with stack := .lit text s.ty :: n.stack, nextTemp := k }, code, notes⟩
      (.lit text s.ty) where
  names := rfl
  temps := hk
  type := rfl
  old := by simp [Operand.value, Operand.lit]
  runs := h

/-- A temporary that the last instruction of some code computes. -/
theorem pushes_temp {k : Nat} {code : Code inLoop} {inst : Inst} {notes : Notes}
    (hk : n.nextTemp ≤ k)
    (h : ∀ {σ : Store} {fr : Frame} {v : Datum}, Mirrors slots σ fr → value σ = some v →
      ∃ fr₁, code.Runs scalarMachine (some fr) (.normal (some fr₁)) ∧ Keeps n.nextTemp fr fr₁ ∧
        fr₁.step inst = some (fr₁.define (Origin.temp k).name (.datum v)) ∧ s.has v = true) :
    Pushes slots s value n
      ⟨(), { n with stack := .var (Origin.temp k).name s.ty :: n.stack, nextTemp := k + 1 },
        code ++ .line [inst], notes⟩ (.var (Origin.temp k).name s.ty) where
  names := rfl
  temps := Nat.le_succ_of_le hk
  type := rfl
  old j hj heq := by
    have same : Origin.temp k = Origin.temp j := Origin.name_injective (Value.var.inj heq)
    cases same
    exact absurd hj (Nat.not_succ_le_self k)
  runs {_ fr v} hm hv := by
    obtain ⟨fr₁, hruns, hkeeps, hstep, hhas⟩ := h hm hv
    refine ⟨_, Code.runs_then hruns (Code.runs_insts hstep), ?_, read_define hhas⟩
    exact hkeeps.trans (.define hk fr₁ _) (Nat.le_refl _)

/-! ## Locals -/

theorem localOperand_eq (name : String) (type : Ty) (span : Span) (n : Names) :
    localOperand name type span n =
      match n.scopes.findSome? (List.lookup name) with
      | some slot => ⟨.var slot type.notArray.pointer, n, [], {}⟩
      | none =>
        ⟨.var missingLocal type.notArray.pointer, n, [],
          { faults := [(.undefinedLocal name, span)] }⟩ := by
  have walked : localOperand name type span n =
    (match n.scopes.findSome? (List.lookup name) with
      | some slot => (pure (.var slot type.notArray.pointer) : Line Operand)
      | none => do
        fault span (.undefinedLocal name)
        pure (.var missingLocal type.notArray.pointer)) n := rfl
  rw [walked]
  cases n.scopes.findSome? (List.lookup name) <;> rfl

/-- The name of a local pushes the address of its slot. -/
theorem lowerNode_callId (env : Env) {name : String} {span : Span}
    (hf : ((lowerNode env (.mk (.callId name s.ty) span) : Draft Unit) inLoop n).notes.faults =
      []) :
    ∃ slot, n.scopes.findSome? (List.lookup name) = some slot ∧
      (lowerNode env (.mk (.callId name s.ty) span) : Draft Unit) inLoop n =
        ⟨(), { n with stack := .var slot s.ty.pointer :: n.stack }, .done, {}⟩ := by
  have balance := (balanced_eq hf).2
  have walked : (lowerKind env span (.callId name s.ty) : Draft Unit) inLoop n =
    Draft.line (localOperand name s.ty span >>= push) inLoop n := by cases s <;> rfl
  have pushed : (localOperand name s.ty span >>= push) n =
    let first := localOperand name s.ty span n
    ⟨(), { first.names with stack := first.value :: first.names.stack }, first.insts ++ [],
      first.notes ++ {}⟩ := rfl
  rw [lowerNode, balance, walked, Draft.line, pushed, localOperand_eq] at hf
  rw [lowerNode, balance, walked, Draft.line, pushed, localOperand_eq]
  cases hfind : n.scopes.findSome? (List.lookup name) with
  | none =>
    rw [hfind] at hf
    cases hf
  | some slot =>
    refine ⟨slot, rfl, ?_⟩
    cases s <;> rfl

/-- A chain that is only the name of a local. -/
theorem lowerChain_callId (env : Env) {mode : Mode} {name : String} {span headSpan : Span}
    (hf : ((lowerChain env mode span s.ty [.mk (.callId name s.ty) headSpan] : Draft Unit)
      inLoop n).notes.faults = []) :
    ∃ slot, n.scopes.findSome? (List.lookup name) = some slot ∧
      (lowerChain env mode span s.ty [.mk (.callId name s.ty) headSpan] : Draft Unit) inLoop n =
        match mode with
        | .value =>
          let dest := (Origin.temp n.nextTemp).name
          ⟨(), { n with stack := .var dest s.ty :: n.stack, nextTemp := n.nextTemp + 1 },
            .done ++ .line [.load s.printed (.var slot) (.var dest)], {}⟩
        | .address => ⟨(), { n with stack := .var slot s.ty.pointer :: n.stack }, .done, {}⟩ := by
  have walked : (lowerChain env mode span s.ty [.mk (.callId name s.ty) headSpan] : Draft Unit)
      inLoop n =
    let head := (lowerNode env (.mk (.callId name s.ty) headSpan) : Draft Unit) inLoop n
    let last := finishChain env mode false head.names
    ⟨last.value, last.names, head.code ++ .line last.insts, head.notes ++ last.notes⟩ := by
    rw [lowerChain, lowerLinks]
    generalize (lowerNode env _ : Draft Unit) = head
    rfl
  rw [walked] at hf ⊢
  obtain ⟨slot, hfind, head⟩ := lowerNode_callId env (List.append_eq_nil_iff.1 hf).1
  refine ⟨slot, hfind, ?_⟩
  dsimp only
  rw [head]
  cases mode <;> cases s <;> rfl

/-! ## Trees -/

/-- Nothing is wrong, and all stack slots are listed. -/
structure Notes.Listed (slots : List Slot) (notes : Notes) : Prop where
  faults : notes.faults = []
  slots : ∀ slot ∈ notes.slots, slot ∈ slots

theorem Notes.Listed.append {a b : Notes} (h : (a ++ b).Listed slots) :
    a.Listed slots ∧ b.Listed slots := by
  obtain ⟨hf, hs⟩ := h
  obtain ⟨ha, hb⟩ := List.append_eq_nil_iff.1 hf
  exact ⟨⟨ha, fun slot hm => hs slot (List.mem_append_left _ hm)⟩,
    ⟨hb, fun slot hm => hs slot (List.mem_append_right _ hm)⟩⟩

theorem Notes.Listed.bind {β : Type} {x : Draft α} {f : α → Draft β}
    (h : ((x >>= f) inLoop n).notes.Listed slots) :
    (x inLoop n).notes.Listed slots ∧
      (f (x inLoop n).value inLoop (x inLoop n).names).notes.Listed slots :=
  h.append

/-- Decimal digits are printed as they are. -/
theorem numberText_of_decimal {literal : String} {m : Int} (h : decimal? literal = some m)
    (s : Scalar) : numberText literal s.ty = literal := by
  have notFloat : s.ty.isFloat = false := by cases s <;> rfl
  have whole : wholeText literal.toList = literal.toList := by
    unfold wholeText
    split
    next digits heq => simp [decimal?, heq, Text.number?, Text.digitsFrom?, Text.digitValue?] at h
    next digits heq => simp [decimal?, heq, Text.number?, Text.digitsFrom?, Text.digitValue?] at h
    next => rfl
  rw [numberText, notFloat, if_neg (by simp), whole, String.ofList_toList]

variable (env : Env) {Γ : Scope}

theorem pushes_read {name : String} {span headSpan : Span} (hs : Sees slots Γ n)
    (hl : ((lowerChain env .value span s.ty [.mk (.callId name s.ty) headSpan] : Draft Unit)
      inLoop n).notes.Listed slots) :
    ∃ o, Pushes slots s (Node.value Γ · (.mk (.call s.ty [.mk (.callId name s.ty) headSpan]) span))
      n ((lowerChain env .value span s.ty [.mk (.callId name s.ty) headSpan] : Draft Unit)
        inLoop n) o := by
  obtain ⟨slot, hfind, walked⟩ := lowerChain_callId env hl.faults
  rw [walked]
  refine ⟨_, pushes_temp (Nat.le_refl _) fun {σ fr v} hm hv => ⟨fr, rfl, .refl _ _, ?_⟩⟩
  obtain ⟨cell, hcell, hv⟩ := Option.bind_eq_some_iff.1 hv
  obtain ⟨s', hs', hv⟩ := Option.bind_eq_some_iff.1 hv
  obtain rfl := Option.some.inj ((Scalar.of?_ty s).symm.trans hs')
  obtain ⟨hd, hhas⟩ := Option.filter_eq_some_iff.1 hv
  have found : slot = cell.slot := Option.some.inj (hfind.symm.trans (hs.find hcell).1)
  rw [found]
  refine ⟨Frame.step_load (hm.address_of_find hs hcell) ?_, hhas⟩
  rw [hm.values cell v hd]
  simp [s.hasType_printed, hhas]

theorem step_unary (op : UnaryOp) {fr : Frame} {dest type : String} {source : Value} {d r : Datum}
    (hd : fr.read type source = some d) : op.apply d = some r →
    fr.step (match op with
      | .neg => .neg (.var dest) source true type
      | .bnot => .bnot (.var dest) source type
      | .lnot => .lnot (.var dest) source type) = some (fr.define dest (.datum r)) := by
  intro h
  cases op <;> cases d <;> cases h <;>
    simp [Frame.step, hd, Ir.negated, Ir.complemented, Ir.inverted]

theorem Pushes.unary {x : Draft Unit} {o : Operand} (h : Pushes slots s value n (x inLoop n) o)
    (hhas : ∀ {σ : Store} {v : Datum}, value σ = some v → s.has v = true) (op : UnaryOp)
    (span : Span) :
    ∃ o', Pushes slots s (fun σ => (value σ).bind op.apply) n
      ((x >>= fun _ => Assembler.line (pop span) >>= fun source =>
        Assembler.line (applyUnary env op s.ty source) : Draft Unit) inLoop n) o' := by
  rw [h.bind_pop]
  refine ⟨_, pushes_temp h.temps fun hm hv => ?_⟩
  obtain ⟨d, hd, happly⟩ := Option.bind_eq_some_iff.1 hv
  obtain ⟨fr₁, hruns, hkeeps, hread⟩ := h.runs hm hd
  refine ⟨fr₁, hruns, hkeeps, ?_, op.has_apply happly (hhas hd)⟩
  have notFloat : (!o.type.isFloat) = true := by rw [h.type]; cases s <;> rfl
  rw [notFloat, h.type, env.map_ty]
  exact step_unary op hread happly

/-- Operands on both sides of an operator, which get their values from left to right. -/
theorem Pushes.operands {x y : Draft Unit} {lhs rhs : Operand} {left right : Store → Option Datum}
    (hx : Pushes slots s left n (x inLoop n) lhs)
    (hy : Pushes slots s right (x inLoop n).names (y inLoop (x inLoop n).names) rhs)
    (leftSpan rightSpan : Span) (f : Operand → Operand → Draft α) :
    let d := x inLoop n
    let e := y inLoop d.names
    let m : Names := { n with nextTemp := e.names.nextTemp }
    (x >>= fun _ => y >>= fun _ => Assembler.line (pop rightSpan) >>= fun rhs =>
      Assembler.line (pop leftSpan) >>= fun lhs => f lhs rhs) inLoop n =
        ⟨(f lhs rhs inLoop m).value, (f lhs rhs inLoop m).names,
          d.code ++ e.code ++ (f lhs rhs inLoop m).code,
          d.notes ++ e.notes ++ (f lhs rhs inLoop m).notes⟩ := by
  intro d e m
  have start : { d.names with nextTemp := e.names.nextTemp } =
      { m with stack := lhs :: n.stack } := by
    rw [hx.names]
  have taken : (Assembler.line (pop leftSpan) >>= fun lhs => f lhs rhs) inLoop
      { d.names with nextTemp := e.names.nextTemp } = f lhs rhs inLoop m := by
    rw [start]
    rfl
  have walked : (x >>= fun _ => y >>= fun _ => Assembler.line (pop rightSpan) >>= fun rhs =>
      Assembler.line (pop leftSpan) >>= fun lhs => f lhs rhs) inLoop n =
    let second := (y >>= fun _ => Assembler.line (pop rightSpan) >>= fun rhs =>
      Assembler.line (pop leftSpan) >>= fun lhs => f lhs rhs) inLoop d.names
    ⟨second.value, second.names, d.code ++ second.code, d.notes ++ second.notes⟩ := rfl
  rw [walked, hy.bind_pop]
  dsimp only
  rw [taken, Code.append_assoc, Notes.append_assoc]

/-- What two operands hold where the code behind both of them begins. -/
theorem Pushes.runs_operands {x y : Draft Unit} {lhs rhs : Operand}
    {left right : Store → Option Datum} (hx : Pushes slots s left n (x inLoop n) lhs)
    (hy : Pushes slots s right (x inLoop n).names (y inLoop (x inLoop n).names) rhs) {σ : Store}
    {fr : Frame} {d e : Datum} (hm : Mirrors slots σ fr) (hd : left σ = some d)
    (he : right σ = some e) :
    ∃ fr', ((x inLoop n).code ++ (y inLoop (x inLoop n).names).code).Runs scalarMachine (some fr)
        (.normal (some fr')) ∧ Keeps n.nextTemp fr fr' ∧
      fr'.read s.printed lhs.value = some d ∧ fr'.read s.printed rhs.value = some e := by
  obtain ⟨fr₁, hruns₁, hkeeps₁, hread₁⟩ := hx.runs hm hd
  obtain ⟨fr₂, hruns₂, hkeeps₂, hread₂⟩ := hy.runs (hm.keeps hkeeps₁) he
  refine ⟨fr₂, Code.runs_then hruns₁ hruns₂, hkeeps₁.trans hkeeps₂ hx.temps, ?_, hread₂⟩
  rw [hkeeps₂.read hx.old]
  exact hread₁

/-- An instruction that computes the value of an operator from both operands. -/
theorem Pushes.binary {x y : Draft Unit} {lhs rhs : Operand} {left right : Store → Option Datum}
    (hx : Pushes slots s left n (x inLoop n) lhs)
    (hy : Pushes slots s right (x inLoop n).names (y inLoop (x inLoop n).names) rhs)
    {op : BinaryOp} (hvalue : ∀ {σ : Store} {v : Datum}, value σ = some v → ∃ d e,
      left σ = some d ∧ s.has d = true ∧ right σ = some e ∧ op.apply s d e = some v)
    (inst : Operand → Operand → String → Inst)
    (hinst : ∀ {fr : Frame} {dest : String} {d e v : Datum},
      fr.read s.printed lhs.value = some d → fr.read s.printed rhs.value = some e →
      op.apply s d e = some v → fr.step (inst lhs rhs dest) = some (fr.define dest (.datum v)))
    (leftSpan rightSpan : Span) :
    ∃ o, Pushes slots (op.gives s) value n
      ((x >>= fun _ => y >>= fun _ => Assembler.line (pop rightSpan) >>= fun rhs =>
        Assembler.line (pop leftSpan) >>= fun lhs => Assembler.line (do
          let dest ← temp
          emit (inst lhs rhs dest)
          pushVar dest (op.gives s).ty) : Draft Unit) inLoop n) o := by
  rw [hx.operands hy]
  refine ⟨_, pushes_temp (hx.temps.trans hy.temps) fun hm hv => ?_⟩
  obtain ⟨d, e, hd, hhas, he, happly⟩ := hvalue hv
  obtain ⟨fr', hruns, hkeeps, hl, hr⟩ := hx.runs_operands hy hm hd he
  exact ⟨fr', hruns, hkeeps, hinst hl hr happly, op.has_apply happly hhas⟩

/-! ## Conjunctions and disjunctions -/

theorem constant_decisive (isAnd : Bool) :
    Ir.constant? Scalar.bool.printed (decisive isAnd) = some (.bit !isAnd) := by
  cases isAnd <;> rfl

/-- The right operand does not matter behind a constant that decides. -/
theorem Pushes.decided {x : Draft Unit} {lhs : Operand} {left : Store → Option Datum} {isAnd : Bool}
    (hx : Pushes slots .bool left n (x inLoop n) lhs) (hdecides : decides isAnd lhs = true)
    (hvalue : ∀ {σ : Store} {v : Datum}, value σ = some v → ∃ b, left σ = some (.bit b) ∧
      (b ≠ isAnd → v = .bit b)) (notes : Notes) :
    Pushes slots .bool value n
      ⟨(), { n with
          stack := .lit (decisive isAnd) Scalar.bool.ty :: n.stack
          nextTemp := (x inLoop n).names.nextTemp }, (x inLoop n).code, notes⟩
      (.lit (decisive isAnd) Scalar.bool.ty) := by
  refine pushes_lit hx.temps fun hm hv => ?_
  obtain ⟨b, hb, hright⟩ := hvalue hv
  obtain ⟨fr₁, hruns, hkeeps, hread⟩ := hx.runs hm hb
  obtain ⟨hkind, hcontent⟩ := Bool.and_eq_true_iff.1 hdecides
  have constant : lhs.value = .lit (decisive isAnd) := by
    rw [← of_decide_eq_true hcontent, Operand.value, of_decide_eq_true hkind]
  rw [constant] at hread
  have hb : b = !isAnd := by simpa using hread.symm.trans (constant_decisive isAnd)
  refine ⟨fr₁, hruns, hkeeps, ?_⟩
  rw [constant_decisive, hright (by cases isAnd <;> simp [hb]), hb]

/-- A hidden slot holds a value, and its temporary the address. -/
structure Stored (k : Nat) (v : Datum) (fr : Frame) : Prop where
  address : fr.address? (.var (Origin.temp k).name) = some (Origin.hidden k).name
  value : fr.slots (Origin.hidden k).name = some v

/-- A store through the temporary of a hidden slot. -/
theorem step_storeHidden {k : Nat} {fr : Frame} {source : Value} {v : Datum}
    (ha : fr.address? (.var (Origin.temp k).name) = some (Origin.hidden k).name)
    (hv : fr.read Scalar.bool.printed source = some v) :
    ∃ fr', fr.step (.store "i1" source (.var (Origin.temp k).name)) = some fr' ∧
      Keeps k fr fr' ∧ Stored k v fr' :=
  ⟨_, Frame.step_store hv ha, .put (Nat.le_refl k) fr v, ha, Function.update_self ..⟩

/-- The left operand in a new hidden slot. -/
theorem line_storeLeft {σ : Store} {k : Nat} {fr : Frame} {source : Value} {v : Datum}
    (hm : Mirrors slots σ fr) (hslot : ⟨(Origin.hidden k).name, "i1"⟩ ∈ slots)
    (hv : fr.read Scalar.bool.printed source = some v)
    (hold : ∀ j, k ≤ j → source ≠ .var (Origin.temp j).name) :
    ∃ fr', scalarMachine.line
        [.slotPtr (Origin.temp k).name (Origin.hidden k).name "i1",
          .store "i1" source (.var (Origin.temp k).name)] (some fr) = some fr' ∧
      Keeps k fr fr' ∧ Stored k v fr' := by
  let fr₁ := fr.define (Origin.temp k).name (.address (Origin.hidden k).name)
  have pointed : fr.step (.slotPtr (Origin.temp k).name (Origin.hidden k).name "i1") =
      some fr₁ := by
    simp [Frame.step, hm.address? hslot (.hidden k), fr₁]
  have address : fr₁.address? (.var (Origin.temp k).name) = some (Origin.hidden k).name := by
    simp [fr₁, Frame.define, Frame.address?]
  have kept : Keeps k fr fr₁ := .define (Nat.le_refl k) fr _
  obtain ⟨fr₂, hstep, hkeeps, hstored⟩ :=
    step_storeHidden address ((kept.read hold _).trans hv)
  exact ⟨fr₂, (line_cons pointed).trans (line_cons hstep), kept.trans hkeeps (Nat.le_refl k),
    hstored⟩

/-- The right operand runs only where the left one does not decide, and then its value replaces that
of the left one. -/
theorem Pushes.runs_guard {y : Draft Unit} {rhs : Operand} {right : Store → Option Datum} {k : Nat}
    {isAnd b : Bool} {cond : Value} {σ : Store} {fr : Frame} {v : Datum}
    (hy : Pushes slots .bool right { n with nextTemp := k + 1 }
      (y inLoop { n with nextTemp := k + 1 }) rhs)
    (hm : Mirrors slots σ fr) (hstored : Stored k (.bit b) fr)
    (hcond : fr.read Scalar.bool.printed cond = some (.bit b))
    (hv : if b = isAnd then right σ = some v else v = .bit b) :
    ∃ fr', (Step.guard isAnd cond ((y inLoop { n with nextTemp := k + 1 }).code ++
        .line [.store "i1" rhs.value (.var (Origin.temp k).name)])).Runs scalarMachine (some fr)
          (.normal (some fr')) ∧
      Keeps k fr fr' ∧ Stored k v fr' := by
  by_cases hb : b = isAnd
  · rw [if_pos hb] at hv
    obtain ⟨fr₁, hruns, hkeeps, hread⟩ := hy.runs hm hv
    have address : fr₁.address? (.var (Origin.temp k).name) = some (Origin.hidden k).name := by
      have same := hkeeps.names (Origin.temp k).name fun j hj => Origin.name_ne fun h => by
        have hjk := Origin.temp.inj h
        exact absurd (hjk ▸ hj : k + 1 ≤ k) (Nat.not_succ_le_self k)
      rw [Frame.address?, same]
      exact hstored.address
    obtain ⟨fr₂, hstep, hkeeps₂, hstored₂⟩ := step_storeHidden address hread
    refine ⟨fr₂, Step.runs_guard (test_of_read hcond) ?_, ?_, hstored₂⟩
    · rw [if_pos hb]
      exact Code.runs_then hruns (Code.runs_insts (line_cons hstep))
    · exact ((Keeps.refl k fr).trans hkeeps (Nat.le_succ k)).trans hkeeps₂ (Nat.le_refl k)
  · rw [if_neg hb] at hv
    refine ⟨fr, Step.runs_guard (test_of_read hcond) ?_, .refl k fr, hv ▸ hstored⟩
    rw [if_neg hb]

/-- A conjunction or disjunction whose left operand is not known to decide. -/
theorem Pushes.guarded {x y : Draft Unit} {lhs rhs : Operand} {left right : Store → Option Datum}
    {isAnd : Bool} (hx : Pushes slots .bool left n (x inLoop n) lhs)
    (hy : Pushes slots .bool right { n with nextTemp := (x inLoop n).names.nextTemp + 1 }
      (y inLoop { n with nextTemp := (x inLoop n).names.nextTemp + 1 }) rhs)
    (hslot : ⟨(Origin.hidden (x inLoop n).names.nextTemp).name, "i1"⟩ ∈ slots)
    (hvalue : ∀ {σ : Store} {v : Datum}, value σ = some v → ∃ b, left σ = some (.bit b) ∧
      (if b = isAnd then right σ = some v else v = .bit b))
    (hhas : ∀ {σ : Store} {v : Datum}, value σ = some v → Scalar.bool.has v = true)
    (notes : Notes) :
    let k := (x inLoop n).names.nextTemp
    let e := y inLoop { n with nextTemp := k + 1 }
    let t := (Origin.temp k).name
    let dest := (Origin.temp e.names.nextTemp).name
    Pushes slots .bool value n
      ⟨(), { n with
          stack := .var dest Scalar.bool.ty :: n.stack, nextTemp := e.names.nextTemp + 1 },
        (x inLoop n).code ++ (.line [.slotPtr t (Origin.hidden k).name "i1",
          .store "i1" lhs.value (.var t)] ++ .of (.guard isAnd lhs.value
            (e.code ++ .line [.store "i1" rhs.value (.var t)]))) ++
          .line [.load "i1" (.var t) (.var dest)], notes⟩
      (.var dest Scalar.bool.ty) := by
  intro k e t dest
  have later : n.nextTemp ≤ e.names.nextTemp := (hx.temps.trans (Nat.le_succ k)).trans hy.temps
  refine pushes_temp later fun {σ fr v} hm hv => ?_
  obtain ⟨b, hb, hright⟩ := hvalue hv
  obtain ⟨fr₁, hruns₁, hkeeps₁, hread₁⟩ := hx.runs hm hb
  obtain ⟨fr₂, hline, hkeeps₂, hstored₂⟩ :=
    line_storeLeft (hm.keeps hkeeps₁) hslot hread₁ hx.old
  have hread₂ := (hkeeps₂.read hx.old _).trans hread₁
  obtain ⟨fr₃, hguard, hkeeps₃, hstored₃⟩ :=
    hy.runs_guard ((hm.keeps hkeeps₁).keeps hkeeps₂) hstored₂ hread₂ hright
  refine ⟨fr₃, ?_, ?_, ?_, hhas hv⟩
  · exact Code.runs_then hruns₁ (Code.runs_then (Code.runs_insts hline) (Code.runs_of hguard))
  · exact hkeeps₁.trans (hkeeps₂.trans hkeeps₃ (Nat.le_refl k)) hx.temps
  · refine Frame.step_load hstored₃.address ?_
    rw [hstored₃.value]
    have typed := Scalar.bool.hasType_printed v
    simp [show Ir.hasType "i1" v = true from typed.trans (hhas hv)]

/-- A conjunction or disjunction of truth values. -/
theorem Pushes.shortCircuit {x y : Draft Unit} {lhs : Operand} {left right : Store → Option Datum}
    {isAnd : Bool} {leftSpan rightSpan : Span}
    (hx : Pushes slots .bool left n (x inLoop n) lhs)
    (hy : ∀ {m : Names}, m.scopes = n.scopes → (y inLoop m).notes.Listed slots →
      ∃ rhs, Pushes slots .bool right m (y inLoop m) rhs)
    (hvalue : ∀ {σ : Store} {v : Datum}, value σ = some v → ∃ b, left σ = some (.bit b) ∧
      (if b = isAnd then right σ = some v else v = .bit b))
    (hhas : ∀ {σ : Store} {v : Datum}, value σ = some v → Scalar.bool.has v = true)
    (walk : Draft Unit)
    (hwalk : walk = do
      x
      let lhs ← (Assembler.line (pop leftSpan) : Draft Operand)
      if decides isAnd lhs then
        Assembler.line (push (.lit (decisive isAnd) Scalar.bool.ty))
      else
        let result ← (Assembler.line (storeLeft lhs) : Draft String)
        Assembler.guarded isAnd lhs.value do
          y
          let rhs ← (Assembler.line (pop rightSpan) : Draft Operand)
          Assembler.line (storeRight result rhs)
        Assembler.line (loadResult Scalar.bool.ty result))
    (hl : (walk inLoop n).notes.Listed slots) :
    ∃ o, Pushes slots .bool value n (walk inLoop n) o := by
  rw [hwalk, hx.bind_pop] at hl ⊢
  dsimp only at hl ⊢
  by_cases hdecides : decides isAnd lhs = true
  · rw [if_pos hdecides]
    have pushed (m : Names) : (Assembler.line (push (.lit (decisive isAnd) Scalar.bool.ty)) :
        Draft Unit) inLoop m =
      ⟨(), { m with stack := .lit (decisive isAnd) Scalar.bool.ty :: m.stack }, .done, {}⟩ := rfl
    rw [pushed, Code.append_done]
    refine ⟨_, hx.decided hdecides (fun hv => ?_) _⟩
    obtain ⟨b, hb, hright⟩ := hvalue hv
    exact ⟨b, hb, fun hne => by rwa [if_neg hne] at hright⟩
  · rw [if_neg hdecides] at hl ⊢
    let k := (x inLoop n).names.nextTemp
    let t := (Origin.temp k).name
    let m : Names := { n with nextTemp := k + 1 }
    let body : Draft Unit := y >>= fun _ => Assembler.line (pop rightSpan) >>= fun rhs =>
      Assembler.line (storeRight t rhs)
    have behind : (do
        let result ← (Assembler.line (storeLeft lhs) : Draft String)
        Assembler.guarded isAnd lhs.value do
          y
          let rhs ← (Assembler.line (pop rightSpan) : Draft Operand)
          Assembler.line (storeRight result rhs)
        Assembler.line (loadResult Scalar.bool.ty result)) inLoop { n with nextTemp := k } =
      let e := body inLoop m
      let dest := (Origin.temp e.names.nextTemp).name
      ⟨(), { e.names with
          stack := .var dest Scalar.bool.ty :: e.names.stack, nextTemp := e.names.nextTemp + 1 },
        .line [.slotPtr t (Origin.hidden k).name "i1", .store "i1" lhs.value (.var t)] ++
          (.of (.guard isAnd lhs.value e.code) ++ .line [.load "i1" (.var t) (.var dest)]),
        { slots := [⟨(Origin.hidden k).name, "i1"⟩] } ++ (e.notes ++ {})⟩ := rfl
    rw [behind] at hl ⊢
    obtain ⟨hslot, hbody⟩ := hl.append.2.append
    obtain ⟨rhs, hy⟩ : ∃ rhs, Pushes slots .bool right m (y inLoop m) rhs :=
      hy rfl hbody.append.1.bind.1
    have inner : body inLoop m =
      let e := y inLoop m
      ⟨(), { m with nextTemp := e.names.nextTemp },
        e.code ++ .line [.store "i1" rhs.value (.var t)], e.notes ++ {}⟩ := hy.bind_pop rightSpan _
    rw [inner]
    dsimp only
    rw [← Code.append_assoc (.line _), ← Code.append_assoc]
    exact ⟨_, hx.guarded hy (hslot.slots _ List.mem_cons_self) hvalue hhas _⟩

/-- The walk over a scalar expression leaves an operand with its value. -/
theorem lowerNode_pushes {node : Node} (h : node.Typed s) (hs : Sees slots Γ n)
    (hl : ((lowerNode env node : Draft Unit) inLoop n).notes.Listed slots) :
    ∃ o, Pushes slots s (Node.value Γ · node) n ((lowerNode env node : Draft Unit) inLoop n) o := by
  induction h generalizing n with
  | @number literal m s span hint hm =>
    have balance := (balanced_eq hl.faults).2
    have printed : s.printed = "i64" := by cases s <;> first | rfl | cases hint
    rw [lowerNode, balance, lowerKind, numberText_of_decimal hm]
    refine ⟨_, pushes_lit (Nat.le_refl _) fun {σ fr v} _ hv => ⟨fr, rfl, .refl _ _, ?_⟩⟩
    rw [Ir.constant?, if_pos printed]
    exact hv
  | bool literal span =>
    have balance := (balanced_eq hl.faults).2
    rw [lowerNode, balance, lowerKind]
    refine ⟨_, pushes_lit (Nat.le_refl _) fun {σ fr v} _ hv => ⟨fr, rfl, .refl _ _, ?_⟩⟩
    rw [← hv]
    cases literal <;> rfl
  | read name s span headSpan =>
    have balance := (balanced_eq hl.faults).2
    rw [lowerNode, balance, lowerKind] at hl ⊢
    exact pushes_read env hs hl
  | @unary value s op span hvalue ih =>
    have balance := (balanced_eq hl.faults).2
    rw [lowerNode, balance, lowerKind] at hl ⊢
    obtain ⟨o, ho⟩ := ih hs hl.bind.1
    exact ho.unary env hvalue.has_value op value.span
  | @binary left right op s span htakes hleft hright ihl ihr =>
    have balance := (balanced_eq hl.faults).2
    rw [lowerNode, balance, lowerKind] at hl ⊢
    have value (hop : ∀ isAnd, operation op ≠ .shortCircuit isAnd) {σ : Store} {v : Datum}
        (hv : Node.value Γ σ (.mk (.binary op (op.gives s).ty left right) span) = some v) :
        ∃ d e, left.value Γ σ = some d ∧ s.has d = true ∧ right.value Γ σ = some e ∧
          op.apply s d e = some v := by
      obtain ⟨s', d, e, hs', hd, he, happly⟩ := NodeKind.value_binary hop hv
      obtain rfl := Option.some.inj (hleft.scalar?_eq.symm.trans hs')
      exact ⟨d, e, hd, hleft.has_value hd, he, happly⟩
    have notFloat : (!s.ty.isFloat) = true := by cases s <;> rfl
    have signed : (!s.ty.isUnsigned) = s.isSigned := by cases s <;> rfl
    cases hop : operation op with
    | arithmetic op' =>
      rw [hop] at hl
      dsimp only at hl ⊢
      obtain ⟨lhs, hx⟩ := ihl hs hl.bind.1
      obtain ⟨rhs, hy⟩ := ihr (hs.of_scopes (by rw [hx.names])) hl.bind.2.bind.1
      refine hx.binary hy (value (by simp [hop])) (fun lhs rhs dest => .binary op' (.var dest)
        lhs.value rhs.value (!lhs.type.isFloat) (!lhs.type.isUnsigned) (env.map lhs.type)) ?_
        left.span right.span
      rw [hx.type, notFloat, signed, env.map_ty]
      exact Frame.step_binary hop
    | comparison kind =>
      rw [hop] at hl
      dsimp only at hl ⊢
      obtain ⟨lhs, hx⟩ := ihl hs hl.bind.1
      obtain ⟨rhs, hy⟩ := ihr (hs.of_scopes (by rw [hx.names])) hl.bind.2.bind.1
      refine hx.binary hy (value (by simp [hop])) (fun lhs rhs dest => .compare kind (.var dest)
        lhs.value rhs.value (!lhs.type.isFloat) (!lhs.type.isUnsigned) (env.map lhs.type)) ?_
        left.span right.span
      rw [hx.type, notFloat, signed, env.map_ty]
      exact Frame.step_compare hop
    | shortCircuit isAnd =>
      rw [hop] at hl
      dsimp only at hl ⊢
      obtain ⟨lhs, hx⟩ := ihl hs hl.bind.1
      obtain rfl := BinaryOp.eq_bool hop htakes
      rw [BinaryOp.gives_bool] at hl ⊢
      have hy {m : Names} (hm : m.scopes = n.scopes)
          (hl : ((lowerNode env right : Draft Unit) inLoop m).notes.Listed slots) :
          ∃ rhs, Pushes slots .bool (Node.value Γ · right) m
            ((lowerNode env right : Draft Unit) inLoop m) rhs := ihr (hs.of_scopes hm) hl
      have typed := Node.Typed.binary span htakes hleft hright
      rw [BinaryOp.gives_bool] at typed
      exact hx.shortCircuit hy (NodeKind.value_shortCircuit hop) typed.has_value _ rfl hl

theorem lowerOperand_pushes {node : Node} (h : node.Typed s) (hs : Sees slots Γ n)
    (hl : ((lowerOperand env .value node : Draft Unit) inLoop n).notes.Listed slots) :
    ∃ o, Pushes slots s (Node.value Γ · node) n
      ((lowerOperand env .value node : Draft Unit) inLoop n) o := by
  cases h with
  | read name s span headSpan =>
    rw [lowerOperand] at hl ⊢
    exact pushes_read env hs hl
  | number hint hm => exact lowerNode_pushes env (.number hint hm) hs hl
  | bool literal span => exact lowerNode_pushes env (.bool literal span) hs hl
  | unary op span hvalue => exact lowerNode_pushes env (.unary op span hvalue) hs hl
  | binary span htakes hleft hright =>
    exact lowerNode_pushes env (.binary span htakes hleft hright) hs hl

/-- A condition gives its value away at once. -/
theorem lowerCondition_eq {node : Node} {o : Operand}
    (h : Pushes slots s value n ((lowerNode env node : Draft Unit) inLoop n) o) :
    (lowerCondition env node : Draft Value) inLoop n =
      let d := (lowerNode env node : Draft Unit) inLoop n
      ⟨o.value, { n with nextTemp := d.names.nextTemp }, d.code, d.notes⟩ := by
  obtain ⟨kind, span⟩ := node
  have walked : (lowerCondition env (.mk kind span) : Draft Value) inLoop n =
      (lowerNode env (.mk kind span) >>= fun _ => Assembler.line (pop span) >>= fun cond =>
        pure cond.value : Draft Value) inLoop n := by
    rw [lowerCondition, lowerNode]
    rfl
  rw [walked, h.bind_pop]
  have given (m : Names) : (pure o.value : Draft Value) inLoop m = ⟨o.value, m, .done, {}⟩ := rfl
  dsimp only
  rw [given, Code.append_done, Notes.append_nil]

end Walks

end Codegen.Lowering
