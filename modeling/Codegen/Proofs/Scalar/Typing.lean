import Codegen.Proofs.Scalar.Frames

/-!
# Typed scalar expressions

`Node.Typed` are the scalar expressions by their shapes, so that a statement about them goes by
induction on one relation; they are the trees that `Node.scalar?` gives a type.  What an expression
evaluates to is of its type.
-/

namespace Codegen

/-! ## Types -/

/-- The printed form of a scalar type. -/
def Scalar.printed : Scalar → String
  | .bool => "i1"
  | _ => "i64"

@[simp]
theorem Scalar.has_word (s : Scalar) (w : BitVec 64) : s.has (.word w) = s.isInteger := by
  cases s <;> rfl

@[simp]
theorem Scalar.has_bit (s : Scalar) (b : Bool) : s.has (.bit b) = !s.isInteger := by
  cases s <;> rfl

theorem Scalar.eq_bool {s : Scalar} (h : s.isInteger = false) : s = .bool := by
  cases s <;> first | rfl | cases h

theorem Scalar.hasType_printed (s : Scalar) (d : Datum) : Ir.hasType s.printed d = s.has d := by
  cases s <;> cases d <;> simp [Ir.hasType, printed, has]

theorem Lowering.Env.map_ty (env : Lowering.Env) (s : Scalar) : env.map s.ty = s.printed := by
  cases s <;> rfl

/-- The scalar expressions with their types. -/
inductive Node.Typed : Node → Scalar → Prop where
  | number {literal : String} {n : Int} {s : Scalar} {span : Span} (hs : s.isInteger = true)
      (hn : decimal? literal = some n) : Typed (.mk (.number literal s.ty) span) s
  | bool (literal : Bool) (span : Span) : Typed (.mk (.bool literal Scalar.bool.ty) span) .bool
  | read (name : String) (s : Scalar) (span headSpan : Span) :
    Typed (.mk (.call s.ty [.mk (.callId name s.ty) headSpan]) span) s
  | unary {value : Node} {s : Scalar} (op : UnaryOp) (span : Span) (h : value.Typed s) :
    Typed (.mk (.unary op s.ty value) span) s
  | binary {left right : Node} {op : BinaryOp} {s : Scalar} (span : Span) (hop : op.takes s = true)
      (hl : left.Typed s) (hr : right.Typed s) :
    Typed (.mk (.binary op (op.gives s).ty left right) span) (op.gives s)

namespace Node

theorem typed_read {type : Ty} {chain : List Node} {s : Scalar} {span : Span}
    (h : (NodeKind.call type chain).scalar? = some s) : Typed (.mk (.call type chain) span) s := by
  unfold NodeKind.scalar? at h
  split at h
  case h_3 name declared headSpan heq =>
    cases heq
    obtain ⟨htype, hdeclared⟩ := Option.filter_eq_some_iff.1 h
    obtain rfl := Scalar.of?_eq_some htype
    obtain rfl := Scalar.of?_eq_some (of_decide_eq_true hdeclared)
    exact .read name s span headSpan
  all_goals first | cases h | (rename_i heq; cases heq)

theorem exists_of_isLocal {node : Node} {s : Scalar} (h : node.isLocal s = true) :
    ∃ name span headSpan, node = .mk (.call s.ty [.mk (.callId name s.ty) headSpan]) span := by
  unfold isLocal at h
  split at h
  · obtain ⟨htype, hdeclared⟩ := Bool.and_eq_true_iff.1 h
    obtain rfl := Scalar.of?_eq_some (of_decide_eq_true htype)
    obtain rfl := Scalar.of?_eq_some (of_decide_eq_true hdeclared)
    exact ⟨_, _, _, rfl⟩
  · cases h

theorem typed_of_scalar? : (node : Node) → {s : Scalar} → node.scalar? = some s → node.Typed s
  | .mk (.number literal type) span, s, h => by
    obtain ⟨htype, hs⟩ := Option.filter_eq_some_iff.1 h
    obtain rfl := Scalar.of?_eq_some htype
    obtain ⟨hs, hn⟩ := Bool.and_eq_true_iff.1 hs
    obtain ⟨n, hn⟩ := Option.isSome_iff_exists.1 hn
    exact .number hs hn
  | .mk (.bool literal type) span, s, h => by
    obtain ⟨htype, hs⟩ := Option.filter_eq_some_iff.1 h
    obtain rfl := of_decide_eq_true hs
    obtain rfl := Scalar.of?_eq_some htype
    exact .bool literal span
  | .mk (.call type chain) span, s, h => typed_read h
  | .mk (.unary op type value) span, s, h => by
    obtain ⟨hvalue, htype⟩ := Option.filter_eq_some_iff.1 h
    obtain rfl := Scalar.of?_eq_some (of_decide_eq_true htype)
    exact .unary op span (typed_of_scalar? value hvalue)
  | .mk (.binary op type left right) span, s, h => by
    obtain ⟨operands, hoperands, h⟩ := Option.bind_eq_some_iff.1 h
    obtain ⟨hl, hr⟩ := Option.filter_eq_some_iff.1 hoperands
    obtain ⟨hop, hr⟩ := Bool.and_eq_true_iff.1 hr
    obtain ⟨htype, hs⟩ := Option.filter_eq_some_iff.1 h
    obtain rfl := of_decide_eq_true hs
    obtain rfl := Scalar.of?_eq_some htype
    exact .binary span hop (typed_of_scalar? left hl)
      (typed_of_scalar? right (of_decide_eq_true hr))

theorem Typed.scalar?_eq {node : Node} {s : Scalar} (h : node.Typed s) :
    node.scalar? = some s := by
  induction h with
  | number hs hn => simp [scalar?, NodeKind.scalar?, Scalar.of?_ty, hs, hn]
  | bool => rfl
  | read name s => simp [scalar?, NodeKind.scalar?, Scalar.of?_ty]
  | unary op _ _ ih => simp [scalar?, NodeKind.scalar?, Scalar.of?_ty, ih]
  | binary _ hop _ _ ihl ihr =>
    simp [scalar?, NodeKind.scalar?, Scalar.of?_ty, hop, ihl, ihr, Option.filter]

end Node

/-! ## Values -/

theorem UnaryOp.has_apply {op : UnaryOp} {s : Scalar} {d r : Datum} (h : op.apply d = some r)
    (hd : s.has d = true) : s.has r = true := by
  unfold UnaryOp.apply at h
  split at h <;> cases h <;> simpa using hd

theorem BinaryOp.has_apply {op : BinaryOp} {s : Scalar} {d e r : Datum}
    (h : op.apply s d e = some r) (hd : s.has d = true) : (op.gives s).has r = true := by
  unfold BinaryOp.apply at h
  split at h
  · split at h
    next hc =>
      obtain ⟨c, -, rfl⟩ := Option.map_eq_some_iff.1 h
      simp [gives, hc, Scalar.isInteger]
    next hc =>
      obtain ⟨w, hw, rfl⟩ := Option.map_eq_some_iff.1 h
      have strict : op.isShortCircuit = false := by
        cases op <;> first | rfl | cases hw
      simpa [gives, hc, strict] using hd
  · obtain ⟨c, -, rfl⟩ := Option.map_eq_some_iff.1 h
    have hs : s = .bool := Scalar.eq_bool (by simpa using hd)
    simp [gives, hs, Scalar.isInteger]
  · cases h

theorem BinaryOp.eq_bool {op : BinaryOp} {s : Scalar} {isAnd : Bool}
    (hop : Lowering.operation op = .shortCircuit isAnd) (h : op.takes s = true) : s = .bool := by
  cases op with
  | cmpAnd | cmpOr => simpa [takes, isShortCircuit] using h
  | _ => cases hop

theorem BinaryOp.gives_of_arithmetic {op : BinaryOp} {op' : Ir.BinOp}
    (hop : Lowering.operation op = .arithmetic op') (s : Scalar) : op.gives s = s := by
  cases op <;> first | rfl | cases hop

theorem BinaryOp.gives_bool (op : BinaryOp) : op.gives .bool = .bool := by
  rw [gives, ite_self]

namespace NodeKind

variable {Γ : Scope} {σ : Store} {op : BinaryOp} {type : Ty} {left right : Node} {v : Datum}

/-- Both operands of most operators have values. -/
theorem value_binary (hop : ∀ isAnd, Lowering.operation op ≠ .shortCircuit isAnd)
    (h : (NodeKind.binary op type left right).value Γ σ = some v) :
    ∃ s d e, left.scalar? = some s ∧ left.value Γ σ = some d ∧ right.value Γ σ = some e ∧
      op.apply s d e = some v := by
  cases op with
  | cmpAnd | cmpOr => exact absurd rfl (hop _)
  | _ =>
    obtain ⟨s, hs, h⟩ := Option.bind_eq_some_iff.1 h
    obtain ⟨d, hd, h⟩ := Option.bind_eq_some_iff.1 h
    obtain ⟨e, he, h⟩ := Option.bind_eq_some_iff.1 h
    exact ⟨s, d, e, hs, hd, he, h⟩

/-- The left operand of a conjunction or disjunction decides whether the right one counts. -/
theorem value_shortCircuit {isAnd : Bool} (hop : Lowering.operation op = .shortCircuit isAnd)
    (h : (NodeKind.binary op type left right).value Γ σ = some v) :
    ∃ b, left.value Γ σ = some (.bit b) ∧
      if b = isAnd then right.value Γ σ = some v else v = .bit b := by
  cases op with
  | cmpAnd | cmpOr =>
    cases hop
    unfold NodeKind.value at h
    split at h
    next hl => exact ⟨_, hl, by simpa [eq_comm] using h⟩
    next hl => exact ⟨_, hl, by simpa [eq_comm] using h⟩
    next => cases h
  | _ => cases hop

end NodeKind

/-- The value of an expression is of its type. -/
theorem Node.Typed.has_value {Γ : Scope} {σ : Store} {node : Node} {s : Scalar}
    (h : node.Typed s) {d : Datum} (hd : node.value Γ σ = some d) : s.has d = true := by
  induction h generalizing d with
  | number hs hn =>
    obtain ⟨n, -, rfl⟩ := Option.map_eq_some_iff.1 hd
    simpa using hs
  | bool literal =>
    cases hd
    rfl
  | read name s =>
    obtain ⟨cell, -, hd⟩ := Option.bind_eq_some_iff.1 hd
    obtain ⟨s', hs', hd⟩ := Option.bind_eq_some_iff.1 hd
    obtain rfl := Option.some.inj ((Scalar.of?_ty s).symm.trans hs')
    exact (Option.filter_eq_some_iff.1 hd).2
  | unary op _ _ ih =>
    obtain ⟨d, hv, happly⟩ := Option.bind_eq_some_iff.1 hd
    exact UnaryOp.has_apply happly (ih hv)
  | @binary left right op s _ htakes hl _ ihl ihr =>
    by_cases hop : ∃ isAnd, Lowering.operation op = .shortCircuit isAnd
    · obtain ⟨isAnd, hop⟩ := hop
      obtain ⟨b, hb, hright⟩ := NodeKind.value_shortCircuit hop hd
      obtain rfl := BinaryOp.eq_bool hop htakes
      rw [BinaryOp.gives_bool]
      split at hright
      · exact ihr hright
      · rw [hright]
        rfl
    · obtain ⟨s', a, b, hs', ha, -, happly⟩ := NodeKind.value_binary (not_exists.1 hop) hd
      obtain rfl := Option.some.inj (hl.scalar?_eq.symm.trans hs')
      exact BinaryOp.has_apply happly (ihl ha)

end Codegen
