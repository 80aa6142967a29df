import Codegen.Proofs.Emitted
import Codegen.Proofs.Leaves

/-!
# What the walk over a tree leaves behind

`lowerNode_leaves`: in a tree with values where values belong, an expression leaves one value on
the stack, which is known where control gets behind it and which is the one that `nodeSketch`
tells; any other node leaves the stack as it was.  The code reads only what is known, and it follows
the course of the tree, provided that updates stay in their loops.
-/

namespace Codegen.Lowering

open Ir (Inst Value)

open NodeKind (fits operandsOk_of_fits updateStays_of_fits)

theorem Operand.sketch_of_kind {o : Operand} (h : o.kind ≠ .var) : o.sketch = o := by
  rw [sketch, isVar, if_neg]
  simpa using h

theorem decides_sketch (isAnd : Bool) (o : Operand) : decides isAnd o.sketch = decides isAnd o := by
  by_cases hv : o.kind = .var
  · simp [decides, Operand.sketch_kind, hv]
  · rw [Operand.sketch_of_kind hv]

variable {strict : Bool} {G : Set String}

/-! ## Operands -/

/-- A walk that puts one value on the stack, whatever is known and stands there before. -/
def PutsValue (strict : Bool) (G : Set String) (course : Course) (x : Draft Unit)
    (sketch : Operand) : Prop :=
  ∀ K T, Leaves strict G K T course x fun _ T' K' =>
    ∃ o, T' = o :: T ∧ o.Known K' ∧ o.sketch = sketch ∧ o.kind ≠ .method

section Operands

variable {K : Set String} {c d : Course} {left right : Draft Unit} {lhs rhs : Operand}

/-- Two operands, and behind both a step that takes them. -/
theorem leaves_operands (hleft : PutsValue strict G c left lhs)
    (hright : PutsValue strict G d right rhs) {step : Operand → Operand → Line Unit} {type : Ty}
    (hstep : ∀ a b K', a.Known K' → b.Known K' →
      Yields G K' [] [] (step a b) fun _ T' K' => Tops (.var "" type) [] T' K')
    (leftSpan rightSpan : Span) :
    Leaves strict G K [] (c ++ d) (do
      left
      right
      let b ← (Assembler.line (pop rightSpan) : Draft Operand)
      let a ← (Assembler.line (pop leftSpan) : Draft Operand)
      Assembler.line (step a b)) fun _ T' K' => Chained (.var "" type) T' K' := by
  refine (hleft K []).bind ?_
  rintro - _ _ - ⟨a, rfl, ha, -⟩
  refine (hright _ _).bind_skip ?_
  rintro - _ _ hK ⟨b, rfl, hb, -⟩
  exact .pop (.pop (hstep a b _ (Value.Known.mono ha hK) hb).leaves_var)

/-- The right operand is left out where the left one decides, and guarded by it otherwise. -/
theorem leaves_shortCircuit (hleft : PutsValue strict G c left lhs)
    (hright : PutsValue strict G d right rhs) (isAnd : Bool) (type : Ty)
    (leftSpan rightSpan : Span) :
    Leaves strict G K [] (c ++ if decides isAnd lhs then .skip else .guard isAnd d) (do
      left
      let a ← (Assembler.line (pop leftSpan) : Draft Operand)
      if decides isAnd a then
        Assembler.line (push (.lit (decisive isAnd) type))
      else
        let result ← (Assembler.line (storeLeft a) : Draft String)
        Assembler.guarded isAnd a.value do
          right
          let b ← (Assembler.line (pop rightSpan) : Draft Operand)
          Assembler.line (storeRight result b)
        Assembler.line (loadResult type result)) fun _ T' K' =>
      Chained (if decides isAnd lhs then .lit (decisive isAnd) type else .var "" type) T' K' := by
  refine (hleft K []).bind ?_
  rintro - _ _ - ⟨a, rfl, ha, hs, -⟩
  refine .pop ?_
  -- the sketch of the left operand tells whether it decides
  rw [← hs, decides_sketch]
  cases decides isAnd a with
  | true => exact leaves_push (Value.known_lit _) (by simp [Operand.lit])
  | false =>
    refine (yields_storeLeft ha).leaves.skip_bind ?_
    rintro result _ _ hK ⟨rfl, hresult⟩
    refine (Leaves.guarded isAnd (Value.Known.mono ha hK) ?_).bind_skip ?_
    · refine (hright _ _).bind_skip ?_
      rintro - _ _ hK ⟨b, rfl, hb, -⟩
      exact .pop ((yields_store hb (Value.known_var.2 (hK hresult))).leaves.mono
        fun _ _ _ _ h => h.1)
    · rintro - _ _ - ⟨rfl, rfl⟩
      exact (yields_loadResult hresult type).leaves_var

end Operands

variable (env : Env)

/-- A switch on the value on top of the stack. -/
theorem leaves_switch {K : Set String} {T : List Operand} {o : Operand}
    {walks : List (Int × Draft Unit)} {otherwise : Option (Draft Unit)}
    {courses : List (Int × Course)} {course? : Option Course} (ho : o.Known K)
    (hcases : ∀ K, List.Forall₂ (CaseLeaves strict G K) walks courses)
    (hdefault : ∀ K, DefaultLeaves strict G K otherwise course?) (isUnion : Bool)
    (conditionSpan span : Span) :
    Leaves strict G K (o :: T) (.switch courses course?) (do
      let operand ← (Assembler.line (pop conditionSpan) : Draft Operand)
      let r ← (Assembler.line (switchOperand env isUnion operand span) : Draft _)
      Assembler.switching r.1 r.2 walks otherwise) fun _ _ _ => True := by
  refine .pop ((yields_switchOperand ho isUnion span).leaves.skip_bind ?_)
  rintro r _ _ - ⟨rfl, hr⟩
  exact leaves_switching r.2 hr (hcases _) (hdefault _)

/-! ## Trees -/

mutual

/-- An expression leaves one value behind, and any other node leaves the stack as it was. -/
theorem lowerNode_leaves {K : Set String} : (node : Node) → node.Fits strict →
    Leaves strict G K [] (nodeCourse env node) (lowerNode env node) fun _ T' K' =>
      NodeLeft node.isExpression (nodeSketch env node) T' K'
  | .mk kind span, h => by
    obtain ⟨hk, hb⟩ := Bool.and_eq_true_iff.1 h
    exact (lowerKind_leaves span kind hk hb).node

theorem lowerOperand_leaves {K : Set String} (mode : Mode) : (node : Node) →
    node.Fits strict → node.isExpression = true →
    Leaves strict G K [] (nodeCourse env node) (lowerOperand env mode node) fun _ T' K' =>
      Chained (operandSketch env mode node) T' K'
  | .mk kind span, h, he => by
    obtain ⟨hk, hb⟩ := Bool.and_eq_true_iff.1 h
    cases kind with
    | call type chain => exact lowerChain_leaves mode span type chain (operandsOk_of_fits hk) hb
    | _ => exact ((lowerKind_leaves span _ hk hb).balanced _ span).mono fun _ _ _ _ h => h.1 he

theorem lowerKind_leaves {K : Set String} (span : Span) : (kind : NodeKind) →
    kind.fits strict = true → kind.allBelow (fun _ => true) (fits strict) = true →
    Leaves strict G K [] (kindCourse env kind) (lowerKind env span kind) fun _ T' K' =>
      kind.isExpression = true → Chained (kindSketch env kind) T' K'
  | .block content, _, hb => by
    refine yields_pushScope.leaves.skip_bind ?_
    rintro - _ _ - ⟨rfl, rfl⟩
    refine (lowerStatements_leaves content hb).bind_skip ?_
    rintro - _ _ - rfl
    exact yields_popScope.leaves.mono fun _ _ _ _ _ he => nomatch he
  | .unary op type value, hk, hb => by
    refine ((lowerNode_leaves value hb).value (operandsOk_of_fits hk)).bind_skip ?_
    rintro - _ _ - ⟨o, rfl, ho, -⟩
    exact .pop ((yields_applyUnary ho op type).leaves_var.mono fun _ _ _ _ h _ => h)
  | .binary op type left right, hk, hb => by
    obtain ⟨hl, hr⟩ := Bool.and_eq_true_iff.1 (operandsOk_of_fits hk)
    obtain ⟨hbl, hbr⟩ := Bool.and_eq_true_iff.1 hb
    have hleft : PutsValue strict G (nodeCourse env left) (lowerNode env left)
      (nodeSketch env left) := fun _ _ => (lowerNode_leaves left hbl).value hl
    have hright : PutsValue strict G (nodeCourse env right) (lowerNode env right)
      (nodeSketch env right) := fun _ _ => (lowerNode_leaves right hbr).value hr
    rw [lowerKind, kindCourse, kindSketch]
    cases operation op with
    | arithmetic op =>
      exact (leaves_operands hleft hright (fun _ _ _ ha hb => yields_applyArithmetic ha hb op type)
        left.span right.span).mono fun _ _ _ _ h _ => h
    | comparison kind =>
      exact (leaves_operands hleft hright
        (fun _ _ _ ha hb => yields_applyComparison ha hb kind type) left.span right.span).mono
          fun _ _ _ _ h _ => h
    | shortCircuit isAnd =>
      exact (leaves_shortCircuit hleft hright isAnd type left.span right.span).mono
        fun _ _ _ _ h _ => h
  | .convert source target, hk, hb => by
    refine ((lowerNode_leaves source hb).value (operandsOk_of_fits hk)).bind_skip ?_
    rintro - _ _ - ⟨o, rfl, ho, -⟩
    exact .pop ((yields_applyConvert ho target).leaves_var.mono fun _ _ _ _ h _ => h)
  | .nil _, _, _ =>
    (leaves_push (Value.known_lit _) (by simp [Operand.nil])).mono fun _ _ _ _ h _ => h
  | .number .., _, _ =>
    (leaves_push (Value.known_lit _) (by simp [Operand.lit])).mono fun _ _ _ _ h _ => h
  | .string literal type, _, _ =>
    (yields_pushString literal type).leaves_var.mono fun _ _ _ _ h _ => h
  | .char .., _, _ =>
    (leaves_push (Value.known_lit _) (by simp [Operand.lit])).mono fun _ _ _ _ h _ => h
  | .bool .., _, _ =>
    (leaves_push (Value.known_lit _) (by simp [Operand.lit])).mono fun _ _ _ _ h _ => h
  | .array size type values, hk, hb => by
    refine (yields_beginArray size _).leaves.skip_bind ?_
    rintro first _ _ - ⟨rfl, hfirst⟩
    refine (lowerElements_leaves first _ 0 values hfirst (operandsOk_of_fits hk) hb).bind_skip ?_
    rintro - _ _ hK rfl
    exact (tops_pushVar (hK hfirst) _).leaves_var.mono fun _ _ _ _ h _ => h
  | .structInit type fields, hk, hb => by
    have hv := operandsOk_of_fits hk
    refine (yields_beginInit type).leaves.skip_bind ?_
    rintro location _ _ - ⟨rfl, x, hx, rfl⟩
    have put {K : Set String} (hx : x ∈ K) :
        Leaves strict G K [] .skip (Assembler.line (push (.var x type.pointer))) fun _ T' K' =>
          (NodeKind.structInit type fields).isExpression = true →
            Chained (.var "" type.pointer) T' K' :=
      (tops_pushVar hx _).leaves_var.mono fun _ _ _ _ h _ => h
    cases env.symbols.findStruct type with
    | some symbol =>
      refine (lowerFields_leaves symbol type fields hv hb).bind_skip ?_
      rintro values _ _ hK ⟨rfl, hvalues⟩
      refine (yields_storeFields _ (inFieldOrder values) (Value.known_var.2 (hK hx))
        fun v hm => hvalues v (List.mem_mergeSort.1 hm)).leaves.skip_bind ?_
      rintro - _ _ hK' ⟨rfl, -⟩
      exact put (hK' (hK hx))
    | none =>
      cases env.symbols.findUnion type with
      | some symbol =>
        refine (lowerMembers_leaves symbol type _ fields (Value.known_var.2 hx) hv hb).bind_skip ?_
        rintro - _ _ hK rfl
        exact put (hK hx)
      | none => exact .fault span _
  | .call type chain, hk, hb =>
    (lowerChain_leaves .value span type chain (operandsOk_of_fits hk) hb).mono fun _ _ _ _ h _ => h
  | .callId name type, _, _ =>
    (yields_pushIdentifier name type span).leaves.mono fun _ _ _ _ ht _ =>
      ht.chained (List.forall_mem_nil _) fun hk => absurd hk (identifierSketch_kind env type)
  | .callIndex .., _, _ => leaves_fault span _
  | .callFunc .., _, _ => leaves_fault span _
  | .getField .., _, _ => leaves_fault span _
  | .getPath .., _, _ => leaves_fault span _
  | .ptrGetField .., _, _ => leaves_fault span _
  | .define name type init, hk, hb => by
    refine (yields_beginDefine name type).leaves.skip_bind ?_
    rintro slot _ _ - ⟨rfl, rfl, hslot⟩
    refine (lowerOperand_leaves _ init hb (operandsOk_of_fits hk)).bind_skip ?_
    rintro - _ _ - ⟨o, below, rfl, hk, -⟩
    exact .pop ((yields_endDefine hslot (hk o List.mem_cons_self) name type).leaves.mono
      fun _ _ _ _ _ he => nomatch he)
  | .assign op (.mk left leftSpan) right, hk, hb => by
    obtain ⟨-, hr⟩ := Bool.and_eq_true_iff.1 (operandsOk_of_fits hk)
    obtain ⟨hbl, hbr⟩ := Bool.and_eq_true_iff.1 hb
    obtain ⟨hkl, hbl⟩ := Bool.and_eq_true_iff.1 hbl
    cases left with
    | call type chain =>
      refine (lowerChain_leaves .address leftSpan type chain (operandsOk_of_fits hkl) hbl).bind ?_
      rintro - _ _ - ⟨target, below, rfl, hk, -⟩
      refine .pop (((lowerNode_leaves right hbr).value hr).bind_skip ?_)
      rintro - _ _ hK ⟨value, rfl, hvalue, -⟩
      refine .pop ((yields_assign ?_ hvalue op span).leaves.mono fun _ _ _ _ _ he => nomatch he)
      exact (hk target List.mem_cons_self).mono hK
    | _ => exact leaves_fault span _
  | .branch [], _, _ => leaves_pure fun he => nomatch he
  | .branch (arm :: arms), hk, hb =>
    (leaves_branching (lowerArms_leaves (arm :: arms) (operandsOk_of_fits hk) hb)).mono
      fun _ _ _ _ _ he => nomatch he
  | .switch condition cases otherwise, hk, hb => by
    have hv := operandsOk_of_fits hk
    obtain ⟨hb, hbo⟩ := Bool.and_eq_true_iff.1 hb
    obtain ⟨hbc, hbs⟩ := Bool.and_eq_true_iff.1 hb
    have hcases (K : Set String) : List.Forall₂ (CaseLeaves strict G K) (lowerCases env cases)
      (caseCourses env cases) := lowerCases_leaves cases hbs
    have hdefault (K : Set String) : DefaultLeaves strict G K (lowerDefault env otherwise)
      (defaultCourse env otherwise) := lowerDefault_leaves otherwise hbo
    rw [lowerKind, kindCourse]
    cases switchesOnUnion env condition.kind with
    | true =>
      refine (lowerOperand_leaves .address condition hbc hv).bind ?_
      rintro - _ _ - ⟨o, below, rfl, hk, -⟩
      exact (leaves_switch env (hk o List.mem_cons_self) hcases hdefault true condition.span
        span).mono fun _ _ _ _ _ he => nomatch he
    | false =>
      refine ((lowerNode_leaves condition hbc).value hv).bind ?_
      rintro - _ _ - ⟨o, rfl, ho, -⟩
      exact (leaves_switch env ho hcases hdefault false condition.span span).mono
        fun _ _ _ _ _ he => nomatch he
  | .breakLoop, _, _ => (leaves_jumping .out span).mono fun _ _ _ _ _ he => nomatch he
  | .continueLoop, _, _ => (leaves_jumping .on span).mono fun _ _ _ _ _ he => nomatch he
  | .loop condition body update, hk, hb => by
    have hv := operandsOk_of_fits hk
    obtain ⟨hb, hbu⟩ := Bool.and_eq_true_iff.1 hb
    obtain ⟨hbc, hbb⟩ := Bool.and_eq_true_iff.1 hb
    have hc (hs : strict = true) : (nodeCourse env condition).Stays := by
      subst hs
      exact node_stays env condition hbc (.inl hv)
    have hu (hs : strict = true) : (updateCourse env update).Stays := by
      subst hs
      exact update_stays env update hbu (updateStays_of_fits hk rfl)
    exact (leaves_looping (lowerCondition_leaves condition hbc hv)
      ((lowerNode_leaves body hbb).mono fun _ _ _ _ _ => trivial)
      (lowerUpdate_leaves update hbu) hc hu).mono fun _ _ _ _ _ he => nomatch he
  | .ret none _, _, _ => by
    refine (leaves_returning "void" ?_).mono fun _ _ _ _ _ he => nomatch he
    exact fun _ h => nomatch h
  | .ret (some value) byReference, hk, hb => by
    refine (lowerOperand_leaves _ value hb (operandsOk_of_fits hk)).bind ?_
    rintro - _ _ - ⟨o, below, rfl, hk, -⟩
    refine .pop ((leaves_returning _ ?_).mono fun _ _ _ _ _ he => nomatch he)
    intro v hm
    rw [returned] at hm
    split at hm
    · cases hm
    · rw [← Option.some.inj hm]
      exact hk o List.mem_cons_self

theorem lowerStatements_leaves {K : Set String} : (nodes : List Node) →
    Node.allOf (fun _ => true) (fits strict) nodes = true →
    Leaves strict G K [] (nodesCourse env nodes) (lowerStatements env nodes) fun _ T' _ => T' = []
  | [], _ => leaves_pure rfl
  | node :: rest, h => by
    obtain ⟨hn, hr⟩ := Bool.and_eq_true_iff.1 h
    refine ((lowerNode_leaves node hn).mono fun _ _ _ _ _ => trivial).dropping.bind ?_
    rintro - _ _ - rfl
    exact lowerStatements_leaves rest hr

theorem lowerElements_leaves {K : Set String} (first element : String) : (index : Nat) →
    (nodes : List Node) → first ∈ K → nodes.all Node.isExpression = true →
    Node.allOf (fun _ => true) (fits strict) nodes = true →
    Leaves strict G K [] (nodesCourse env nodes) (lowerElements env first element index nodes)
      fun _ T' _ => T' = []
  | _, [], _, _, _ => leaves_pure rfl
  | index, node :: rest, hfirst, hv, hb => by
    obtain ⟨hn, hr⟩ := Bool.and_eq_true_iff.1 hv
    obtain ⟨hbn, hbr⟩ := Bool.and_eq_true_iff.1 hb
    refine (yields_elementSlot hfirst element index).leaves.skip_bind ?_
    rintro slot _ _ hK ⟨rfl, hslot⟩
    refine ((lowerNode_leaves node hbn).value hn).bind ?_
    rintro - _ _ hK₁ ⟨o, rfl, ho, -⟩
    refine .pop ((yields_store ho (Value.known_var.2 (hK₁ hslot))).leaves.skip_bind ?_)
    rintro - _ _ hK₂ ⟨rfl, -⟩
    exact lowerElements_leaves first element (index + 1) rest (hK₂ (hK₁ (hK hfirst))) hr hbr

theorem lowerFields_leaves {K : Set String} (symbol : StructSymbol) (type : Ty) :
    (fields : List FieldInit) → (fields.all fun field => field.content.isExpression) = true →
    FieldInit.allOf (fun _ => true) (fits strict) fields = true →
    Leaves strict G K [] (fieldsCourse env fields) (lowerFields env symbol type fields)
      fun values T' K' => T' = [] ∧ ∀ v ∈ values, v.2.Known K'
  | [], _, _ => leaves_pure ⟨rfl, List.forall_mem_nil _⟩
  | .mk name content _ :: rest, hv, hb => by
    obtain ⟨hc, hr⟩ := Bool.and_eq_true_iff.1 hv
    obtain ⟨hbc, hbr⟩ := Bool.and_eq_true_iff.1 hb
    rw [lowerFields]
    cases symbol.fieldIndex? name with
    | none => exact .fault content.span _
    | some index =>
      refine ((lowerNode_leaves content hbc).value hc).bind ?_
      rintro - _ _ - ⟨o, rfl, ho, -⟩
      refine .pop ((lowerFields_leaves symbol type rest hr hbr).bind_skip ?_)
      rintro values _ _ hK ⟨rfl, hvalues⟩
      exact leaves_pure ⟨rfl, List.forall_mem_cons.2 ⟨Value.Known.mono ho hK, hvalues⟩⟩

theorem lowerMembers_leaves {K : Set String} (symbol : UnionSymbol) (type : Ty)
    (location : Operand) : (fields : List FieldInit) → location.Known K →
    (fields.all fun field => field.content.isExpression) = true →
    FieldInit.allOf (fun _ => true) (fits strict) fields = true →
    Leaves strict G K [] (fieldsCourse env fields)
      (lowerMembers env symbol type location fields) fun _ T' _ => T' = []
  | [], _, _, _ => leaves_pure rfl
  | .mk name content _ :: rest, hl, hv, hb => by
    obtain ⟨hc, hr⟩ := Bool.and_eq_true_iff.1 hv
    obtain ⟨hbc, hbr⟩ := Bool.and_eq_true_iff.1 hb
    rw [lowerMembers]
    cases symbol.member? name with
    | none => exact .fault content.span _
    | some member =>
      refine (yields_beginMember hl type member content.span).leaves.skip_bind ?_
      rintro payload _ _ hK ⟨rfl, hpayload⟩
      refine ((lowerNode_leaves content hbc).value hc).bind ?_
      rintro - _ _ hK₁ ⟨o, rfl, ho, -⟩
      refine .pop ((yields_store ho (Value.known_var.2 (hK₁ hpayload))).leaves.skip_bind ?_)
      rintro - _ _ hK₂ ⟨rfl, -⟩
      exact lowerMembers_leaves symbol type location rest
        (((Value.Known.mono hl hK).mono hK₁).mono hK₂) hr hbr

theorem lowerChain_leaves {K : Set String} (mode : Mode) (span : Span) (type : Ty) :
    (chain : List Node) → (NodeKind.call type chain).operandsOk = true →
    Node.allOf (fun _ => true) (fits strict) chain = true →
    Leaves strict G K [] (chainCourse env chain) (lowerChain env mode span type chain)
      fun _ T' K' => Chained (chainSketch env mode type chain) T' K'
  | [], _, _ => .fault span _
  | head :: links, hv, hb => by
    obtain ⟨hbh, hbl⟩ := Bool.and_eq_true_iff.1 hb
    refine ((lowerNode_leaves head hbh).value hv).bind ?_
    rintro - _ _ - ⟨o, rfl, ho, hs, hm⟩
    have start : Chained (nodeSketch env head) [o] _ :=
      ⟨o, [], rfl, List.forall_mem_singleton.2 ho, hs, fun h => absurd h hm⟩
    refine (lowerLinks_leaves links start hbl).bind_skip ?_
    rintro - _ _ - ⟨o, below, rfl, hk, hs, hm⟩
    obtain ⟨ho, hbelow⟩ := List.forall_mem_cons.1 hk
    rw [chainSketch, ← hs]
    refine (yields_finishChain ho mode _).leaves.mono fun _ _ _ hK ht => ?_
    exact ht.chained (fun x hx => (hbelow x hx).mono hK) fun h =>
      hm (o.sketch_kind.symm.trans (finished_kind h))

theorem lowerLinks_leaves {K : Set String} {T : List Operand} {reached : Operand} :
    (links : List Node) → Chained reached T K →
    Node.allOf (fun _ => true) (fits strict) links = true →
    Leaves strict G K T (linksCourse env reached links) (lowerLinks env links) fun _ T' K' =>
      Chained (links.foldl (linkSketch env) reached) T' K'
  | [], hT, _ => leaves_pure hT
  | link :: rest, hT, hb => by
    obtain ⟨hbl, hbr⟩ := Bool.and_eq_true_iff.1 hb
    refine (lowerLink_leaves link hT hbl).bind ?_
    intro _ _ _ _ hT'
    exact lowerLinks_leaves rest hT' hbr

theorem lowerLink_leaves {K : Set String} {T : List Operand} {reached : Operand} : (link : Node) →
    Chained reached T K → link.Fits strict →
    Leaves strict G K T (linkCourse env reached link) (lowerLink env link) fun _ T' K' =>
      Chained (linkSketch env reached link) T' K'
  | .mk kind span, ⟨o, below, hT, hk, hs, hm⟩, h => by
    subst hT hs
    obtain ⟨hv, hb⟩ := Bool.and_eq_true_iff.1 h
    obtain ⟨ho, hbelow⟩ := List.forall_mem_cons.1 hk
    have hv := operandsOk_of_fits hv
    cases kind with
    | callIndex type index =>
      refine (yields_dereference ho).leaves.skip_bind ?_
      rintro - _ _ hK ⟨-, location, rfl, hlocation, -⟩
      refine .pop (((lowerNode_leaves index hb).value hv).bind_skip ?_)
      rintro - _ _ hK₁ ⟨i, rfl, hi, -⟩
      refine .pop ((yields_pushElement (Value.Known.mono hlocation hK₁) hi type).leaves.mono ?_)
      exact fun _ _ _ hK₂ ht => ht.chained
        (fun x hx => (((hbelow x hx).mono hK).mono hK₁).mono hK₂) fun h => nomatch h
    | callFunc type args byReference =>
      -- Whatever the arguments leave below the result is known as well.
      have called {K : Set String} {T : List Operand} (receiver : List Operand)
          (hT : ∀ x ∈ T, x.Known K) (hr : ∀ x ∈ receiver, x.Known K) :
          Leaves strict G K T (nodesCourse env args ++ .calls [Text.mangle o.content]) (do
            let operands ← lowerArgs env byReference args
            Assembler.line (emitCall env o.content type (receiver ++ operands) span))
            fun _ T' K' => Chained (resultSketch type) T' K' := by
        refine (lowerArgs_leaves byReference args hv hb).over.bind ?_
        rintro operands _ _ hK ⟨E, rfl, hE, hoperands⟩
        have known : ∀ x ∈ receiver ++ operands, x.Known _ := fun x hx =>
          (List.mem_append.1 hx).elim (fun h => (hr x h).mono hK) (hoperands x)
        have left : ∀ x ∈ E ++ T, x.Known _ := fun x hx =>
          (List.mem_append.1 hx).elim (hE x) fun h => (hT x h).mono hK
        refine (yields_emitCall known o.content type span).calling.mono fun _ _ _ hK' ht => ?_
        exact ht.chained (fun x hx => (left x hx).mono hK') fun h =>
          absurd h (resultSketch_kind type)
      have named (hkind : o.kind ≠ .var) : o.sketch = o := Operand.sketch_of_kind hkind
      rw [lowerLink, linkCourse]
      refine .pop ?_
      cases hkind : o.kind with
      | method =>
        rw [named (by rw [hkind]; nofun)]
        obtain ⟨receiver, below, rfl⟩ := List.exists_cons_of_ne_nil (hm hkind)
        obtain ⟨hreceiver, hbelow⟩ := List.forall_mem_cons.1 hbelow
        refine (yields_dereference hreceiver).leaves.skip_bind ?_
        rintro - _ _ hK ⟨-, location, rfl, hlocation, -⟩
        exact .pop (called [location] (fun x hx => (hbelow x hx).mono hK)
          (List.forall_mem_singleton.2 hlocation))
      | function =>
        rw [named (by rw [hkind]; nofun)]
        exact called [] hbelow (List.forall_mem_nil _)
      | _ => exact .fault span _
    | getField name type =>
      exact (yields_lowerGetField ho name type span).leaves.mono fun _ _ _ hK hr =>
        hr.chained fun x hx => (hbelow x hx).mono hK
    | ptrGetField name type =>
      exact (yields_lowerPtrGetField ho name type span).leaves.mono fun _ _ _ hK hr =>
        hr.chained fun x hx => (hbelow x hx).mono hK
    | getPath name type =>
      exact (yields_lowerGetPath o name type span).leaves.mono fun _ _ _ hK hr =>
        hr.chained fun x hx => (hbelow x hx).mono hK
    | _ => exact leaves_fault span _

theorem lowerArgs_leaves {K : Set String} : (byReference : List Bool) → (args : List Node) →
    args.all Node.isExpression = true →
    Node.allOf (fun _ => true) (fits strict) args = true →
    Leaves strict G K [] (nodesCourse env args) (lowerArgs env byReference args)
      fun operands T' K' => (∀ x ∈ T', x.Known K') ∧ ∀ x ∈ operands, x.Known K'
  | _, [], _, _ => leaves_pure ⟨List.forall_mem_nil _, List.forall_mem_nil _⟩
  | byReference, arg :: rest, hv, hb => by
    obtain ⟨ha, hr⟩ := Bool.and_eq_true_iff.1 hv
    obtain ⟨hba, hbr⟩ := Bool.and_eq_true_iff.1 hb
    have behind {K : Set String} {o : Operand} {below : List Operand}
        (hk : ∀ x ∈ o :: below, x.Known K) :
        Leaves strict G K (o :: below) (nodesCourse env rest) (do
          let operand ← (Assembler.line (pop arg.span) : Draft Operand)
          let operands ← lowerArgs env byReference.tail rest
          pure (operand :: operands)) fun operands T' K' =>
            (∀ x ∈ T', x.Known K') ∧ ∀ x ∈ operands, x.Known K' := by
      obtain ⟨ho, hbelow⟩ := List.forall_mem_cons.1 hk
      refine .pop ((lowerArgs_leaves byReference.tail rest hr hbr).over.bind_skip ?_)
      rintro operands _ _ hK ⟨E, rfl, hE, hoperands⟩
      refine leaves_pure ⟨fun x hx => ?_, List.forall_mem_cons.2 ⟨ho.mono hK, hoperands⟩⟩
      exact (List.mem_append.1 hx).elim (hE x) fun h => (hbelow x h).mono hK
    rw [lowerArgs, nodesCourse]
    split
    · refine (lowerOperand_leaves .address arg hba ha).bind ?_
      rintro - _ _ - ⟨o, below, rfl, hk, -⟩
      exact behind hk
    · refine ((lowerNode_leaves arg hba).value ha).bind ?_
      rintro - _ _ - ⟨o, rfl, ho, -⟩
      exact behind (List.forall_mem_singleton.2 ho)

theorem lowerCondition_leaves {K : Set String} : (node : Node) → node.Fits strict →
    node.isExpression = true →
    Leaves strict G K [] (nodeCourse env node) (lowerCondition env node) fun v T' K' =>
      T' = [] ∧ v.Known K'
  | .mk kind span, h, he => by
    obtain ⟨hk, hb⟩ := Bool.and_eq_true_iff.1 h
    refine (Leaves.value (lowerKind_leaves span kind hk hb).node he).bind_skip ?_
    rintro - _ _ - ⟨o, rfl, ho, -⟩
    exact .pop (leaves_pure ⟨rfl, ho⟩)

theorem lowerArms_leaves {K : Set String} : (arms : List Arm) →
    (arms.all fun arm => arm.condition.all Node.isExpression) = true →
    Arm.allOf (fun _ => true) (fits strict) arms = true →
    List.Forall₂ (ArmLeaves strict G K) (lowerArms env arms) (armCourses env arms)
  | [], _, _ => .nil
  | .mk none body span :: rest, hv, hb => by
    obtain ⟨hbb, hbr⟩ := Bool.and_eq_true_iff.1 hb
    refine .cons (.always ?_) (lowerArms_leaves rest hv hbr)
    dsimp only
    split
    · exact .fault span _
    · exact (lowerNode_leaves body hbb).mono fun _ _ _ _ _ => trivial
  | .mk (some condition) body _ :: rest, hv, hb => by
    obtain ⟨hc, hr⟩ := Bool.and_eq_true_iff.1 hv
    obtain ⟨hb, hbr⟩ := Bool.and_eq_true_iff.1 hb
    obtain ⟨hbc, hbb⟩ := Bool.and_eq_true_iff.1 hb
    exact .cons (.when (lowerCondition_leaves condition hbc hc)
      ((lowerNode_leaves body hbb).mono fun _ _ _ _ _ => trivial)) (lowerArms_leaves rest hr hbr)

theorem lowerCases_leaves {K : Set String} : (cases : List Case) →
    Case.allOf (fun _ => true) (fits strict) cases = true →
    List.Forall₂ (CaseLeaves strict G K) (lowerCases env cases) (caseCourses env cases)
  | [], _ => .nil
  | .mk _ body _ :: rest, hb => by
    obtain ⟨hbb, hbr⟩ := Bool.and_eq_true_iff.1 hb
    exact .cons ⟨rfl, (lowerNode_leaves body hbb).mono fun _ _ _ _ _ => trivial⟩
      (lowerCases_leaves rest hbr)

theorem lowerDefault_leaves {K : Set String} : (otherwise : Option Node) →
    Node.allOf? (fun _ => true) (fits strict) otherwise = true →
    DefaultLeaves strict G K (lowerDefault env otherwise) (defaultCourse env otherwise)
  | none, _ => .none
  | some body, hb => .some ((lowerNode_leaves body hb).mono fun _ _ _ _ _ => trivial)

theorem lowerUpdate_leaves {K : Set String} : (update : Option Node) →
    Node.allOf? (fun _ => true) (fits strict) update = true →
    Leaves strict G K [] (updateCourse env update) (lowerUpdate env update) fun _ _ _ => True
  | none, _ => leaves_pure trivial
  | some update, hb =>
    ((lowerNode_leaves update hb).mono fun _ _ _ _ _ => trivial).dropping.mono
      fun _ _ _ _ _ => trivial

end

/-! ## Functions -/

/-- What the body of a function does. -/
def bodyCourse (f : Func) : Course := (f.body.map (nodeCourse env)).getD .skip

/-- The parameters are read where they are stored. -/
theorem yields_lowerParams {K : Set String} (params : List (String × Ty))
    (h : ∀ param ∈ params, param.1 ++ ".param" ∈ K) :
    Yields G K [] [] (lowerParams env params) fun _ T' _ => T' = [] := by
  induction params generalizing K with
  | nil => exact yields_pure rfl
  | cons param params ih =>
    obtain ⟨hparam, hparams⟩ := List.forall_mem_cons.1 h
    refine .given fun hG => .addSlot fun hslot => ?_
    refine (yields_store (Value.known_var.2 hparam) (Value.known_var.2 (hG hslot))).bind ?_
    rintro - _ _ hK ⟨rfl, -⟩
    refine (yields_bindLocal hslot).bind ?_
    rintro - _ _ hK' ⟨rfl, rfl⟩
    exact ih fun param hm => hK' (hK (hparams param hm))

/-- The walk over a function whose body has values where values belong. -/
theorem walkFunction_leaves {f : Func} {K : Set String}
    (hbody : ∀ body ∈ f.body, body.Fits strict)
    (hK : ∀ param ∈ f.params, param.1 ++ ".param" ∈ K) :
    Leaves strict G K [] (bodyCourse env f) (walkFunction env f) fun _ _ _ => True := by
  refine yields_pushScope.leaves.skip_bind ?_
  rintro - _ _ - ⟨rfl, rfl⟩
  refine (yields_lowerParams env f.params hK).leaves.skip_bind ?_
  rintro - _ _ - rfl
  rw [bodyCourse]
  cases hb : f.body with
  | none => exact leaves_fault f.span _
  | some body => exact (lowerNode_leaves env body (hbody body hb)).mono fun _ _ _ _ _ => trivial

/-- The names that a function has from the start. -/
def givenNames (f : Func) (slots : List Ir.Slot) : Set String :=
  {x | x ∈ f.params.map (·.1 ++ ".param") ∨ x ∈ slots.map Ir.Slot.name}

/-- The draft of a function that is lowered without an error reads only what is known, and follows
the course of the body. -/
theorem draftOf_follows {f : Func} {strings : List String} {debugInfo : Ir.DebugInfo}
    (hbody : ∀ body ∈ f.body, body.Fits strict)
    (h : (lowerFunction env f strings debugInfo).errors = []) :
    let d := draftOf env f strings debugInfo
    d.code.Safe (givenNames f d.notes.slots) ∧
      (strict = true → d.code.Follows (bodyCourse env f)) := by
  intro d
  have leaves : Leaves strict {x | x ∈ d.notes.slots.map Ir.Slot.name}
      (givenNames f d.notes.slots) [] (bodyCourse env f) (walkFunction env f) fun _ _ _ => True :=
    walkFunction_leaves env hbody fun param hm => .inl (List.mem_map_of_mem hm)
  obtain ⟨safe, follows, -⟩ := leaves false { strings, debugInfo } [] (fun _ hx => .inr hx) rfl
    (fun _ hm => nomatch hm) ((errors_lowerFunction env f strings debugInfo).1 h)
    fun slot hm => List.mem_map_of_mem hm
  exact ⟨safe, follows⟩

end Codegen.Lowering
