import Codegen.Proofs.Calls
import Codegen.Proofs.Defined

/-!
# What a walk leaves on the value stack

`Leaves` says of a walk that finds no fault what `Yields` says of a straight-line step: which
values it takes from the stack and leaves there, that its code reads only known names, and which
course its calls take.  There is one lemma for every way in which a walk is put together from
smaller ones, so that a statement about trees goes through by induction.
-/

namespace Codegen.Lowering

open Ir (Inst Value Readable extendAll)

variable {α β : Type}

/-- What a walk does that finds no fault: with `before` on top of the value stack it leaves other
values there, and its code reads what is known.  Where `strict`, the code follows the course. -/
def Leaves (strict : Bool) (slots known : Set String) (before : List Operand) (course : Course)
    (x : Draft α) (post : α → List Operand → Set String → Prop) : Prop :=
  ∀ inLoop n rest, slots ⊆ known → n.stack = before ++ rest → n.Bound slots →
    (x inLoop n).notes.faults = [] → (∀ slot ∈ (x inLoop n).notes.slots, slot.name ∈ slots) →
    (x inLoop n).code.Safe known ∧ (strict = true → (x inLoop n).code.Follows course) ∧
      (x inLoop n).names.Bound slots ∧ ∃ behind, (x inLoop n).names.stack = behind ++ rest ∧
        post (x inLoop n).value behind ((x inLoop n).code.after known)

section Leaves

variable {strict : Bool} {G K : Set String} {T : List Operand} {c d : Course}
  {post : α → List Operand → Set String → Prop} {post' : β → List Operand → Set String → Prop}

theorem Leaves.mono {x : Draft α} {post' : α → List Operand → Set String → Prop}
    (h : Leaves strict G K T c x post) (hp : ∀ a T' K', K ⊆ K' → post a T' K' → post' a T' K') :
    Leaves strict G K T c x post' := by
  intro l n S hG hs hb hf hsl
  obtain ⟨hsafe, hc, hb', T', hs', hpost⟩ := h l n S hG hs hb hf hsl
  exact ⟨hsafe, hc, hb', T', hs', hp _ _ _ (Code.subset_after _) hpost⟩

/-- What a walk does on an empty stack, it does on top of any other. -/
theorem Leaves.over {x : Draft α} (h : Leaves strict G K [] c x post) :
    Leaves strict G K T c x fun a T' K' => ∃ E, T' = E ++ T ∧ post a E K' := by
  intro l n S hG hs hb hf hsl
  obtain ⟨hsafe, hc, hb', E, hs', hpost⟩ := h l n (T ++ S) hG hs hb hf hsl
  exact ⟨hsafe, hc, hb', E ++ T, by rw [hs', List.append_assoc], E, rfl, hpost⟩

theorem Leaves.bind {x : Draft α} {f : α → Draft β} (hx : Leaves strict G K T c x post)
    (hf : ∀ a T' K', K ⊆ K' → post a T' K' → Leaves strict G K' T' d (f a) post') :
    Leaves strict G K T (c ++ d) (x >>= f) post' := by
  intro l n S hG hs hb hfaults hslots
  have walked : (x >>= f) l n =
    let first := x l n
    let second := f first.value l first.names
    ⟨second.value, second.names, first.code ++ second.code, first.notes ++ second.notes⟩ := rfl
  rw [walked] at hfaults hslots ⊢
  obtain ⟨hf₁, hf₂⟩ := List.append_eq_nil_iff.1 hfaults
  obtain ⟨hsafe, hc, hb', T', hs', hpost⟩ := hx l n S hG hs hb hf₁ fun slot h =>
    hslots slot (List.mem_append_left _ h)
  have hK : K ⊆ (x l n).code.after K := Code.subset_after _
  obtain ⟨hsafe₂, hd, hb₂, T₂, hs₂, hpost₂⟩ := hf _ T' _ hK hpost l (x l n).names S (hG.trans hK)
    hs' hb' hf₂ fun slot h => hslots slot (List.mem_append_right _ h)
  refine ⟨(Code.safe_append _ _ _).2 ⟨hsafe, hsafe₂⟩, fun h => (hc h).append (hd h), hb₂, T₂, hs₂,
    ?_⟩
  rw [Code.after_append]
  exact hpost₂

/-- A walk behind one that calls nothing. -/
theorem Leaves.skip_bind {x : Draft α} {f : α → Draft β} (hx : Leaves strict G K T .skip x post)
    (hf : ∀ a T' K', K ⊆ K' → post a T' K' → Leaves strict G K' T' c (f a) post') :
    Leaves strict G K T c (x >>= f) post' := hx.bind hf

/-- A walk behind which nothing is called. -/
theorem Leaves.bind_skip {x : Draft α} {f : α → Draft β} (hx : Leaves strict G K T c x post)
    (hf : ∀ a T' K', K ⊆ K' → post a T' K' → Leaves strict G K' T' .skip (f a) post') :
    Leaves strict G K T c (x >>= f) post' := by
  simpa only [Course.append_skip] using hx.bind hf

theorem leaves_pure {a : α} (h : post a T K) : Leaves strict G K T .skip (pure a) post :=
  fun _ _ _ _ hs hb _ _ => ⟨trivial, fun _ => Code.follows_done, hb, T, hs, h⟩

/-- A straight-line step with the calls that it makes. -/
theorem Yields.calling {step : Line α} {calls : List String} (h : Yields G K T calls step post) :
    Leaves strict G K T (.calls calls) (Assembler.line step) post := by
  intro l n S hG hs hb hf hsl
  obtain ⟨hr, hcalls, hb', T', hs', hpost⟩ := h n S hG hs hb hf hsl
  refine ⟨Code.safe_line.2 hr, fun _ => ?_, hb', T', hs', ?_⟩
  · rw [← hcalls]
    exact Code.follows_line (step n).insts
  · change post _ T' ((Code.line (step n).insts).after K)
    rw [Code.after_line]
    exact hpost

/-- A straight-line step that calls nothing. -/
theorem Yields.leaves {step : Line α} (h : Yields G K T [] step post) :
    Leaves strict G K T .skip (Assembler.line step) post := by
  simpa only [Course.calls_nil] using h.calling

theorem Leaves.pop {o : Operand} {span : Span} {f : Operand → Draft β}
    (h : Leaves strict G K T c (f o) post') :
    Leaves strict G K (o :: T) c (Assembler.line (Lowering.pop span) >>= f) post' := by
  refine yields_pop.leaves.skip_bind ?_
  rintro _ _ _ - ⟨rfl, rfl, rfl⟩
  exact h

theorem leaves_fault (span : Span) (f : Fault) {post : Unit → List Operand → Set String → Prop} :
    Leaves strict G K T c (Assembler.line (fault span f)) post := fun _ _ _ _ _ _ hf _ => nomatch hf

theorem Leaves.fault (span : Span) (f : Fault) {g : Unit → Draft β} :
    Leaves strict G K T c (Assembler.line (Lowering.fault span f) >>= g) post' := by
  intro l n _ _ _ _ hf _
  have : (f, span) :: (g () l n).notes.faults = [] := hf
  cases this

/-! ## Stack heights -/

/-- Without a fault, a balanced walk is the walk, and it leaves as many values as its kind asks
for. -/
theorem balanced_eq {kind : NodeKind} {span : Span} {x : Draft Unit} {l : Bool} {n : Names}
    (h : (balanced kind span x l n).notes.faults = []) :
    (x l n).names.stack.length = n.stack.length + (if kind.isExpression then 1 else 0) ∧
      balanced kind span x l n = x l n := by
  let expected := n.stack.length + if kind.isExpression then 1 else 0
  let mended := mend kind span expected (x l n).names.stack.length (x l n).names
  have walked : balanced kind span x l n =
    ⟨mended.value, mended.names, (x l n).code ++ .line mended.insts,
      (x l n).notes ++ mended.notes⟩ := rfl
  rw [walked] at h ⊢
  by_cases hne : (x l n).names.stack.length ≠ expected
  · have faulty : mended.notes.faults ≠ [] := by
      simp only [mended, mend, if_pos hne]
      exact List.cons_ne_nil _ _
    exact absurd (List.append_eq_nil_iff.1 h).2 faulty
  · have same : mended = ⟨(), (x l n).names, [], {}⟩ := by
      simp only [mended, mend, if_neg hne]
      rfl
    rw [same, Code.line_nil, Code.append_done, Notes.append_nil]
    exact ⟨not_not.1 hne, rfl⟩

/-- A balanced walk leaves as many values as its kind asks for. -/
theorem Leaves.balanced {x : Draft Unit} {post : Unit → List Operand → Set String → Prop}
    (kind : NodeKind) (span : Span) (h : Leaves strict G K T c x post) :
    Leaves strict G K T c (Lowering.balanced kind span x) fun a T' K' => post a T' K' ∧
      T'.length = T.length + if kind.isExpression then 1 else 0 := by
  intro l n S hG hs hb hf hsl
  obtain ⟨hlen, heq⟩ := balanced_eq hf
  rw [heq] at hf hsl ⊢
  obtain ⟨hsafe, hc, hb', T', hs', hpost⟩ := h l n S hG hs hb hf hsl
  refine ⟨hsafe, hc, hb', T', hs', hpost, ?_⟩
  rw [hs', hs, List.length_append, List.length_append] at hlen
  omega

/-- A walk whose values nobody takes changes only the stack of what the walk leaves behind. -/
theorem dropping_eq (x : Draft Unit) (l : Bool) (n : Names) :
    dropping x l n =
      ⟨(), { (x l n).names with
          stack := (x l n).names.stack.drop ((x l n).names.stack.length - n.stack.length) },
        (x l n).code, (x l n).notes⟩ := by
  have walked : dropping x l n =
    ⟨(), { (x l n).names with
        stack := (x l n).names.stack.drop ((x l n).names.stack.length - n.stack.length) },
      .done ++ ((x l n).code ++ .done), {} ++ ((x l n).notes ++ {})⟩ := rfl
  rw [walked, Notes.append_nil, Code.append_done]
  rfl

/-- A walk whose values nobody takes leaves the stack as it was. -/
theorem Leaves.dropping {x : Draft Unit} (h : Leaves strict G K [] c x fun _ _ _ => True) :
    Leaves strict G K [] c (Lowering.dropping x) fun _ T' _ => T' = [] := by
  intro l n S hG hs hb hf hsl
  rw [dropping_eq] at hf hsl ⊢
  obtain ⟨hsafe, hc, hb', T', hs', -⟩ := h l n S hG hs hb hf hsl
  refine ⟨hsafe, hc, hb', [], ?_, rfl⟩
  change (x l n).names.stack.drop _ = S
  rw [hs', hs]
  simp

/-! ## Control flow -/

theorem Leaves.guarded (isAnd : Bool) {cond : Value} {right : Draft Unit} (hc : cond.Known K)
    (h : Leaves strict G K T c right fun _ T' _ => T' = T) :
    Leaves strict G K T (.guard isAnd c) (Assembler.guarded isAnd cond right) fun _ T' K' =>
      T' = T ∧ K' = K := by
  intro l n S hG hs hb hf hsl
  obtain ⟨hsafe, hfollows, hb', T', hs', rfl⟩ := h l n S hG hs hb hf hsl
  exact ⟨⟨⟨hc, hsafe⟩, trivial⟩, fun h => (hfollows h).guard isAnd cond, hb', T', hs', rfl, rfl⟩

/-- What is asked of the walks over an arm. -/
inductive ArmLeaves (strict : Bool) (G K : Set String) :
    ArmWalk Draft → Option Course × Course → Prop where
  | always {body : Draft Unit} {b : Course}
      (hbody : Leaves strict G K [] b body fun _ _ _ => True) :
    ArmLeaves strict G K ⟨none, body⟩ (none, b)
  | when {check : Draft Value} {body : Draft Unit} {c b : Course}
      (hcheck : Leaves strict G K [] c check fun v T' K' => T' = [] ∧ v.Known K')
      (hbody : Leaves strict G K [] b body fun _ _ _ => True) :
    ArmLeaves strict G K ⟨some check, body⟩ (some c, b)

theorem leaves_arms {walks : List (ArmWalk Draft)} {courses : List (Option Course × Course)}
    (h : List.Forall₂ (ArmLeaves strict G K) walks courses) (hG : G ⊆ K) {l : Bool} {n : Names}
    (hb : n.Bound G) (hf : (Draft.arms l walks n).notes.faults = [])
    (hsl : ∀ slot ∈ (Draft.arms l walks n).notes.slots, slot.name ∈ G) :
    (Draft.arms l walks n).code.Safe K ∧
      (strict = true → (Draft.arms l walks n).code.Follows (.branch courses)) ∧
      (Draft.arms l walks n).names.Bound G ∧
      ∃ E, (Draft.arms l walks n).names.stack = E ++ n.stack := by
  induction h generalizing n with
  | nil => exact ⟨trivial, fun _ => Arms.follows_nil, hb, [], rfl⟩
  | cons hwalk _ ih =>
    cases hwalk with
    | always hbody =>
      obtain ⟨hf₁, hf₂⟩ := List.append_eq_nil_iff.1 hf
      obtain ⟨hsafe, hc, hb₁, E₁, hs₁, -⟩ := hbody l n n.stack hG rfl hb hf₁ fun slot hm =>
        hsl slot (List.mem_append_left _ hm)
      obtain ⟨hsafe₂, -, hb₂, E₂, hs₂⟩ := ih hb₁ hf₂ fun slot hm =>
        hsl slot (List.mem_append_right _ hm)
      exact ⟨⟨hsafe, hsafe₂⟩, fun h => Arms.follows_always (hc h) _ _, hb₂, E₂ ++ E₁,
        hs₂.trans (by rw [hs₁, List.append_assoc])⟩
    | when hcheck hbody =>
      obtain ⟨hf₁, hf₂⟩ := List.append_eq_nil_iff.1 hf
      obtain ⟨hf₀, hf₁⟩ := List.append_eq_nil_iff.1 hf₁
      obtain ⟨hsafe₀, hc₀, hb₀, _, hs₀, rfl, hv⟩ := hcheck l n n.stack hG rfl hb hf₀
        fun slot hm => hsl slot (List.mem_append_left _ (List.mem_append_left _ hm))
      obtain ⟨hsafe, hc, hb₁, E₁, hs₁, -⟩ := hbody l _ n.stack hG hs₀ hb₀ hf₁ fun slot hm =>
        hsl slot (List.mem_append_left _ (List.mem_append_right _ hm))
      obtain ⟨hsafe₂, hc₂, hb₂, E₂, hs₂⟩ := ih hb₁ hf₂ fun slot hm =>
        hsl slot (List.mem_append_right _ hm)
      exact ⟨⟨hsafe₀, hv, hsafe, hsafe₂⟩, fun h => (hc₂ h).when (hc₀ h) (hc h) _, hb₂, E₂ ++ E₁,
        hs₂.trans (by rw [hs₁, List.append_assoc])⟩

theorem leaves_branching {walks : List (ArmWalk Draft)}
    {courses : List (Option Course × Course)}
    (h : List.Forall₂ (ArmLeaves strict G K) walks courses) :
    Leaves strict G K [] (.branch courses) (Assembler.branching walks) fun _ _ _ => True := by
  intro l n S hG hs hb hf hsl
  obtain ⟨hsafe, hc, hb', E, hs'⟩ := leaves_arms h hG hb hf hsl
  exact ⟨⟨hsafe, trivial⟩, fun h => (hc h).branch, hb', E, hs'.trans (congrArg (E ++ ·) hs),
    trivial⟩

/-- What is asked of the walk over a case. -/
def CaseLeaves (strict : Bool) (G K : Set String) (walk : Int × Draft Unit)
    (course : Int × Course) : Prop :=
  walk.1 = course.1 ∧ Leaves strict G K [] course.2 walk.2 fun _ _ _ => True

/-- What is asked of the walk over a default. -/
abbrev DefaultLeaves (strict : Bool) (G K : Set String) :
    Option (Draft Unit) → Option Course → Prop :=
  Option.Rel fun body course => Leaves strict G K [] course body fun _ _ _ => True

theorem leaves_cases {walks : List (Int × Draft Unit)} {otherwise : Option (Draft Unit)}
    {courses : List (Int × Course)} {course? : Option Course}
    (h : List.Forall₂ (CaseLeaves strict G K) walks courses)
    (ho : DefaultLeaves strict G K otherwise course?) (hG : G ⊆ K) {l : Bool} {n : Names}
    (hb : n.Bound G) (hf : (Draft.cases l otherwise walks n).notes.faults = [])
    (hsl : ∀ slot ∈ (Draft.cases l otherwise walks n).notes.slots, slot.name ∈ G) :
    (Draft.cases l otherwise walks n).code.Safe K ∧
      (strict = true → (Draft.cases l otherwise walks n).code.Follows courses course?) ∧
      (Draft.cases l otherwise walks n).names.Bound G ∧
      ∃ E, (Draft.cases l otherwise walks n).names.stack = E ++ n.stack := by
  induction h generalizing n with
  | nil =>
    cases ho with
    | none => exact ⟨trivial, fun _ => Cases.follows_nil, hb, [], rfl⟩
    | some hbody =>
      obtain ⟨hsafe, hc, hb', E, hs', -⟩ := hbody l n n.stack hG rfl hb hf hsl
      exact ⟨hsafe, fun h => Cases.follows_otherwise (hc h), hb', E, hs'⟩
  | @cons walk course _ _ hwalk _ ih =>
    obtain ⟨value, body⟩ := walk
    obtain ⟨_, b⟩ := course
    obtain ⟨rfl, hbody⟩ := hwalk
    obtain ⟨hf₁, hf₂⟩ := List.append_eq_nil_iff.1 hf
    obtain ⟨hsafe, hc, hb₁, E₁, hs₁, -⟩ := hbody l n n.stack hG rfl hb hf₁ fun slot hm =>
      hsl slot (List.mem_append_left _ hm)
    obtain ⟨hsafe₂, hc₂, hb₂, E₂, hs₂⟩ := ih hb₁ hf₂ fun slot hm =>
      hsl slot (List.mem_append_right _ hm)
    exact ⟨⟨hsafe, hsafe₂⟩, fun h => (hc₂ h).case (hc h) value, hb₂, E₂ ++ E₁,
      hs₂.trans (by rw [hs₁, List.append_assoc])⟩

theorem leaves_switching {value : Value} (type : String) {walks : List (Int × Draft Unit)}
    {otherwise : Option (Draft Unit)} {courses : List (Int × Course)} {course? : Option Course}
    (hv : value.Known K) (h : List.Forall₂ (CaseLeaves strict G K) walks courses)
    (ho : DefaultLeaves strict G K otherwise course?) :
    Leaves strict G K T (.switch courses course?) (Assembler.switching value type walks otherwise)
      fun _ _ _ => True := by
  intro l n S hG hs hb hf hsl
  obtain ⟨hsafe, hc, hb', E, hs'⟩ := leaves_cases h ho hG hb hf hsl
  exact ⟨⟨⟨hv, hsafe⟩, trivial⟩, fun h => (hc h).switch value type, hb', E ++ T,
    hs'.trans (by rw [hs, List.append_assoc]), trivial⟩

theorem leaves_looping {check : Draft Value} {body update : Draft Unit} {c b u : Course}
    (hcheck : Leaves strict G K [] c check fun v T' K' => T' = [] ∧ v.Known K')
    (hbody : Leaves strict G K [] b body fun _ _ _ => True)
    (hupdate : Leaves strict G K [] u update fun _ _ _ => True)
    (hc : strict = true → c.Stays) (hu : strict = true → u.Stays) :
    Leaves strict G K [] (.loop c b u) (Assembler.looping check body update)
      fun _ _ _ => True := by
  intro l n S hG hs hb hf hsl
  obtain ⟨hf₁, hf₂⟩ := List.append_eq_nil_iff.1 hf
  obtain ⟨hf₀, hf₁⟩ := List.append_eq_nil_iff.1 hf₁
  obtain ⟨hsafe₀, hc₀, hb₀, _, hs₀, rfl, hv⟩ := hcheck true n S hG hs hb hf₀ fun slot hm =>
    hsl slot (List.mem_append_left _ (List.mem_append_left _ hm))
  obtain ⟨hsafe₁, hc₁, hb₁, E₁, hs₁, -⟩ := hbody true _ S hG hs₀ hb₀ hf₁ fun slot hm =>
    hsl slot (List.mem_append_left _ (List.mem_append_right _ hm))
  obtain ⟨hsafe₂, hc₂, hb₂, E₂, hs₂, -⟩ := hupdate true _ (E₁ ++ S) hG hs₁ hb₁ hf₂ fun slot hm =>
    hsl slot (List.mem_append_right _ hm)
  exact ⟨⟨⟨hsafe₀, hv, hsafe₁, hsafe₂⟩, trivial⟩,
    fun h => (hc₀ h).loop (hc₁ h) (hc₂ h) (hc h) (hu h) _, hb₂, E₂ ++ E₁,
    hs₂.trans (List.append_assoc _ _ _).symm, trivial⟩

theorem leaves_jumping (kind : Jump) (span : Span) :
    Leaves strict G K [] kind.course (Assembler.jumping kind span) fun _ _ _ => True := by
  intro l n S _ hs hb hf _
  have safe (k : Set String) : kind.step.Safe k := by cases kind <;> trivial
  cases l with
  | false => cases hf
  | true => exact ⟨⟨safe _, trivial⟩, fun _ => Code.follows_jump kind, hb, [], hs, trivial⟩

theorem leaves_returning (type : String) {value : Option Value} (h : ∀ v ∈ value, v.Known K) :
    Leaves strict G K T .stop (Assembler.returning type value) fun _ _ _ => True :=
  fun _ _ _ _ hs hb _ _ =>
    ⟨⟨h, trivial⟩, fun _ => Code.follows_ret type value, hb, T, hs, trivial⟩

/-! ## Nodes -/

/-- What a chain leaves at any of its links: values that are known, with what it has reached on
top and the receiver of a method below that. -/
def Chained (sketch : Operand) (T : List Operand) (K : Set String) : Prop :=
  ∃ o below, T = o :: below ∧ (∀ x ∈ T, x.Known K) ∧ o.sketch = sketch ∧
    (o.kind = .method → below ≠ [])

/-- What a node leaves: one value, if it is an expression. -/
def NodeLeft (isExpression : Bool) (sketch : Operand) (T : List Operand) (K : Set String) : Prop :=
  if isExpression then ∃ o, T = [o] ∧ o.Known K ∧ o.sketch = sketch ∧ o.kind ≠ .method else T = []

theorem Tops.chained {sketch : Operand} {T T' : List Operand} (h : Tops sketch T T' K)
    (hT : ∀ x ∈ T, x.Known K) (hm : sketch.kind = .method → T ≠ []) : Chained sketch T' K := by
  obtain ⟨o, rfl, ho, rfl⟩ := h
  exact ⟨o, T, rfl, List.forall_mem_cons.2 ⟨ho, hT⟩, rfl, fun hk => hm (o.sketch_kind.trans hk)⟩

theorem Reaches.chained {sketch : Operand} {T T' : List Operand} (h : Reaches sketch T T' K)
    (hT : ∀ x ∈ T, x.Known K) : Chained sketch T' K := by
  obtain ⟨o, below, rfl, ho, hbelow, hs, hm⟩ := h
  refine ⟨o, below ++ T, rfl, List.forall_mem_cons.2 ⟨ho, ?_⟩, hs, fun hk => ?_⟩
  · exact fun x hx => (List.mem_append.1 hx).elim (hbelow x) (hT x)
  · exact List.append_ne_nil_of_left_ne_nil (hm hk) _

theorem Chained.nodeLeft {sketch : Operand} {T : List Operand} (h : Chained sketch T K)
    (hl : T.length = 1) : NodeLeft true sketch T K := by
  obtain ⟨o, below, rfl, hk, hs, hm⟩ := h
  obtain rfl : below = [] := List.length_eq_zero_iff.1 (Nat.succ.inj hl)
  exact ⟨o, rfl, hk o List.mem_cons_self, hs, fun h => hm h rfl⟩

/-- A walk over a kind of node, balanced. -/
theorem Leaves.node {x : Draft Unit} {kind : NodeKind} {span : Span} {sketch : Operand}
    (h : Leaves strict G K [] c x fun _ T' K' => kind.isExpression = true → Chained sketch T' K') :
    Leaves strict G K [] c (Lowering.balanced kind span x) fun _ T' K' =>
      NodeLeft kind.isExpression sketch T' K' := by
  refine (h.balanced kind span).mono ?_
  rintro - T' K' - ⟨hleft, hlen⟩
  cases he : kind.isExpression with
  | true =>
    rw [he] at hlen
    exact (hleft he).nodeLeft hlen
  | false =>
    rw [he] at hlen
    exact List.length_eq_zero_iff.1 hlen

/-- A node that is an expression puts one value on the stack. -/
theorem Leaves.value {x : Draft Unit} {isExpression : Bool} {sketch : Operand}
    (h : Leaves strict G K [] c x fun _ T' K' => NodeLeft isExpression sketch T' K')
    (he : isExpression = true) :
    Leaves strict G K T c x fun _ T' K' =>
      ∃ o, T' = o :: T ∧ o.Known K' ∧ o.sketch = sketch ∧ o.kind ≠ .method := by
  subst he
  refine h.over.mono ?_
  rintro _ _ _ - ⟨_, rfl, o, rfl, ho, hs, hm⟩
  exact ⟨o, rfl, ho, hs, hm⟩

/-- A value that stands on its own. -/
theorem leaves_push {o : Operand} (h : o.Known K) (hm : o.kind ≠ .method) :
    Leaves strict G K [] .skip (Assembler.line (push o)) fun _ T' K' =>
      Chained o.sketch T' K' := by
  have pushed : Yields G K [] [] (push o) fun _ T' K' => Tops o.sketch [] T' K' :=
    yields_push ⟨o, rfl, h, rfl⟩
  exact pushed.leaves.mono fun _ _ _ _ ht =>
    ht.chained (List.forall_mem_nil _) fun hk => absurd (o.sketch_kind.symm.trans hk) hm

/-- A step that takes its operands from the stack and puts one value there. -/
theorem Yields.leaves_var {step : Line Unit} {type : Ty}
    (h : Yields G K [] [] step fun _ T' K' => Tops (.var "" type) [] T' K') :
    Leaves strict G K [] .skip (Assembler.line step) fun _ T' K' =>
      Chained (.var "" type) T' K' :=
  h.leaves.mono fun _ _ _ _ ht => ht.chained (List.forall_mem_nil _) fun hk => nomatch hk

theorem identifierSketch_kind (env : Env) (type : Ty) :
    (identifierSketch env type).kind ≠ .method := by
  rw [identifierSketch, globalSketch]
  split
  · cases env.symbols.kindOf type <;> simp [Operand.nil]
  · simp [Operand.var]

theorem resultSketch_kind (type : Ty) : (resultSketch type).kind ≠ .method := by
  rw [resultSketch]
  split <;> simp [Operand.nil, Operand.var]

theorem finished_kind {mode : Mode} {endsWithCall : Bool} {o : Operand}
    (h : (finished mode endsWithCall o).kind = .method) : o.kind = .method := by
  revert h
  unfold finished reachedSketch settled
  cases mode <;> dsimp only <;> split_ifs <;> simp [Operand.var]

end Leaves

end Codegen.Lowering
