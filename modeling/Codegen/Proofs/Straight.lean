import Codegen.Lowering.Control
import Codegen.Proofs.Known
import Codegen.Proofs.Sketch

/-!
# What straight-line steps do to the value stack

`Yields` says of a straight-line step that it finds no fault: which values it takes from the stack
and which ones it leaves there, that its instructions read only known names, and which functions it
calls.  There is one lemma for every step that the walk over a body takes between two nodes.
-/

namespace Codegen.Ir

/-- The function that an instruction calls. -/
def Inst.callee? : Inst → Option String
  | .call name .. => some name
  | _ => none

end Codegen.Ir

namespace Codegen.Lowering

open Ir (Inst Value Readable extendAll)

variable {α β : Type}

/-- An operand that can be read when `known` are the names so far. -/
abbrev Operand.Known (known : Set String) (operand : Operand) : Prop := operand.value.Known known

/-- A value of the given type that a known name holds. -/
def Operand.IsVar (known : Set String) (type : Ty) (operand : Operand) : Prop :=
  ∃ x ∈ known, operand = .var x type

/-- All locals in scope are bound to slots of the function. -/
def Names.Bound (slots : Set String) (n : Names) : Prop :=
  ∀ scope ∈ n.scopes, ∀ binding ∈ scope, binding.2 ∈ slots

/-- What a step does that finds no fault: with `before` on top of the value stack it leaves other
values there, its instructions read what is known, and it calls the given functions. -/
def Yields (slots known : Set String) (before : List Operand) (calls : List String) (step : Line α)
    (post : α → List Operand → Set String → Prop) : Prop :=
  ∀ n rest, slots ⊆ known → n.stack = before ++ rest → n.Bound slots →
    (step n).notes.faults = [] → (∀ slot ∈ (step n).notes.slots, slot.name ∈ slots) →
    Readable known (step n).insts ∧ (step n).insts.filterMap Inst.callee? = calls ∧
      (step n).names.Bound slots ∧ ∃ behind, (step n).names.stack = behind ++ rest ∧
        post (step n).value behind (extendAll known (step n).insts)

section Yields

variable {G K : Set String} {T : List Operand} {calls : List String}
  {post : α → List Operand → Set String → Prop} {post' : β → List Operand → Set String → Prop}

theorem Yields.mono {step : Line α} {post' : α → List Operand → Set String → Prop}
    (h : Yields G K T calls step post) (hp : ∀ a T' K', K ⊆ K' → post a T' K' → post' a T' K') :
    Yields G K T calls step post' := by
  intro n S hG hs hb hf hsl
  obtain ⟨hr, hc, hb', T', hs', hpost⟩ := h n S hG hs hb hf hsl
  exact ⟨hr, hc, hb', T', hs', hp _ _ _ (Ir.subset_extendAll _) hpost⟩

theorem Yields.append {x : Line α} {f : α → Line β} {calls' : List String}
    (hx : Yields G K T calls x post)
    (hf : ∀ a T' K', K ⊆ K' → post a T' K' → Yields G K' T' calls' (f a) post') :
    Yields G K T (calls ++ calls') (x >>= f) post' := by
  intro n S hG hs hb hfaults hslots
  have walked : (x >>= f) n =
    let first := x n
    let second := f first.value first.names
    ⟨second.value, second.names, first.insts ++ second.insts, first.notes ++ second.notes⟩ := rfl
  rw [walked] at hfaults hslots ⊢
  obtain ⟨hf₁, hf₂⟩ := List.append_eq_nil_iff.1 hfaults
  obtain ⟨hr, hc, hb', T', hs', hpost⟩ := hx n S hG hs hb hf₁ fun slot h =>
    hslots slot (List.mem_append_left _ h)
  have hK : K ⊆ extendAll K (x n).insts := Ir.subset_extendAll _
  obtain ⟨hr₂, hc₂, hb₂, T₂, hs₂, hpost₂⟩ := hf _ T' _ hK hpost (x n).names S (hG.trans hK) hs' hb'
    hf₂ fun slot h => hslots slot (List.mem_append_right _ h)
  refine ⟨Ir.readable_append.2 ⟨hr, hr₂⟩, ?_, hb₂, T₂, hs₂, ?_⟩
  · rw [List.filterMap_append, hc, hc₂]
  · rw [Ir.extendAll_append]
    exact hpost₂

theorem Yields.bind {x : Line α} {f : α → Line β} (hx : Yields G K T [] x post)
    (hf : ∀ a T' K', K ⊆ K' → post a T' K' → Yields G K' T' calls (f a) post') :
    Yields G K T calls (x >>= f) post' := hx.append hf

/-- A step behind which nothing is called. -/
theorem Yields.bind_quiet {x : Line α} {f : α → Line β} (hx : Yields G K T calls x post)
    (hf : ∀ a T' K', K ⊆ K' → post a T' K' → Yields G K' T' [] (f a) post') :
    Yields G K T calls (x >>= f) post' := by
  simpa only [List.append_nil] using hx.append hf

theorem Yields.given {step : Line α} (h : G ⊆ K → Yields G K T calls step post) :
    Yields G K T calls step post := fun n S hG => h hG n S hG

theorem yields_pure {a : α} (h : post a T K) : Yields G K T [] (pure a) post :=
  fun _ _ _ hs hb _ _ => ⟨trivial, rfl, hb, T, hs, h⟩

theorem Yields.pure {a : α} {f : α → Line β} (h : Yields G K T calls (f a) post') :
    Yields G K T calls (Pure.pure a >>= f) post' := h

theorem yields_fault (span : Span) (f : Fault) {post : Unit → List Operand → Set String → Prop} :
    Yields G K T calls (fault span f) post := fun _ _ _ _ _ hf _ => nomatch hf

/-- A fault stays one whatever follows it. -/
theorem Yields.fault (span : Span) (f : Fault) {g : Unit → Line β} :
    Yields G K T calls (Lowering.fault span f >>= g) post' := by
  intro n _ _ _ _ hf _
  have : (f, span) :: (g () n).notes.faults = [] := hf
  cases this

/-- A step that neither touches the stack nor the locals. -/
theorem Yields.of_stack_eq {step : Line α} (hs : ∀ n, (step n).names.stack = n.stack)
    (hb : ∀ n, (step n).names.scopes = n.scopes) (hi : ∀ n, (step n).insts = [])
    (h : ∀ n, (∀ slot ∈ (step n).notes.slots, slot.name ∈ G) → post (step n).value T K) :
    Yields G K T [] step post := by
  intro n S _ hn hbn _ hsl
  rw [hi]
  refine ⟨trivial, rfl, ?_, T, (hs n).trans hn, h n hsl⟩
  rw [Names.Bound, hb n]
  exact hbn

theorem Yields.temp {f : String → Line β} (h : ∀ x, Yields G K T calls (f x) post') :
    Yields G K T calls (Lowering.temp >>= f) post' := by
  have same : Yields G K T [] Lowering.temp fun _ T' K' => T' = T ∧ K' = K :=
    .of_stack_eq (fun _ => rfl) (fun _ => rfl) (fun _ => rfl) fun _ _ => ⟨rfl, rfl⟩
  refine same.bind ?_
  rintro x _ _ - ⟨rfl, rfl⟩
  exact h x

theorem Yields.addSlot {name type : String} {f : Unit → Line β}
    (h : name ∈ G → Yields G K T calls (f ()) post') :
    Yields G K T calls (Lowering.addSlot name type >>= f) post' := by
  have same : Yields G K T [] (Lowering.addSlot name type) fun _ T' K' =>
      name ∈ G ∧ T' = T ∧ K' = K :=
    .of_stack_eq (fun _ => rfl) (fun _ => rfl) (fun _ => rfl) fun _ hsl =>
      ⟨hsl _ (List.mem_singleton_self _), rfl, rfl⟩
  refine same.bind ?_
  rintro - _ _ - ⟨hG, rfl, rfl⟩
  exact h hG

theorem yields_emit {inst : Inst} {post : Unit → List Operand → Set String → Prop}
    (hr : ∀ v ∈ inst.reads, v.Known K) (h : post () T (inst.extend K)) :
    Yields G K T inst.callee?.toList (emit inst) post := by
  intro n S _ hs hb _ _
  refine ⟨⟨hr, trivial⟩, ?_, hb, T, hs, h⟩
  change [inst].filterMap Inst.callee? = _
  cases hc : inst.callee? <;> simp [hc]

/-- An instruction that calls nothing. -/
theorem Yields.emit {inst : Inst} {f : Unit → Line β} (hr : ∀ v ∈ inst.reads, v.Known K)
    (hc : inst.callee? = none) (h : Yields G (inst.extend K) T calls (f ()) post') :
    Yields G K T calls (Lowering.emit inst >>= f) post' := by
  have emitted : Yields G K T inst.callee?.toList (Lowering.emit inst) fun _ T' K' =>
    T' = T ∧ K' = inst.extend K := yields_emit hr ⟨rfl, rfl⟩
  rw [hc] at emitted
  refine emitted.bind ?_
  rintro - _ _ - ⟨rfl, rfl⟩
  exact h

theorem yields_push {o : Operand} {post : Unit → List Operand → Set String → Prop}
    (h : post () (o :: T) K) : Yields G K T [] (push o) post :=
  fun _ _ _ hs hb _ _ => ⟨trivial, rfl, hb, o :: T, congrArg (o :: ·) hs, h⟩

theorem yields_pop {o : Operand} {span : Span} :
    Yields G K (o :: T) [] (pop span) fun a T' K' => a = o ∧ T' = T ∧ K' = K := by
  intro n S _ hs hb _ _
  obtain ⟨⟩ := n
  cases hs
  exact ⟨trivial, rfl, hb, T, rfl, rfl, rfl, rfl⟩

theorem Yields.pop {o : Operand} {span : Span} {f : Operand → Line β}
    (h : Yields G K T calls (f o) post') :
    Yields G K (o :: T) calls (Lowering.pop span >>= f) post' := by
  refine yields_pop.bind ?_
  rintro _ _ _ - ⟨rfl, rfl, rfl⟩
  exact h

/-! ## Locations -/

theorem Operand.IsVar.known {type : Ty} {o : Operand} (h : o.IsVar K type) : o.Known K := by
  obtain ⟨x, hx, rfl⟩ := h
  exact Value.known_var.2 hx

theorem Operand.IsVar.sketch {type : Ty} {o : Operand} (h : o.IsVar K type) :
    o.sketch = .var "" type := by
  obtain ⟨x, -, rfl⟩ := h
  rfl

theorem Operand.IsVar.mono {K' : Set String} {type : Ty} {o : Operand} (h : o.IsVar K type)
    (hK : K ⊆ K') : o.IsVar K' type := h.imp fun _ hx => ⟨hK hx.1, hx.2⟩

theorem yields_hiddenSlot (type : String) :
    Yields G K T [] (hiddenSlot type) fun x T' K' => T' = T ∧ x ∈ K' := by
  refine .given fun hGK => .temp fun x => .addSlot fun hG => .emit ?_ rfl (yields_pure ⟨rfl, ?_⟩)
  · simpa [Inst.reads] using hGK hG
  · simp [Inst.extend, Inst.defines]

variable {env : Env}

theorem yields_load {location : Operand} (h : location.Known K) :
    Yields G K T [] (load env location) fun o T' K' => T' = T ∧ o.IsVar K' location.type.pointee :=
  .temp fun x => .emit (by simpa [Inst.reads] using h) rfl <|
    yields_pure ⟨rfl, x, by simp [Inst.extend, Inst.defines, Value.name?], rfl⟩

theorem yields_decay {location : Operand} (h : location.Known K) :
    Yields G K T [] (decay env location) fun o T' K' =>
      T' = T ∧ o.IsVar K' (decayed location.type) :=
  .temp fun x => .emit (by simpa [Inst.reads] using h) rfl <|
    yields_pure ⟨rfl, x, by simp [Inst.extend, Inst.defines, Value.name?], rfl⟩

theorem yields_loadOrDecay {location : Operand} (h : location.Known K) :
    Yields G K T [] (loadOrDecay env location) fun o T' K' =>
      T' = T ∧ o.IsVar K' (loadedType location.type) := by
  rw [loadOrDecay, loadedType]
  split
  · exact yields_decay h
  · exact yields_load h

theorem Yields.withTop {o : Operand} {a : β} {f : Operand → Line β}
    (h : Yields G K T calls (f o) post') :
    Yields G K (o :: T) calls (Lowering.withTop a f) post' := by
  intro n S hG hs hb hf hsl
  obtain ⟨⟩ := n
  cases hs
  exact h ⟨_, _, _, _, _, _, T ++ S⟩ S hG rfl hb hf hsl

@[simp]
theorem Operand.sketch_type (o : Operand) : o.sketch.type = o.type := by
  rw [Operand.sketch]
  split <;> rfl

@[simp]
theorem Operand.sketch_kind (o : Operand) : o.sketch.kind = o.kind := by
  rw [Operand.sketch]
  split
  · rename_i h
    exact (of_decide_eq_true h).symm
  · rfl

/-- A value on top of the stack that is known and stands for the given operand. -/
def Tops (sketch : Operand) (T T' : List Operand) (K : Set String) : Prop :=
  ∃ o, T' = o :: T ∧ o.Known K ∧ o.sketch = sketch

theorem Tops.of_isVar {o : Operand} {type : Ty} (h : o.IsVar K type) :
    Tops (.var "" type) T (o :: T) K := ⟨o, rfl, h.known, h.sketch⟩

theorem tops_pushVar {x : String} (hx : x ∈ K) (type : Ty) :
    Yields G K T [] (pushVar x type) fun _ T' K' => Tops (.var "" type) T T' K' :=
  yields_push ⟨_, rfl, Value.known_var.2 hx, rfl⟩

theorem yields_dereference {o : Operand} (h : o.Known K) :
    Yields G K (o :: T) [] (dereference env) fun a T' K' => a = o.type.isReference ∧
      Tops (settled o.sketch) T T' K' := by
  refine .withTop ?_
  rw [settled, Operand.sketch_type]
  cases o.type.isReference with
  | true =>
    refine .temp fun x => .emit (by simpa [Inst.reads] using h) rfl ?_
    refine (tops_pushVar (by simp [Inst.extend, Inst.defines, Value.name?]) _).bind ?_
    intro _ _ _ _ ht
    exact yields_pure ⟨rfl, ht⟩
  | false =>
    have pushed : Yields G K T [] (push o) fun _ T' K' => Tops o.sketch T T' K' :=
      yields_push ⟨o, rfl, h, rfl⟩
    refine pushed.bind ?_
    intro _ _ _ _ ht
    exact yields_pure ⟨rfl, ht⟩

theorem isLocation_sketch (o : Operand) : isLocation o.sketch = isLocation o := by
  simp [isLocation, Operand.isVar]

theorem yields_reached {o : Operand} (h : o.Known K) (mode : Mode) (isResult : Bool) :
    Yields G K T [] (reached env mode isResult o) fun a T' K' => T' = T ∧ a.Known K' ∧
      a.sketch = reachedSketch mode isResult o.sketch := by
  unfold reached reachedSketch
  rw [isLocation_sketch, Operand.sketch_type]
  split
  · cases mode with
    | address =>
      dsimp only
      split
      · exact (yields_load h).mono fun _ _ _ _ hp => ⟨hp.1, hp.2.known, hp.2.sketch⟩
      · exact yields_pure ⟨rfl, h, rfl⟩
    | value => exact (yields_loadOrDecay h).mono fun _ _ _ _ hp => ⟨hp.1, hp.2.known, hp.2.sketch⟩
  · exact yields_pure ⟨rfl, h, rfl⟩

theorem yields_finishChain {o : Operand} (h : o.Known K) (mode : Mode) (endsWithCall : Bool) :
    Yields G K (o :: T) [] (finishChain env mode endsWithCall) fun _ T' K' =>
      Tops (finished mode endsWithCall o.sketch) T T' K' := by
  refine (yields_dereference h).bind ?_
  rintro _ _ _ - ⟨rfl, o', rfl, ho', hsk⟩
  refine .withTop ((yields_reached ho' mode _).bind ?_)
  rintro a _ _ - ⟨rfl, ha, hs⟩
  refine yields_push ⟨a, rfl, ha, ?_⟩
  rw [hs, hsk, finished, Operand.sketch_type]

/-! ## Heads -/

theorem yields_findLocal (name : String) :
    Yields G K T [] (findLocal name) fun a T' K' => T' = T ∧ K' = K ∧ ∀ slot ∈ a, slot ∈ G := by
  intro n S _ hs hb _ _
  refine ⟨trivial, rfl, hb, T, hs, rfl, rfl, fun slot hslot => ?_⟩
  obtain ⟨scope, hscope, hl⟩ := List.exists_of_findSome?_eq_some hslot
  obtain ⟨l₁, l₂, rfl, -⟩ := List.lookup_eq_some_iff.1 hl
  exact hb _ hscope (name, slot) (List.mem_append_right _ List.mem_cons_self)

theorem yields_localOperand (name : String) (type : Ty) (span : Span) :
    Yields G K T [] (localOperand name type span) fun o T' K' =>
      T' = T ∧ o.IsVar K' type.notArray.pointer := by
  refine .given fun hG => (yields_findLocal name).bind ?_
  rintro a _ _ - ⟨rfl, rfl, ha⟩
  cases a with
  | some slot => exact yields_pure ⟨rfl, slot, hG (ha slot rfl), rfl⟩
  | none => exact .fault span _

theorem yields_globalOperand (type : Ty) (span : Span) :
    Yields G K T [] (globalOperand env type span) fun o T' K' =>
      T' = T ∧ o.Known K' ∧ o.sketch = globalSketch env type := by
  rw [globalOperand, globalSketch]
  cases env.symbols.kindOf type with
  | unknown => exact .fault span _
  | _ => exact yields_pure ⟨rfl, Value.known_null _, rfl⟩

theorem yields_pushIdentifier (name : String) (type : Ty) (span : Span) :
    Yields G K T [] (pushIdentifier env name type span) fun _ T' K' =>
      Tops (identifierSketch env type) T T' K' := by
  rw [pushIdentifier, identifierSketch]
  split
  · refine (yields_globalOperand type span).bind ?_
    rintro o _ _ - ⟨rfl, ho, hs⟩
    exact yields_push ⟨o, rfl, ho, hs⟩
  · refine (yields_localOperand name type span).bind ?_
    rintro o _ _ - ⟨rfl, ho⟩
    exact yields_push (.of_isVar ho)

/-! ## Links -/

theorem yields_pushElement {location index : Operand} (hl : location.Known K) (hi : index.Known K)
    (type : Ty) :
    Yields G K T [] (pushElement env type location index) fun _ T' K' =>
      Tops (.var "" type.pointer) T T' K' := by
  refine (yields_loadOrDecay hl).bind ?_
  rintro base _ _ hK ⟨rfl, hb⟩
  refine .temp fun x => .emit ?_ rfl
    (tops_pushVar (by simp [Inst.extend, Inst.defines, Value.name?]) _)
  simpa [Inst.reads] using ⟨hb.known, Value.Known.mono hi hK⟩

theorem yields_fieldAddress {location : Operand} (h : location.Known K) (structType : String)
    (index : Nat) :
    Yields G K T [] (fieldAddress location structType index) fun x T' K' => T' = T ∧ x ∈ K' :=
  .temp fun x => .emit (by simpa [Inst.reads] using h) rfl <|
    yields_pure ⟨rfl, by simp [Inst.extend, Inst.defines, Value.name?]⟩

theorem yields_unionPayload {location : Operand} (h : location.Known K) (unionType member : Ty)
    (span : Span) :
    Yields G K T [] (unionPayload env location unionType member span) fun x T' K' =>
      T' = T ∧ x ∈ K' := by
  rw [unionPayload]
  cases (env.layouts.union? unionType).bind UnionLayout.widest with
  | none => exact .fault span _
  | some widest =>
    refine .pure ((yields_fieldAddress h _ 1).bind ?_)
    rintro raw _ _ - ⟨rfl, hraw⟩
    refine .temp fun x => .emit (by simpa [Inst.reads] using hraw) rfl ?_
    exact yields_pure ⟨rfl, by simp [Inst.extend, Inst.defines, Value.name?]⟩

/-- The values that a link of a chain leaves.  A method has its receiver below it. -/
def Reaches (sketch : Operand) (T T' : List Operand) (K : Set String) : Prop :=
  ∃ o below, T' = o :: (below ++ T) ∧ o.Known K ∧ (∀ r ∈ below, r.Known K) ∧ o.sketch = sketch ∧
    (o.kind = .method → below ≠ [])

theorem Tops.reaches {sketch : Operand} {T' : List Operand} (h : Tops sketch T T' K)
    (hm : sketch.kind ≠ .method) : Reaches sketch T T' K := by
  obtain ⟨o, rfl, ho, rfl⟩ := h
  exact ⟨o, [], rfl, ho, List.forall_mem_nil _, rfl, fun hk => absurd (o.sketch_kind.trans hk) hm⟩

theorem yields_pushMethod {receiver : Operand} (h : receiver.Known K) (aggregate : Ty)
    (name : String) (type : Ty) :
    Yields G K T [] (pushMethod receiver aggregate name type) fun _ T' K' =>
      Reaches ⟨.method, aggregate.fullPath ++ "." ++ name, type⟩ T T' K' := by
  have pushed : Yields G K T [] (push receiver) fun _ T' K' => T' = receiver :: T ∧ K' = K :=
    yields_push ⟨rfl, rfl⟩
  refine pushed.bind ?_
  rintro - _ _ - ⟨rfl, rfl⟩
  exact yields_push ⟨_, [receiver], rfl, Value.known_null _, by simpa using h, rfl, by simp⟩

theorem yields_primitiveMember {receiver : Operand} (h : receiver.Known K) (aggregate : Ty)
    (name : String) (type : Ty) (span : Span) :
    Yields G K T [] (primitiveMember env receiver aggregate name type span) fun _ T' K' =>
      Reaches ⟨.method, aggregate.fullPath ++ "." ++ name, type⟩ T T' K' := by
  rw [primitiveMember]
  split
  · exact .fault span _
  · exact yields_pushMethod h aggregate name type

theorem yields_structMember {receiver : Operand} (h : receiver.Known K) (symbol : StructSymbol)
    (aggregate : Ty) (name : String) (type : Ty) (span : Span) :
    Yields G K T [] (structMember env symbol receiver aggregate name type span) fun _ T' K' =>
      Reaches (if symbol.methods.contains name then
        ⟨.method, aggregate.fullPath ++ "." ++ name, type⟩ else .var "" type.pointer) T T' K' := by
  rw [structMember]
  split
  · exact yields_pushMethod h aggregate name type
  · cases symbol.fieldIndex? name with
    | none => exact .fault span _
    | some index =>
      refine (yields_fieldAddress h _ index).bind ?_
      rintro x _ _ - ⟨rfl, hx⟩
      exact (tops_pushVar hx _).mono fun _ _ _ _ ht => ht.reaches (by simp [Operand.var])

theorem yields_unionMember {receiver : Operand} (h : receiver.Known K) (symbol : UnionSymbol)
    (aggregate : Ty) (name : String) (type : Ty) (span : Span) :
    Yields G K T [] (unionMember env symbol receiver aggregate name type span) fun _ T' K' =>
      Reaches (if symbol.methods.contains name then
        ⟨.method, aggregate.fullPath ++ "." ++ name, type⟩ else .var "" type.pointer) T T' K' := by
  rw [unionMember]
  split
  · exact yields_pushMethod h aggregate name type
  · cases symbol.member? name with
    | none => exact .fault span _
    | some member =>
      refine (yields_unionPayload h aggregate member.type span).bind ?_
      rintro x _ _ - ⟨rfl, hx⟩
      exact (tops_pushVar hx _).mono fun _ _ _ _ ht => ht.reaches (by simp [Operand.var])

theorem yields_pushMember {receiver : Operand} (h : receiver.Known K) (name : String) (type : Ty)
    (span : Span) :
    Yields G K T [] (pushMember env receiver name type span) fun _ T' K' =>
      Reaches (memberSketch env receiver.type name type) T T' K' := by
  rw [pushMember, memberSketch, isMethod]
  split
  · exact yields_primitiveMember h _ name type span
  · cases env.symbols.findStruct receiver.type.pointee with
    | some symbol => exact yields_structMember h symbol _ name type span
    | none =>
      cases env.symbols.findUnion receiver.type.pointee with
      | some symbol => exact yields_unionMember h symbol _ name type span
      | none => exact .fault span _

theorem yields_lowerGetField {o : Operand} (h : o.Known K) (name : String) (type : Ty)
    (span : Span) :
    Yields G K (o :: T) [] (lowerGetField env name type span) fun _ T' K' =>
      Reaches (memberSketch env (settled o.sketch).type name type) T T' K' := by
  refine (yields_dereference h).bind ?_
  rintro _ _ _ - ⟨-, o', rfl, ho', hsk⟩
  rw [← hsk, Operand.sketch_type]
  exact .pop (yields_pushMember ho' name type span)

theorem yields_lowerPtrGetField {o : Operand} (h : o.Known K) (name : String) (type : Ty)
    (span : Span) :
    Yields G K (o :: T) [] (lowerPtrGetField env name type span) fun _ T' K' =>
      Reaches (memberSketch env (settled o.sketch).type.pointee name type) T T' K' := by
  refine (yields_dereference h).bind ?_
  rintro _ _ _ - ⟨-, o', rfl, ho', hsk⟩
  rw [← hsk, Operand.sketch_type]
  refine .pop ((yields_load ho').bind ?_)
  rintro _ _ _ - ⟨rfl, x, hx, rfl⟩
  exact yields_pushMember (Value.known_var.2 hx) name type span

theorem yields_lowerGetPath (o : Operand) (name : String) (type : Ty) (span : Span) :
    Yields G K (o :: T) [] (lowerGetPath env name type span) fun _ T' K' =>
      Reaches (pathSketch env o.sketch name type) T T' K' := by
  have function (content : String) : Yields G K T [] (push ⟨.function, content, type⟩)
      fun _ T' K' => Reaches ⟨.function, content, type⟩ T T' K' :=
    yields_push ⟨_, [], rfl, Value.known_null _, List.forall_mem_nil _, rfl, fun h => nomatch h⟩
  refine .pop ?_
  rw [pathSketch, Operand.sketch_kind, Operand.sketch_type]
  cases o.kind with
  | primitive => exact function _
  | struct => exact function _
  | union => exact function _
  | enum =>
    dsimp only
    cases (env.symbols.findEnum o.type).bind fun e => e.value? name with
    | none => exact .fault span _
    | some value =>
      exact yields_push ⟨_, [], rfl, Value.known_lit _, List.forall_mem_nil _, rfl,
        fun h => nomatch h⟩
  | _ => exact .fault span _

/-! ## Calls -/

theorem yields_addLocation (span : Span) :
    Yields G K T [] (addLocation env span) fun _ T' K' => T' = T ∧ K' = K := by
  rw [addLocation]
  cases env.record with
  | none => exact yields_pure ⟨rfl, rfl⟩
  | some scope =>
    exact .of_stack_eq (fun _ => rfl) (fun _ => rfl) (fun _ => rfl) fun _ _ => ⟨rfl, rfl⟩

theorem yields_pushResult {result : String} (h : result ∈ K) (printed : String) (type : Ty) :
    Yields G K T [] (pushResult result printed type) fun _ T' K' =>
      Tops (.var "" type.pointer) T T' K' := by
  refine (yields_hiddenSlot printed).bind ?_
  rintro x _ _ hK ⟨rfl, hx⟩
  refine .emit (by simpa [Inst.reads] using ⟨hK h, hx⟩) rfl (tops_pushVar ?_ _)
  exact Inst.subset_extend _ hx

theorem yields_emitCall {args : List Operand} (h : ∀ arg ∈ args, arg.Known K) (callee : String)
    (type : Ty) (span : Span) :
    Yields G K T [Text.mangle callee] (emitCall env callee type args span) fun _ T' K' =>
      Tops (resultSketch type) T T' K' := by
  have called (dest : Value) (signature : Option String) (location : Option Nat) :
      let inst : Inst := .call (Text.mangle callee) (env.map type) dest
        (args.map fun arg => (env.map arg.type, arg.value)) signature location
      Yields G K T [Text.mangle callee] (emit inst) fun _ T' K' => T' = T ∧ K' = inst.extend K := by
    intro inst
    have hr : ∀ v ∈ inst.reads, v.Known K := by simpa [inst, Inst.reads] using h
    exact yields_emit hr ⟨rfl, rfl⟩
  rw [emitCall, resultSketch]
  split
  · refine (yields_addLocation span).bind ?_
    rintro location _ _ - ⟨rfl, rfl⟩
    refine (called _ _ location).bind_quiet ?_
    rintro - _ _ - ⟨rfl, rfl⟩
    exact yields_push ⟨_, rfl, Value.known_lit _, rfl⟩
  · refine .temp fun result => (yields_addLocation span).bind ?_
    rintro location _ _ - ⟨rfl, rfl⟩
    refine (called _ _ location).bind_quiet ?_
    rintro - _ _ - ⟨rfl, rfl⟩
    exact yields_pushResult (by simp [Inst.extend, Inst.defines, Value.name?]) _ type

/-! ## Operators and literals -/

theorem tops_temp {inst : String → Inst} (hr : ∀ x, ∀ v ∈ (inst x).reads, v.Known K)
    (hc : ∀ x, (inst x).callee? = none) (hd : ∀ x, (inst x).defines = [x]) (type : Ty) :
    Yields G K T [] (do
      let x ← temp
      emit (inst x)
      pushVar x type) fun _ T' K' => Tops (.var "" type) T T' K' :=
  .temp fun x => .emit (hr x) (hc x) (tops_pushVar (by simp [Inst.extend, hd x]) type)

theorem yields_applyUnary {source : Operand} (h : source.Known K) (op : UnaryOp) (type : Ty) :
    Yields G K T [] (applyUnary env op type source) fun _ T' K' => Tops (.var "" type) T T' K' := by
  cases op <;> exact tops_temp (fun _ => by simpa [Inst.reads] using h) (fun _ => rfl)
    (fun _ => rfl) type

theorem yields_applyArithmetic {left right : Operand} (hl : left.Known K) (hr : right.Known K)
    (op : Ir.BinOp) (type : Ty) :
    Yields G K T [] (applyArithmetic env op type left right) fun _ T' K' =>
      Tops (.var "" type) T T' K' :=
  tops_temp (fun _ => by simpa [Inst.reads] using ⟨hl, hr⟩) (fun _ => rfl) (fun _ => rfl) type

theorem yields_applyComparison {left right : Operand} (hl : left.Known K) (hr : right.Known K)
    (kind : Ir.Comparison) (type : Ty) :
    Yields G K T [] (applyComparison env kind type left right) fun _ T' K' =>
      Tops (.var "" type) T T' K' :=
  tops_temp (fun _ => by simpa [Inst.reads] using ⟨hl, hr⟩) (fun _ => rfl) (fun _ => rfl) type

theorem yields_applyConvert {source : Operand} (h : source.Known K) (target : Ty) :
    Yields G K T [] (applyConvert env target source) fun _ T' K' =>
      Tops (.var "" target) T T' K' :=
  tops_temp (fun _ => by simpa [Inst.reads] using h) (fun _ => rfl) (fun _ => rfl) target

theorem yields_pushString (literal : String) (type : Ty) :
    Yields G K T [] (pushString literal type) fun _ T' K' => Tops (.var "" type) T T' K' := by
  have interned : Yields G K T [] (internString literal) fun _ T' K' => T' = T ∧ K' = K :=
    .of_stack_eq (fun _ => rfl) (fun _ => rfl) (fun _ => rfl) fun _ _ => ⟨rfl, rfl⟩
  refine interned.bind ?_
  rintro index _ _ - ⟨rfl, rfl⟩
  exact tops_temp (fun _ => by simp [Inst.reads]) (fun _ => rfl) (fun _ => rfl) type

theorem yields_storeLeft {left : Operand} (h : left.Known K) :
    Yields G K T [] (storeLeft left) fun x T' K' => T' = T ∧ x ∈ K' := by
  refine (yields_hiddenSlot "i1").bind ?_
  rintro x _ _ hK ⟨rfl, hx⟩
  refine .emit (by simpa [Inst.reads] using ⟨Value.Known.mono h hK, hx⟩) rfl (yields_pure ⟨rfl, ?_⟩)
  exact Inst.subset_extend _ hx

theorem yields_store {type : String} {source dest : Value} (hs : source.Known K)
    (hd : dest.Known K) :
    Yields G K T [] (emit (.store type source dest)) fun _ T' K' => T' = T ∧ K ⊆ K' := by
  have hr : ∀ v ∈ (Inst.store type source dest).reads, v.Known K := by
    simpa [Inst.reads] using ⟨hs, hd⟩
  exact yields_emit hr ⟨rfl, Inst.subset_extend _⟩

theorem yields_loadResult {result : String} (h : result ∈ K) (type : Ty) :
    Yields G K T [] (loadResult type result) fun _ T' K' => Tops (.var "" type) T T' K' :=
  tops_temp (fun _ => by simpa [Inst.reads] using h) (fun _ => rfl) (fun _ => rfl) type

/-! ## Arrays and initializers -/

theorem yields_beginArray (size : Nat) (element : String) :
    Yields G K T [] (beginArray size element) fun x T' K' => T' = T ∧ x ∈ K' := by
  have numbered : Yields G K T [] freshArray fun _ T' K' => T' = T ∧ K' = K :=
    .of_stack_eq (fun _ => rfl) (fun _ => rfl) (fun _ => rfl) fun _ _ => ⟨rfl, rfl⟩
  refine .given fun hG => numbered.bind ?_
  rintro id _ _ - ⟨rfl, rfl⟩
  refine .addSlot fun hslot => .emit (by simpa [Inst.reads] using hG hslot) rfl ?_
  exact yields_pure ⟨rfl, by simp [Inst.extend, Inst.defines, Value.name?]⟩

theorem yields_elementSlot {first : String} (h : first ∈ K) (element : String) (index : Nat) :
    Yields G K T [] (elementSlot first element index) fun x T' K' => T' = T ∧ x ∈ K' :=
  .temp fun x => .emit (by simpa [Inst.reads] using h) rfl <|
    yields_pure ⟨rfl, by simp [Inst.extend, Inst.defines, Value.name?]⟩

theorem yields_beginInit (type : Ty) :
    Yields G K T [] (beginInit env type) fun o T' K' => T' = T ∧ o.IsVar K' type.pointer := by
  refine (yields_hiddenSlot _).bind ?_
  rintro x _ _ - ⟨rfl, hx⟩
  refine .emit (by simpa [Inst.reads] using hx) rfl (yields_pure ⟨rfl, x, ?_, rfl⟩)
  exact Inst.subset_extend _ hx

theorem yields_storeFields {location : Operand} (structType : String)
    (values : List (Nat × Operand)) (hl : location.Known K) (hv : ∀ v ∈ values, v.2.Known K) :
    Yields G K T [] (storeFields env location structType values) fun _ T' K' =>
      T' = T ∧ K ⊆ K' := by
  induction values generalizing K with
  | nil => exact yields_pure ⟨rfl, Set.Subset.rfl⟩
  | cons value values ih =>
    obtain ⟨index, value⟩ := value
    obtain ⟨hvalue, hvalues⟩ := List.forall_mem_cons.1 hv
    refine (yields_fieldAddress hl structType index).bind ?_
    rintro x _ K₁ hK ⟨rfl, hx⟩
    refine .emit (by simpa [Inst.reads] using ⟨Value.Known.mono hvalue hK, hx⟩) rfl ?_
    have hK₂ := hK.trans (Inst.subset_extend (.store (env.map value.type) value.value (.var x)))
    refine (ih (Value.Known.mono hl hK₂) fun v h => (hvalues v h).mono hK₂).mono ?_
    exact fun _ _ _ _ hp => ⟨hp.1, hK₂.trans hp.2⟩

theorem yields_beginMember {location : Operand} (h : location.Known K) (type : Ty)
    (member : UnionMember) (span : Span) :
    Yields G K T [] (beginMember env location type member span) fun x T' K' => T' = T ∧ x ∈ K' := by
  refine (yields_fieldAddress h _ 0).bind ?_
  rintro tag _ _ hK ⟨rfl, ht⟩
  refine .emit (by simpa [Inst.reads] using ht) rfl ?_
  exact yields_unionPayload (Value.Known.mono h (hK.trans (Inst.subset_extend _))) type _ span

/-! ## Definitions, assignments and switches -/

theorem yields_beginDefine (name : String) (type : Ty) :
    Yields G K T [] (beginDefine env name type) fun slot T' K' =>
      T' = T ∧ K' = K ∧ slot ∈ G := by
  have fresh : Yields G K T [] (freshLocal name) fun _ T' K' => T' = T ∧ K' = K :=
    .of_stack_eq (fun _ => rfl) (fun _ => rfl) (fun _ => rfl) fun _ _ => ⟨rfl, rfl⟩
  refine fresh.bind ?_
  rintro slot _ _ - ⟨rfl, rfl⟩
  exact .addSlot fun hG => yields_pure ⟨rfl, rfl, hG⟩

theorem yields_bindLocal {name slot : String} (h : slot ∈ G) :
    Yields G K T [] (bindLocal name slot) fun _ T' K' => T' = T ∧ K' = K := by
  intro n S _ hs hb _ _
  refine ⟨trivial, rfl, ?_, T, hs, rfl, rfl⟩
  obtain ⟨_, _, scopes, _, _, _, _⟩ := n
  cases scopes with
  | nil =>
    rintro scope hscope binding hbinding
    rw [List.mem_singleton.1 hscope] at hbinding
    rw [List.mem_singleton.1 hbinding]
    exact h
  | cons inner outer =>
    rintro scope hscope binding hbinding
    rcases List.mem_cons.1 hscope with rfl | hscope
    · rcases List.mem_cons.1 hbinding with rfl | hbinding
      · exact h
      · exact hb inner List.mem_cons_self binding hbinding
    · exact hb scope (List.mem_cons_of_mem _ hscope) binding hbinding

theorem yields_pushScope : Yields G K T [] pushScope fun _ T' K' => T' = T ∧ K' = K :=
  fun _ _ _ hs hb _ _ =>
    ⟨trivial, rfl, List.forall_mem_cons.2 ⟨List.forall_mem_nil _, hb⟩, T, hs, rfl, rfl⟩

theorem yields_popScope : Yields G K T [] popScope fun _ T' K' => T' = T ∧ K' = K :=
  fun _ _ _ hs hb _ _ =>
    ⟨trivial, rfl, fun scope h => hb scope (List.mem_of_mem_tail h), T, hs, rfl, rfl⟩

theorem yields_endDefine {slot : String} {value : Operand} (hslot : slot ∈ G) (hv : value.Known K)
    (name : String) (type : Ty) :
    Yields G K T [] (endDefine env name type slot value) fun _ T' K' => T' = T ∧ K ⊆ K' := by
  refine .given fun hG => (yields_bindLocal hslot).bind ?_
  rintro - _ _ - ⟨rfl, rfl⟩
  exact yields_store hv (Value.known_var.2 (hG hslot))

theorem yields_assign {target value : Operand} (ht : target.Known K) (hv : value.Known K)
    (op : AssignOp) (span : Span) :
    Yields G K T [] (assign env op target value span) fun _ T' K' => T' = T ∧ K ⊆ K' := by
  rw [assign]
  split
  · cases compound? op with
    | none => exact yields_store hv ht
    | some op =>
      refine .temp fun old => .emit (by simpa [Inst.reads] using ht) rfl ?_
      refine .temp fun result => .emit ?_ rfl ((yields_store ?_ ?_).mono ?_)
      · refine List.forall_mem_cons.2 ⟨?_, List.forall_mem_singleton.2 ?_⟩
        · simp [Inst.extend, Inst.defines, Value.name?]
        · exact Value.Known.mono hv (Inst.subset_extend _)
      · simp [Inst.extend, Inst.defines, Value.name?]
      · exact ht.mono ((Inst.subset_extend _).trans (Inst.subset_extend _))
      · exact fun _ _ _ _ hp =>
          ⟨hp.1, ((Inst.subset_extend _).trans (Inst.subset_extend _)).trans hp.2⟩
  · exact yields_fault span _

theorem yields_loadDown (levels : Nat) {location : Operand} (h : location.Known K) :
    Yields G K T [] (loadDown env levels location) fun o T' K' => T' = T ∧ o.Known K' := by
  induction levels generalizing K location with
  | zero => exact yields_pure ⟨rfl, h⟩
  | succ levels ih =>
    refine (yields_load h).bind ?_
    rintro o _ _ - ⟨rfl, ho⟩
    exact ih ho.known

theorem yields_unionTag {location : Operand} (h : location.Known K) :
    Yields G K T [] (unionTag env location) fun v T' K' => T' = T ∧ v.Known K' := by
  refine (yields_loadDown _ h).bind ?_
  rintro location _ _ - ⟨rfl, hl⟩
  refine (yields_fieldAddress hl _ 0).bind ?_
  rintro slot _ _ - ⟨rfl, hslot⟩
  refine .temp fun tag => .emit (by simpa [Inst.reads] using hslot) rfl (yields_pure ⟨rfl, ?_⟩)
  simp [Inst.extend, Inst.defines, Value.name?]

theorem yields_switchOperand {condition : Operand} (h : condition.Known K) (isUnion : Bool)
    (span : Span) :
    Yields G K T [] (switchOperand env isUnion condition span) fun r T' K' =>
      T' = T ∧ r.1.Known K' := by
  rw [switchOperand]
  split
  · exact yields_pure ⟨rfl, h⟩
  split
  · refine (yields_unionTag h).bind ?_
    rintro v _ _ - ⟨rfl, hv⟩
    exact yields_pure ⟨rfl, hv⟩
  · exact .fault span _

end Yields

end Codegen.Lowering
