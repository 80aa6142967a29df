import Codegen.Lowering.Tree
import Codegen.Proofs.Known
import Mathlib.Data.Set.Basic

/-!
# What straight-line steps are built from

Whatever a walk over a body does between two nodes, it does by a few basic steps:

* it changes nothing but the value stack and the innermost scope (`Quiet`);
* it draws a temporary and emits the instruction that defines it;
* it emits an instruction that defines nothing;
* it draws a stack slot for a local, for an array, or a hidden one;
* it emits a call, with a debug record for its place.

`Built` says so of a step.  A property that these basic steps have and that sequencing keeps is
therefore a property of all straight-line steps of a walk.
-/

namespace Codegen.Ir

/-- The debug record of the place of a call. -/
def Inst.location? : Inst → Option (Option Nat)
  | .call _ _ _ _ _ location => some location
  | _ => none

/-- The index of the string constant that an instruction takes the address of. -/
def Inst.string? : Inst → Option Nat
  | .str _ index _ => some index
  | _ => none

/-- Whether an instruction has no reference into the tables of its module. -/
def Inst.isPlain (inst : Inst) : Bool := inst.location?.isNone && inst.string?.isNone

theorem Inst.location?_of_isPlain {inst : Inst} (h : inst.isPlain = true) :
    inst.location? = none := Option.isNone_iff_eq_none.1 (Bool.and_eq_true_iff.1 h).1

theorem Inst.string?_of_isPlain {inst : Inst} (h : inst.isPlain = true) :
    inst.string? = none := Option.isNone_iff_eq_none.1 (Bool.and_eq_true_iff.1 h).2

/-- The types that an instruction names. -/
def Inst.types : Inst → List String
  | .slotPtr _ _ type => [type]
  | .str .. => []
  | .zeroInit _ type => [type]
  | .getIndex _ _ _ type indexType => [type, indexType]
  | .getField _ _ structType _ => [structType]
  | .call _ returnType _ args _ _ => returnType :: args.map Prod.fst
  | .neg _ _ _ type => [type]
  | .bnot _ _ type => [type]
  | .lnot _ _ type => [type]
  | .binary _ _ _ _ _ _ type => [type]
  | .compare _ _ _ _ _ _ type => [type]
  | .store type _ _ => [type]
  | .load type _ _ => [type]
  | .cast _ _ _ fromType toType => [fromType, toType]
  | .decay _ _ type _ => [type]

/-! ## String constants -/

/-- A constant is found under the index it gets. -/
theorem getElem?_intern (strings : List String) (text : String) :
    (intern strings text).2[(intern strings text).1]? = some text := by
  unfold intern
  split
  · rename_i index found
    obtain ⟨hi, heq, -⟩ := List.findIdx?_eq_some_iff_getElem.1 found
    rw [List.getElem?_eq_getElem hi, eq_of_beq heq]
  · exact List.getElem?_concat_length

/-- Constants stay in front of a new one. -/
theorem prefix_intern (strings : List String) (text : String) :
    strings <+: (intern strings text).2 := by
  unfold intern
  split
  · exact List.prefix_rfl
  · exact List.prefix_append ..

end Codegen.Ir

namespace Codegen.Lowering

open Ir (Inst Value)

variable {α β : Type}

/-! ## Printed types -/

namespace Env

variable (env : Env)

/-- The text is the printed form of a type. -/
def Prints (type : String) : Prop := ∃ ty, type = env.map ty

/-- Every text of a list is the printed form of a type. -/
def PrintsAll (types : List String) : Prop := ∀ type ∈ types, env.Prints type

theorem prints_map (ty : Ty) : env.Prints (env.map ty) := ⟨ty, rfl⟩

theorem prints_bool : env.Prints "i1" := ⟨.bool, rfl⟩

theorem prints_i64 : env.Prints "i64" := ⟨.i64, rfl⟩

theorem prints_void : env.Prints "void" := ⟨.void, rfl⟩

theorem prints_returned (result : Operand) : env.Prints (returned env result).1 := by
  unfold returned
  split
  · exact env.prints_void
  · exact env.prints_map _

variable {env}

theorem Prints.all {type : String} (h : env.Prints type) : env.PrintsAll [type] :=
  List.forall_mem_singleton.2 h

theorem Prints.cons {type : String} {types : List String} (h : env.Prints type)
    (ht : env.PrintsAll types) : env.PrintsAll (type :: types) := List.forall_mem_cons.2 ⟨h, ht⟩

end Env

/-! ## Scopes -/

/-- Locals come into the innermost scope only. -/
def Names.Binds (n n' : Names) : Prop := ∃ new, n'.scopes = n.scopes.modifyHead (new ++ ·)

namespace Names.Binds

variable {n n' n'' : Names}

theorem of_scopes_eq (h : n'.scopes = n.scopes) : n.Binds n' := by
  refine ⟨[], ?_⟩
  rw [h]
  cases n.scopes <;> rfl

theorem trans (h : n.Binds n') (h' : n'.Binds n'') : n.Binds n'' := by
  obtain ⟨new, scopes⟩ := h
  obtain ⟨new', scopes'⟩ := h'
  refine ⟨new' ++ new, ?_⟩
  rw [scopes', scopes, List.modifyHead_modifyHead]
  simp only [Function.comp_def, List.append_assoc]

theorem scopes_ne_nil (h : n.Binds n') (hn : n.scopes ≠ []) : n'.scopes ≠ [] := by
  obtain ⟨new, scopes⟩ := h
  rw [scopes]
  simpa using hn

/-- The scopes around the innermost one stay. -/
theorem tail_eq (h : n.Binds n') : n'.scopes.tail = n.scopes.tail := by
  obtain ⟨new, scopes⟩ := h
  rw [scopes]
  cases n.scopes <;> rfl

end Names.Binds

/-! ## Basic steps -/

/-- A step that draws no name, emits nothing and adds neither a stack slot nor a string constant
nor a debug record.  It opens and closes no scope. -/
structure Quiet (step : Line α) : Prop where
  insts (n : Names) : (step n).insts = []
  slots (n : Names) : (step n).notes.slots = []
  nextTemp (n : Names) : (step n).names.nextTemp = n.nextTemp
  nextLocal (n : Names) : (step n).names.nextLocal = n.nextLocal
  nextArray (n : Names) : (step n).names.nextArray = n.nextArray
  strings (n : Names) : (step n).names.strings = n.strings
  debugInfo (n : Names) : (step n).names.debugInfo = n.debugInfo
  scopes (n : Names) : n.scopes ≠ [] → n.Binds (step n).names

/-- An instruction without reference into the tables of its module, all of whose types are
printed. -/
structure Ordinary (env : Env) (inst : Inst) : Prop where
  isPlain : inst.isPlain = true
  types : env.PrintsAll inst.types

/-- A step built from basic ones, which adds no string constant.  The locals it defines are among
`locals`, and every type it names is a printed one. -/
inductive Built (env : Env) (locals : Set String) : {α : Type} → Line α → Prop where
  | quiet {α : Type} {step : Line α} (h : Quiet step) : Built env locals step
  | bind {α β : Type} {x : Line α} {f : α → Line β} (hx : Built env locals x)
      (hf : ∀ a, Built env locals (f a)) : Built env locals (x >>= f)
  | write {inst : Inst} (hd : inst.defines = []) (ho : Ordinary env inst) :
    Built env locals (emit inst)
  | compute {α : Type} {inst : String → Inst} (hd : ∀ x, (inst x).defines = [x])
      (ho : ∀ x, Ordinary env (inst x)) {k : String → Line α}
      (hk : ∀ x, Built env locals (k x)) :
    Built env locals (temp >>= fun x => emit (inst x) >>= fun _ => k x)
  | hidden {type : String} (h : env.Prints type) : Built env locals (hiddenSlot type)
  | array (size : Nat) {element : String} (h : env.Prints element) :
    Built env locals (beginArray size element)
  | define {name : String} (h : name ∈ locals) (type : Ty) :
    Built env locals (beginDefine env name type)
  | call {α : Type} (name : String) {type : String} {args : List (String × Value)}
      (ht : env.PrintsAll (type :: args.map Prod.fst)) (span : Span) {k : Line α}
      (hk : Built env locals k) :
    Built env locals (addLocation env span >>= fun location =>
      emit (.call name type (.null "void call") args (env.variadic.get? name) location) >>=
        fun _ => k)
  | result {α : Type} (name : String) {type : String} {args : List (String × Value)}
      (ht : env.PrintsAll (type :: args.map Prod.fst)) (span : Span) {k : String → Line α}
      (hk : ∀ x, Built env locals (k x)) :
    Built env locals (temp >>= fun x => addLocation env span >>= fun location =>
      emit (.call name type (.var x) args (env.variadic.get? name) location) >>= fun _ => k x)

/-! ## Quiet steps -/

namespace Quiet

theorem pure (a : α) : Quiet (Pure.pure a : Line α) :=
  ⟨fun _ => rfl, fun _ => rfl, fun _ => rfl, fun _ => rfl, fun _ => rfl, fun _ => rfl,
    fun _ => rfl, fun _ _ => .of_scopes_eq rfl⟩

theorem bind {x : Line α} {f : α → Line β} (hx : Quiet x) (hf : ∀ a, Quiet (f a)) :
    Quiet (x >>= f) where
  insts n := List.append_eq_nil_iff.2 ⟨hx.insts n, (hf _).insts _⟩
  slots n := List.append_eq_nil_iff.2 ⟨hx.slots n, (hf _).slots _⟩
  nextTemp n := ((hf _).nextTemp _).trans (hx.nextTemp n)
  nextLocal n := ((hf _).nextLocal _).trans (hx.nextLocal n)
  nextArray n := ((hf _).nextArray _).trans (hx.nextArray n)
  strings n := ((hf _).strings _).trans (hx.strings n)
  debugInfo n := ((hf _).debugInfo _).trans (hx.debugInfo n)
  scopes n hn := (hx.scopes n hn).trans ((hf _).scopes _ ((hx.scopes n hn).scopes_ne_nil hn))

/-- To look at the names changes nothing. -/
theorem look {f : Names → Line α} (hf : ∀ n, Quiet (f n)) : Quiet (get >>= f) :=
  bind ⟨fun _ => rfl, fun _ => rfl, fun _ => rfl, fun _ => rfl, fun _ => rfl, fun _ => rfl,
    fun _ => rfl, fun _ _ => .of_scopes_eq rfl⟩ hf

theorem fault (span : Span) (fault : Fault) : Quiet (Lowering.fault span fault) :=
  ⟨fun _ => rfl, fun _ => rfl, fun _ => rfl, fun _ => rfl, fun _ => rfl, fun _ => rfl,
    fun _ => rfl, fun _ _ => .of_scopes_eq rfl⟩

/-- A new value stack. -/
theorem restack (f : Names → List Operand) :
    Quiet (modify fun n => { n with stack := f n } : Line Unit) :=
  ⟨fun _ => rfl, fun _ => rfl, fun _ => rfl, fun _ => rfl, fun _ => rfl, fun _ => rfl,
    fun _ => rfl, fun _ _ => .of_scopes_eq rfl⟩

theorem push (operand : Operand) : Quiet (push operand) := restack _

theorem pop (span : Span) : Quiet (pop span) := by
  refine look fun n => ?_
  cases n.stack with
  | nil => exact (fault _ _).bind fun _ => pure _
  | cons operand rest => exact (restack fun _ => rest).bind fun _ => pure _

theorem height : Quiet height := look fun _ => pure _

theorem dropTo (limit : Nat) : Quiet (dropTo limit) := restack _

theorem resize (size : Nat) : Quiet (resize size) := (dropTo size).bind fun _ => restack _

theorem mend (kind : NodeKind) (span : Span) (expected found : Nat) :
    Quiet (mend kind span expected found) := by
  unfold Lowering.mend
  split
  · exact (fault _ _).bind fun _ => resize expected
  · exact pure ()

/-- A binding is the only thing that changes scopes, and it goes to the innermost one. -/
theorem bindLocal (name slot : String) : Quiet (bindLocal name slot) := by
  refine ⟨fun _ => rfl, fun _ => rfl, fun _ => rfl, fun _ => rfl, fun _ => rfl, fun _ => rfl,
    fun _ => rfl, fun n hn => ⟨[(name, slot)], ?_⟩⟩
  obtain ⟨scope, rest, scopes⟩ := List.exists_cons_of_ne_nil hn
  simp [Lowering.bindLocal, modify, modifyGet, MonadStateOf.modifyGet, scopes]

theorem pushIdentifier (env : Env) (name : String) (type : Ty) (span : Span) :
    Quiet (pushIdentifier env name type span) := by
  unfold Lowering.pushIdentifier
  split
  · refine bind ?_ fun _ => push _
    unfold globalOperand
    split
    case h_6 => exact (fault _ _).bind fun _ => pure _
    all_goals exact pure _
  · refine bind ((look fun _ => pure _).bind fun found => ?_) fun _ => push _
    cases found with
    | some slot => exact pure _
    | none => exact (fault _ _).bind fun _ => pure _

theorem lowerGetPath (env : Env) (name : String) (type : Ty) (span : Span) :
    Quiet (lowerGetPath env name type span) := by
  refine (pop span).bind fun owner => ?_
  split
  case h_4 =>
    split
    · exact push _
    · exact (fault _ _).bind fun _ => push _
  case h_5 => exact (fault _ _).bind fun _ => push _
  all_goals exact push _

theorem pushMethod (receiver : Operand) (aggregate : Ty) (name : String) (type : Ty) :
    Quiet (pushMethod receiver aggregate name type) := (push _).bind fun _ => push _

end Quiet

/-! ## Steps of the walk -/

namespace Built

variable {env : Env} {locals : Set String}

theorem pure (a : α) : Built env locals (Pure.pure a : Line α) := .quiet (.pure a)

theorem push (operand : Operand) : Built env locals (push operand) := .quiet (.push operand)

theorem pop (span : Span) : Built env locals (pop span) := .quiet (.pop span)

theorem fault (span : Span) (fault : Fault) : Built env locals (Lowering.fault span fault) :=
  .quiet (.fault span fault)

theorem store {type : String} (h : env.Prints type) (source dest : Value) :
    Built env locals (emit (.store type source dest)) := .write rfl ⟨rfl, h.all⟩

/-- A temporary and the instruction that defines it. -/
theorem computed {inst : String → Inst} (hd : ∀ x, (inst x).defines = [x])
    (ho : ∀ x, Ordinary env (inst x)) :
    Built env locals (temp >>= fun x => emit (inst x) >>= fun _ => Pure.pure x) :=
  .compute hd ho fun x => pure x

theorem withTop {absent : α} {step : Operand → Line α} (h : ∀ o, Built env locals (step o)) :
    Built env locals (withTop absent step) := by
  refine .bind (.quiet (.look fun n => .pure n)) fun n => ?_
  cases n.stack with
  | nil => exact pure _
  | cons operand rest => exact .bind (.quiet (.restack _)) fun _ => h operand

theorem applyUnary (op : UnaryOp) (type : Ty) (source : Operand) :
    Built env locals (applyUnary env op type source) := by
  cases op <;>
    exact .compute (fun _ => rfl) (fun _ => ⟨rfl, (env.prints_map _).all⟩) fun _ => push _

theorem applyArithmetic (op : Ir.BinOp) (type : Ty) (left right : Operand) :
    Built env locals (applyArithmetic env op type left right) :=
  .compute (fun _ => rfl) (fun _ => ⟨rfl, (env.prints_map _).all⟩) fun _ => push _

theorem applyComparison (kind : Ir.Comparison) (type : Ty) (left right : Operand) :
    Built env locals (applyComparison env kind type left right) :=
  .compute (fun _ => rfl) (fun _ => ⟨rfl, (env.prints_map _).all⟩) fun _ => push _

theorem applyConvert (target : Ty) (source : Operand) :
    Built env locals (applyConvert env target source) :=
  .compute (fun _ => rfl) (fun _ => ⟨rfl, (env.prints_map _).cons (env.prints_map _).all⟩)
    fun _ => push _

theorem storeLeft (left : Operand) : Built env locals (storeLeft left) :=
  .bind (.hidden env.prints_bool) fun _ => .bind (store env.prints_bool _ _) fun _ => pure _

theorem loadResult (type : Ty) (result : String) : Built env locals (loadResult type result) :=
  .compute (fun _ => rfl) (fun _ => ⟨rfl, env.prints_bool.all⟩) fun _ => push _

theorem elementSlot (first : String) {element : String} (h : env.Prints element) (index : Nat) :
    Built env locals (elementSlot first element index) :=
  computed (fun _ => rfl) fun _ => ⟨rfl, h.cons env.prints_i64.all⟩

theorem beginInit (type : Ty) : Built env locals (beginInit env type) :=
  .bind (.hidden (env.prints_map _)) fun _ =>
    .bind (.write rfl ⟨rfl, (env.prints_map _).all⟩) fun _ => pure _

theorem fieldAddress (location : Operand) {structType : String} (h : env.Prints structType)
    (index : Nat) : Built env locals (fieldAddress location structType index) :=
  computed (fun _ => rfl) fun _ => ⟨rfl, h.all⟩

theorem storeFields (location : Operand) {structType : String} (h : env.Prints structType) :
    (values : List (Nat × Operand)) → Built env locals (storeFields env location structType values)
  | [] => pure ()
  | _ :: rest => .bind (fieldAddress location h _) fun _ =>
    .bind (store (env.prints_map _) _ _) fun _ => storeFields location h rest

theorem unionPayload (location : Operand) (unionType member : Ty) (span : Span) :
    Built env locals (unionPayload env location unionType member span) := by
  have behind (storage : Ty) : Built env locals (do
      let raw ← Lowering.fieldAddress location (env.map unionType) 1
      let dest ← temp
      emit (.cast .bitcast (.var dest) (.var raw) (env.map storage.pointer)
        (env.map member.pointer))
      Pure.pure dest) :=
    .bind (fieldAddress _ (env.prints_map _) _) fun _ => computed (fun _ => rfl)
      fun _ => ⟨rfl, (env.prints_map _).cons (env.prints_map _).all⟩
  unfold Lowering.unionPayload
  split
  · exact behind _
  · exact .bind (fault _ _) fun _ => behind _

theorem beginMember (location : Operand) (type : Ty) (member : UnionMember) (span : Span) :
    Built env locals (beginMember env location type member span) :=
  .bind (fieldAddress _ (env.prints_map _) _) fun _ =>
    .bind (store env.prints_i64 _ _) fun _ => unionPayload _ _ _ _

theorem load (location : Operand) : Built env locals (load env location) :=
  .compute (fun _ => rfl) (fun _ => ⟨rfl, (env.prints_map _).all⟩) fun _ => pure _

theorem loadOrDecay (location : Operand) : Built env locals (loadOrDecay env location) := by
  unfold Lowering.loadOrDecay
  split
  · exact .compute (fun _ => rfl) (fun _ => ⟨rfl, (env.prints_map _).all⟩) fun _ => pure _
  · exact load location

theorem dereference : Built env locals (dereference env) := by
  refine withTop fun source => ?_
  split
  · exact .compute (fun _ => rfl) (fun _ => ⟨rfl, (env.prints_map _).all⟩) fun _ =>
      .bind (push _) fun _ => pure _
  · exact .bind (push _) fun _ => pure _

theorem reached (mode : Mode) (isResult : Bool) (source : Operand) :
    Built env locals (reached env mode isResult source) := by
  unfold Lowering.reached
  split
  · cases mode with
    | value => exact loadOrDecay source
    | address =>
      dsimp only
      split
      · exact load source
      · exact pure source
  · exact pure source

theorem finishChain (mode : Mode) (endsWithCall : Bool) :
    Built env locals (finishChain env mode endsWithCall) :=
  .bind dereference fun _ => withTop fun _ => .bind (reached _ _ _) fun _ => push _

theorem pushElement (type : Ty) (location index : Operand) :
    Built env locals (pushElement env type location index) :=
  .bind (loadOrDecay location) fun _ => .compute (fun _ => rfl)
    (fun _ => ⟨rfl, (env.prints_map _).cons (env.prints_map _).all⟩) fun _ => push _

theorem endDefine (name : String) (type : Ty) (slot : String) (value : Operand) :
    Built env locals (endDefine env name type slot value) :=
  .bind (.quiet (.bindLocal name slot)) fun _ => store (env.prints_map _) _ _

theorem assign (op : AssignOp) (target value : Operand) (span : Span) :
    Built env locals (assign env op target value span) := by
  unfold Lowering.assign
  split
  · split
    · exact .compute (fun _ => rfl) (fun _ => ⟨rfl, (env.prints_map _).all⟩) fun _ =>
        .compute (fun _ => rfl) (fun _ => ⟨rfl, (env.prints_map _).all⟩) fun _ =>
          store (env.prints_map _) _ _
    · exact store (env.prints_map _) _ _
  · exact fault _ _

theorem loadDown : (levels : Nat) → (location : Operand) →
    Built env locals (loadDown env levels location)
  | 0, location => pure location
  | levels + 1, location => .bind (load location) fun inner => loadDown levels inner

theorem switchOperand (isUnion : Bool) (condition : Operand) (span : Span) :
    Built env locals (switchOperand env isUnion condition span) := by
  unfold Lowering.switchOperand
  split
  · exact pure _
  · split
    · refine .bind (.bind (loadDown _ _) fun _ =>
        .bind (fieldAddress _ (env.prints_map _) _) fun _ => ?_) fun _ => pure _
      exact .compute (fun _ => rfl) (fun _ => ⟨rfl, env.prints_i64.all⟩) fun _ => pure _
    · exact .bind (fault _ _) fun _ => pure _

/-! ## Links of chains -/

theorem structMember (symbol : StructSymbol) (receiver : Operand) (aggregate : Ty) (name : String)
    (type : Ty) (span : Span) :
    Built env locals (structMember env symbol receiver aggregate name type span) := by
  unfold Lowering.structMember
  split
  · exact .quiet (.pushMethod _ _ _ _)
  · split
    · exact .bind (fieldAddress _ (env.prints_map _) _) fun _ => push _
    · exact .bind (fault _ _) fun _ => push _

theorem unionMember (symbol : UnionSymbol) (receiver : Operand) (aggregate : Ty) (name : String)
    (type : Ty) (span : Span) :
    Built env locals (unionMember env symbol receiver aggregate name type span) := by
  unfold Lowering.unionMember
  split
  · exact .quiet (.pushMethod _ _ _ _)
  · split
    · exact .bind (unionPayload _ _ _ _) fun _ => push _
    · exact .bind (fault _ _) fun _ => push _

theorem pushMember (receiver : Operand) (name : String) (type : Ty) (span : Span) :
    Built env locals (pushMember env receiver name type span) := by
  unfold Lowering.pushMember
  dsimp only
  split
  · unfold primitiveMember
    split
    · exact .bind (fault _ _) fun _ => .quiet (.pushMethod _ _ _ _)
    · exact .quiet (.pushMethod _ _ _ _)
  · split
    · exact structMember _ _ _ _ _ _
    · exact unionMember _ _ _ _ _ _
    · exact .bind (fault _ _) fun _ => push _

theorem lowerGetField (name : String) (type : Ty) (span : Span) :
    Built env locals (lowerGetField env name type span) :=
  .bind dereference fun _ => .bind (pop span) fun _ => pushMember _ _ _ _

theorem lowerPtrGetField (name : String) (type : Ty) (span : Span) :
    Built env locals (lowerPtrGetField env name type span) :=
  .bind dereference fun _ => .bind (pop span) fun _ => .bind (load _) fun _ => pushMember _ _ _ _

theorem prints_passed (env : Env) (type : Ty) (args : List Operand) :
    env.PrintsAll
      (env.map type :: (args.map fun arg => (env.map arg.type, arg.value)).map Prod.fst) := by
  refine (env.prints_map type).cons fun t ht => ?_
  rw [List.map_map] at ht
  obtain ⟨arg, -, rfl⟩ := List.mem_map.1 ht
  exact env.prints_map arg.type

theorem emitCall (callee : String) (type : Ty) (args : List Operand) (span : Span) :
    Built env locals (emitCall env callee type args span) := by
  unfold Lowering.emitCall
  dsimp only
  split
  · exact .call _ (prints_passed env type args) span (push _)
  · exact .result _ (prints_passed env type args) span fun _ =>
      .bind (.hidden (env.prints_map _)) fun _ => .bind (store (env.prints_map _) _ _) fun _ =>
        push _

end Built

end Codegen.Lowering
