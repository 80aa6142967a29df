import Codegen.Proofs.Emitted
import Codegen.Proofs.Instructions
import Codegen.Proofs.Lookup
import Codegen.Proofs.Terminators

/-!
# The types that a lowered function names

Every type in a lowered function is the printed form of a type of the source, or that of an array
which is stored in place.  For instructions and stack slots this is a property of straight-line
steps (`conforming`), for terminators one of walks (`endingTypes`).  A call carries the parameter
list that is known for its callee.
-/

namespace Codegen.Ir

/-- The types that a terminator names. -/
def Terminator.types : Terminator → List String
  | .switch _ type _ _ => [type]
  | .ret type _ => [type]
  | _ => []

/-- The callee of a call and the parameter list that is printed in front of it. -/
def Inst.signature? : Inst → Option (String × Option String)
  | .call name _ _ _ signature _ => some (name, signature)
  | _ => none

/-- The parameter list in the type of a function that takes further arguments. -/
def Function.variadicList (f : Function) : String :=
  "(" ++ Text.join ", " (f.params.map Prod.snd ++ ["..."]) ++ ")"

theorem Inst.signature?_of_isPlain {inst : Inst} (h : inst.isPlain = true) :
    inst.signature? = none := by
  cases inst <;> first | rfl | cases h

end Codegen.Ir

namespace Codegen.Lowering

open Ir (Inst Value Terminator)

variable {α β : Type}

/-- The printed form of an array that is stored in place. -/
def arrayType (size : Nat) (element : String) : String :=
  "[" ++ Text.decimal size ++ " x " ++ element ++ "]"

/-- A stack slot can be of a printed type, or an array of elements of a printed type. -/
def Env.Stores (env : Env) (type : String) : Prop :=
  env.Prints type ∨ ∃ size element, env.Prints element ∧ type = arrayType size element

/-- An instruction whose types are printed ones, and whose parameter list is that of its callee. -/
structure Conforms (env : Env) (inst : Inst) : Prop where
  types : env.PrintsAll inst.types
  signature : ∀ name signature, inst.signature? = some (name, signature) →
    signature = env.variadic.get? name

theorem Ordinary.conforms {env : Env} {inst : Inst} (h : Ordinary env inst) :
    Conforms env inst where
  types := h.types
  signature name signature hs := by
    rw [Inst.signature?_of_isPlain h.isPlain] at hs
    cases hs

/-! ## Instructions and stack slots -/

/-- A step all of whose instructions and stack slots have printed types. -/
structure Conforming (env : Env) (step : Line α) : Prop where
  insts (n : Names) : ∀ inst ∈ (step n).insts, Conforms env inst
  slots (n : Names) : ∀ slot ∈ (step n).notes.slots, env.Stores slot.type

namespace Conforming

variable {env : Env}

theorem bind {x : Line α} {f : α → Line β} (hx : Conforming env x)
    (hf : ∀ a, Conforming env (f a)) : Conforming env (x >>= f) where
  insts n := List.forall_mem_append.2 ⟨hx.insts n, (hf _).insts _⟩
  slots n := List.forall_mem_append.2 ⟨hx.slots n, (hf _).slots _⟩

theorem quiet {step : Line α} (h : Quiet step) : Conforming env step where
  insts n := by
    rw [h.insts]
    exact List.forall_mem_nil _
  slots n := by
    rw [h.slots]
    exact List.forall_mem_nil _

/-- A step with one instruction and no stack slot. -/
theorem of_inst {step : Line α} {inst : Names → Inst} (hi : ∀ n, (step n).insts = [inst n])
    (hs : ∀ n, (step n).notes.slots = []) (h : ∀ n, Conforms env (inst n)) :
    Conforming env step where
  insts n := by
    rw [hi]
    exact List.forall_mem_singleton.2 (h n)
  slots n := by
    rw [hs]
    exact List.forall_mem_nil _

theorem call (name : String) {type : String} {args : List (String × Value)}
    (ht : env.PrintsAll (type :: args.map Prod.fst)) (dest : Value) (span : Span) :
    Conforming env (addLocation env span >>= fun location =>
      emit (.call name type dest args (env.variadic.get? name) location)) := by
  have conforms (location : Option Nat) :
      Conforms env (.call name type dest args (env.variadic.get? name) location) := by
    refine ⟨ht, fun callee signature h => ?_⟩
    cases h
    rfl
  unfold addLocation
  cases env.record with
  | none => exact of_inst (fun _ => rfl) (fun _ => rfl) fun _ => conforms _
  | some scope => exact of_inst (fun _ => rfl) (fun _ => rfl) fun n => conforms _

end Conforming

/-- Every step of a walk names printed types only. -/
def conforming (env : Env) : LineProperty env Set.univ where
  Holds := Conforming env
  quiet := .quiet
  bind := .bind
  write _ ho := .of_inst (fun _ => rfl) (fun _ => rfl) fun _ => ho.conforms
  computed _ ho := .of_inst (fun _ => rfl) (fun _ => rfl) fun _ => (ho _).conforms
  string _ _ := .of_inst (fun _ => rfl) (fun _ => rfl) fun _ =>
    ⟨List.forall_mem_nil _, fun _ _ h => nomatch h⟩
  rescope _ := ⟨fun _ => List.forall_mem_nil _, fun _ => List.forall_mem_nil _⟩
  hidden h := ⟨fun _ => List.forall_mem_singleton.2 ⟨h.all, fun _ _ h => nomatch h⟩,
    fun _ => List.forall_mem_singleton.2 (.inl h)⟩
  array size _ h := ⟨fun _ => List.forall_mem_singleton.2 ⟨h.all, fun _ _ h => nomatch h⟩,
    fun _ => List.forall_mem_singleton.2 (.inr ⟨size, _, h, rfl⟩)⟩
  define _ type := ⟨fun _ => List.forall_mem_nil _,
    fun _ => List.forall_mem_singleton.2 (.inl (env.prints_map _))⟩
  call name _ _ ht span := .call name ht _ span
  result name _ _ ht span := by
    refine .bind ⟨fun _ => List.forall_mem_nil _, fun _ => List.forall_mem_nil _⟩ fun x => ?_
    rw [← line_bind_assoc]
    exact (Conforming.call name ht _ span).bind fun _ => .quiet (.pure x)

theorem conforming_spill (env : Env) (param : String × Ty) : Conforming env (spill env param) :=
  ⟨fun _ => List.forall_mem_singleton.2 ⟨(env.prints_map _).all, fun _ _ h => nomatch h⟩,
    fun _ => List.forall_mem_singleton.2 (.inl (env.prints_map _))⟩

theorem conforming_draftOf (env : Env) (f : Func) (strings : List String)
    (debugInfo : Ir.DebugInfo) :
    (∀ inst ∈ (draftOf env f strings debugInfo).code.insts, Conforms env inst) ∧
      ∀ slot ∈ (draftOf env f strings debugInfo).notes.slots, env.Stores slot.type := by
  have walk : Conforming env ((walkFunction env f : Draft Unit).flat false) :=
    (conforming env).walkFunction (conforming_spill env) fun x _ => Set.mem_univ x
  exact ⟨walk.insts _, walk.slots _⟩

/-! ## Terminators -/

/-- A draft that switches on and returns values of printed types only. -/
def EndsPrinted (env : Env) (d : Draft α) : Prop :=
  ∀ inLoop n, env.PrintsAll (d inLoop n).code.endTypes

namespace EndsPrinted

variable {env : Env}

theorem bind {d : Draft α} {e : α → Draft β} (hd : EndsPrinted env d)
    (he : ∀ a, EndsPrinted env (e a)) : EndsPrinted env (d >>= e) := by
  intro inLoop n
  change env.PrintsAll (Code.endTypes (_ ++ _))
  rw [Code.endTypes_append]
  exact List.forall_mem_append.2 ⟨hd _ _, he _ _ _⟩

theorem line (step : Line α) : EndsPrinted env (Draft.line step) := by
  intro inLoop n
  change env.PrintsAll (Code.endTypes (Code.line _))
  rw [Code.endTypes_line]
  exact List.forall_mem_nil _

theorem of_closing {inLoop : Bool} {step : Step inLoop} (h : env.PrintsAll step.endTypes)
    (n : Names) (notes : Notes) : env.PrintsAll (Draft.closing step n notes).code.endTypes := by
  change env.PrintsAll (Code.of step).endTypes
  rwa [Code.endTypes_of]

theorem arms {ds es : List (ArmWalk Draft)}
    (h : List.Forall₂ (ArmWalk.Related fun _ d _ => EndsPrinted env d) ds es) (inLoop : Bool)
    (n : Names) : env.PrintsAll (Draft.arms inLoop ds n).code.endTypes := by
  induction h generalizing n with
  | nil => exact List.forall_mem_nil _
  | cons hd _ ih =>
    cases hd with
    | always hbody => exact List.forall_mem_append.2 ⟨hbody _ _, ih _⟩
    | when hcheck hbody =>
      exact List.forall_mem_append.2 ⟨hcheck _ _, List.forall_mem_append.2 ⟨hbody _ _, ih _⟩⟩

theorem cases {ds es : List (Int × Draft Unit)}
    (h : List.Forall₂ (fun d e => d.1 = e.1 ∧ EndsPrinted env d.2) ds es)
    {otherwise other : Option (Draft Unit)}
    (ho : Option.Rel (fun d _ => EndsPrinted env d) otherwise other) (inLoop : Bool) (n : Names) :
    env.PrintsAll (Draft.cases inLoop otherwise ds n).code.endTypes := by
  induction h generalizing n with
  | nil =>
    cases ho with
    | none => exact List.forall_mem_nil _
    | some hbody => exact hbody _ _
  | cons hd _ ih => exact List.forall_mem_append.2 ⟨hd.2 _ _, ih _⟩

/-- A jump ends with no type, in loops and outside of them. -/
theorem jump {d : Draft Unit} (h : ∀ inLoop n, (d inLoop n).code.endTypes = []) :
    EndsPrinted env d := fun inLoop n => by
  rw [h]
  exact List.forall_mem_nil _

end EndsPrinted

theorem prints_switchOperand (env : Env) (isUnion : Bool) (operand : Operand) (span : Span)
    (n : Names) : env.Prints (switchOperand env isUnion operand span n).value.2 := by
  unfold switchOperand
  split
  · exact env.prints_map _
  · split <;> exact env.prints_i64

/-- Whatever is walked over ends with printed types. -/
def endingTypes (env : Env) : WalkRelation .stay env env.record Set.univ Draft Draft where
  Relates d _ := EndsPrinted env d
  pure _ _ _ := List.forall_mem_nil _
  bind := .bind
  line _ := .line _
  string _ _ := .line _
  enclosed h := .bind (.line _) fun _ => .bind h fun _ => .line _
  guarded _ _ _ _ h inLoop n := EndsPrinted.of_closing (h inLoop n) _ _
  branching h inLoop n := EndsPrinted.of_closing (EndsPrinted.arms h inLoop n) _ _
  switching isUnion operand span _ _ h _ _ ho inLoop n := by
    change env.PrintsAll (Code.endTypes (Code.line _ ++ _))
    rw [Code.endTypes_append, Code.endTypes_line]
    exact EndsPrinted.of_closing ((prints_switchOperand env isUnion operand span n).cons
      (EndsPrinted.cases h ho inLoop _)) _ _
  looping hcheck hbody hupdate inLoop n := by
    refine EndsPrinted.of_closing ?_ _ _
    exact List.forall_mem_append.2
      ⟨hcheck _ _, List.forall_mem_append.2 ⟨hbody _ _, hupdate _ _⟩⟩
  jumping kind _ := .jump fun | true, _ => by cases kind <;> rfl | false, _ => rfl
  returning h _ _ _ := EndsPrinted.of_closing h.all _ _

theorem endsPrinted_draftOf (env : Env) (f : Func) (strings : List String)
    (debugInfo : Ir.DebugInfo) :
    env.PrintsAll (draftOf env f strings debugInfo).code.endTypes :=
  walkFunction_related (endingTypes env) (fun x _ => Set.mem_univ x) (.line _) (.line _) false _

theorem ends_printsAll (env : Env) :
    Ends (fun t => env.PrintsAll t.types) {type | env.Prints type} where
  goto _ := List.forall_mem_nil _
  branch _ _ _ := List.forall_mem_nil _
  switch h _ _ _ := Env.Prints.all h
  ret h _ := Env.Prints.all h

theorem prints_fallback (env : Env) (f : Func) : env.PrintsAll (fallback f).types := by
  unfold fallback
  split
  · exact env.prints_void.all
  · exact List.forall_mem_nil _

/-! ## Functions -/

/-- A function whose types are all printed ones. -/
structure FunctionConforms (env : Env) (g : Ir.Function) : Prop where
  returnType : env.Prints g.returnType
  params : env.PrintsAll (g.params.map Prod.snd)
  slots : ∀ slot ∈ g.slots, env.Stores slot.type
  insts : ∀ inst ∈ g.insts, Conforms env inst
  terminators : ∀ b ∈ g.blocks, env.PrintsAll b.terminator.types

theorem prints_params (env : Env) (f : Func) :
    env.PrintsAll ((declaration env.types f).params.map Prod.snd) := by
  change env.PrintsAll ((f.params.map _).map Prod.snd)
  rw [List.map_map]
  exact List.forall_mem_map.2 fun param _ => env.prints_map param.2

theorem conforms_lowerFunction (env : Env) (f : Func) (strings : List String)
    (debugInfo : Ir.DebugInfo) :
    FunctionConforms env (lowerFunction env f strings debugInfo).function where
  returnType := env.prints_map f.returnType
  params := prints_params env f
  slots := by
    rw [slots_lowerFunction]
    exact (conforming_draftOf env f strings debugInfo).2
  insts inst hi := (conforming_draftOf env f strings debugInfo).1 inst
    ((insts_lowerFunction env f strings debugInfo).subset hi)
  terminators b hb := by
    have blocks := Code.ending_blocks (ends_printsAll env) _
      (endsPrinted_draftOf env f strings debugInfo) (prints_fallback env f)
    rw [← finalState_blocks] at blocks
    exact blocks b (List.mem_of_mem_filter hb)

/-! ## Passes -/

/-- A type that is named behind the passes: a printed one, or what a printed one points to. -/
def Env.Mentions (env : Env) (type : String) : Prop :=
  env.Prints type ∨ env.Prints (type ++ "*")

/-- What the passes leave of an instruction with printed types. -/
structure ConformsBehind (env : Env) (inst : Inst) : Prop where
  types : ∀ type ∈ inst.types, env.Mentions type
  signature : ∀ name signature, inst.signature? = some (name, signature) →
    signature = env.variadic.get? name

theorem Conforms.behind {env : Env} {inst : Inst} (h : Conforms env inst) :
    ConformsBehind env inst := ⟨fun type ht => .inl (h.types type ht), h.signature⟩

theorem Conforms.replaceSize {env : Env} {inst : Inst} (h : Conforms env inst) :
    Conforms env (Ir.replaceInst Ir.sizeReplacement? inst) := by
  rw [Ir.replaceInst]
  cases hr : Ir.sizeReplacement? inst with
  | none => exact h
  | some new =>
    obtain ⟨_, _, _, _, _, _, _, -, rfl⟩ := Ir.sizeReplacement?_eq_some hr
    exact ⟨env.prints_i64.all, fun _ _ hs => nomatch hs⟩

theorem Conforms.replacePtr {env : Env} {inst : Inst} (h : Conforms env inst) :
    ConformsBehind env (Ir.replaceInst Ir.ptrReplacement? inst) := by
  rw [Ir.replaceInst]
  cases hr : Ir.ptrReplacement? inst with
  | none => exact h.behind
  | some new =>
    obtain ⟨_, _, _, _, _, _, _, pointee, _, _, rfl, rfl, -, -, rfl⟩ :=
      Ir.ptrReplacement?_eq_some hr
    refine ⟨List.forall_mem_singleton.2 (.inr ?_), fun _ _ hs => nomatch hs⟩
    exact h.types _ List.mem_cons_self

theorem FunctionConforms.passed {env : Env} {g : Ir.Function} (h : FunctionConforms env g) :
    ∀ inst ∈ (passed g).insts, ConformsBehind env inst := by
  intro inst hi
  rw [Lowering.passed, insts_replace, insts_replace, List.map_map] at hi
  obtain ⟨inst₀, hi₀, rfl⟩ := List.mem_map.1 hi
  exact (h.insts inst₀ hi₀).replaceSize.replacePtr

/-! ## Programs -/

variable {context : Context} {symbols : SymbolTable} {config : Config} {m : Ir.Module}

/-- A function of a lowered program has the head of the function that it comes from. -/
structure HeadOf (types : TypeMap) (f : Func) (g : Ir.Function) : Prop where
  name : g.name = f.name
  isVariadic : g.isVariadic = f.isVariadic
  params : g.params = (declaration types f).params

theorem LoweredFrom.headOf {env : Env} {f : Func} {g : Ir.Function} (h : LoweredFrom env f g) :
    HeadOf env.types f (passed g) := by
  obtain ⟨strings, debugInfo, -, rfl⟩ := h
  exact ⟨rfl, rfl, rfl⟩

/-- The heads of a lowered program are those of its functions, in order. -/
theorem forall₂_headOf (h : lowerProgram context symbols config = .ok m) :
    List.Forall₂ (HeadOf (.ofSymbols symbols)) (context.decls ++ context.impls)
      (m.decls ++ m.impls) := by
  obtain ⟨gs, hlowered, himpls⟩ := lowerProgram_lowered h
  refine List.rel_append ?_ ?_
  · obtain ⟨impls, strings, debugInfo, rfl⟩ := lowerProgram_frame h
    exact List.forall₂_map_right_iff.2 (List.forall₂_same.2 fun f _ => ⟨rfl, rfl, rfl⟩)
  · rw [himpls]
    exact List.forall₂_map_right_iff.2 (hlowered.imp fun _ _ hg => hg.headOf)

/-- A call in a lowered program carries the parameter list that is known for its callee. -/
theorem signature_of_mem (h : lowerProgram context symbols config = .ok m) {g : Ir.Function}
    (hg : g ∈ m.impls) {inst : Inst} (hi : inst ∈ g.insts) {name : String}
    {signature : Option String} (hs : inst.signature? = some (name, signature)) :
    signature = (variadicSignatures (.ofSymbols symbols) context).get? name := by
  obtain ⟨f, -, g₀, ⟨strings, debugInfo, -, rfl⟩, rfl⟩ := exists_loweredFrom_of_mem h hg
  exact ((conforms_lowerFunction _ f strings debugInfo).passed inst hi).signature name signature hs

theorem HeadOf.variadicList {types : TypeMap} {f : Func} {g : Ir.Function}
    (h : HeadOf types f g) : g.variadicList = variadicSignature types f := by
  have params : g.params.map Prod.snd = f.params.map fun param => types.map param.2 := by
    rw [h.params]
    exact List.map_map
  rw [Ir.Function.variadicList, params]
  rfl

/-- The parameter list of a call is that of a function of the module. -/
theorem exists_callee (h : lowerProgram context symbols config = .ok m) {g : Ir.Function}
    (hg : g ∈ m.impls) {inst : Inst} (hi : inst ∈ g.insts) {name signature : String}
    (hs : inst.signature? = some (name, some signature)) :
    ∃ callee ∈ m.decls ++ m.impls, callee.name = name ∧ callee.isVariadic = true ∧
      signature = callee.variadicList := by
  have found := (signature_of_mem h hg hi hs).symm
  obtain ⟨f, hf, he⟩ := List.mem_map.1 (Dict.mem_of_get?_ofList found)
  obtain ⟨hmem, hvariadic⟩ := List.mem_filter.1 hf
  obtain ⟨rfl, rfl⟩ := Prod.mk.inj he
  obtain ⟨callee, hcallee, head⟩ := exists_mem_of_forall₂ (forall₂_headOf h) hmem
  exact ⟨callee, hcallee, head.name, head.isVariadic.trans hvariadic, head.variadicList.symm⟩

end Codegen.Lowering
