import Codegen.Proofs.Emitted
import Codegen.Proofs.Initializers
import Codegen.Proofs.Names.Mangled

/-!
# Called names meet defined names

A call mangles the name of its callee once more, whether it was mangled already or has been put
together from the path of a type and the name of a member.  The definitions are named in the other
order: the helper functions of a struct are called after its mangled path.  Both ways lead to the
same name.
-/

namespace Codegen.Lowering

open Ir (Inst)
open Text (mangle)

variable {α β : Type}

/-- The functions that the instructions so far call, in order. -/
def Graph.calls (g : Graph) : List String := g.insts.filterMap Inst.callee?

/-! ## Steps that call nothing -/

/-- A straight-line step that calls nothing. -/
def Silent (step : Line α) : Prop := ∀ n : Names, (step n).insts.filterMap Inst.callee? = []

namespace Silent

theorem of_quiet {step : Line α} (h : Quiet step) : Silent step := fun n => by
  rw [h.insts, List.filterMap_nil]

theorem bind {x : Line α} {f : α → Line β} (hx : Silent x) (hf : ∀ a, Silent (f a)) :
    Silent (x >>= f) := fun n => by
  change ((x n).insts ++ (f (x n).value (x n).names).insts).filterMap Inst.callee? = []
  rw [List.filterMap_append, hx n, hf, List.append_nil]

theorem emit {inst : Inst} (h : inst.callee? = none) : Silent (emit inst) := fun _ => by
  simp [Lowering.emit, h]

/-- A temporary and the instruction that defines it. -/
theorem compute {inst : String → Inst} (h : ∀ x, (inst x).callee? = none) {k : String → Line α}
    (hk : ∀ x, Silent (k x)) :
    Silent (temp >>= fun x => Lowering.emit (inst x) >>= fun _ => k x) :=
  bind (fun _ => rfl) fun x => (emit (h x)).bind fun _ => hk x

theorem pure (a : α) : Silent (Pure.pure a : Line α) := fun _ => rfl

theorem withTop {absent : α} {step : Operand → Line α} (h : ∀ o, Silent (step o)) :
    Silent (withTop absent step) := by
  refine bind (fun _ => rfl) fun n => ?_
  cases n.stack with
  | nil => exact pure _
  | cons operand rest => exact bind (fun _ => rfl) fun _ => h operand

theorem push (operand : Operand) : Silent (push operand) := of_quiet (.push operand)

variable (env : Env)

theorem load (location : Operand) : Silent (load env location) :=
  compute (fun _ => rfl) fun _ => pure _

theorem dereference : Silent (dereference env) := by
  refine withTop fun source => ?_
  split
  · exact compute (fun _ => rfl) fun _ => (push _).bind fun _ => pure _
  · exact (push _).bind fun _ => pure _

theorem reached (mode : Mode) (isResult : Bool) (source : Operand) :
    Silent (reached env mode isResult source) := by
  have decayed : Silent (loadOrDecay env source) := by
    unfold loadOrDecay
    split
    · exact compute (fun _ => rfl) fun _ => pure _
    · exact load env source
  unfold Lowering.reached
  split
  · cases mode with
    | value => exact decayed
    | address =>
      dsimp only
      split
      · exact load env source
      · exact pure _
  · exact pure _

theorem finishChain (mode : Mode) (endsWithCall : Bool) :
    Silent (finishChain env mode endsWithCall) :=
  (dereference env).bind fun _ => withTop fun _ => (reached env _ _ _).bind fun _ => push _

end Silent

theorem calls_line (step : Line α) (s : State) : (Lower.line step s).2.calls =
    s.calls ++ (step s.toNames).insts.filterMap Inst.callee? := by
  change ((appendAll (step s.toNames).insts s.toGraph).2.insts).filterMap Inst.callee? = _
  rw [insts_appendAll, List.filterMap_append]
  rfl

theorem Silent.calls {step : Line α} (h : Silent step) (s : State) :
    (Lower.line step s).2.calls = s.calls := by
  rw [calls_line, h, List.append_nil]

/-- What mends the stack calls nothing. -/
theorem calls_balanced (kind : NodeKind) (span : Span) (walk : Lower Unit) (s : State) :
    (balanced kind span walk s).2.calls = (walk s).2.calls := by
  rw [balanced_run]
  exact (Silent.of_quiet (.mend _ _ _ _)).calls _

/-! ## Steps one after the other -/

theorem appendAll_append (insts more : List Inst) (g : Graph) :
    appendAll (insts ++ more) g = appendAll more (appendAll insts g).2 := by
  induction insts generalizing g with
  | nil => rfl
  | cons inst rest ih => exact ih _

/-- Straight-line steps one after the other. -/
theorem Lower.line_bind (x : Line α) (f : α → Line β) (s : State) :
    Lower.line (x >>= f) s = Lower.line (f (Lower.line x s).1) (Lower.line x s).2 := by
  have run : Lower.line (x >>= f) s =
      let first := x s.toNames
      let second := f first.value first.names
      (second.value, ⟨second.names, (appendAll (first.insts ++ second.insts) s.toGraph).2,
        s.notes ++ (first.notes ++ second.notes)⟩) := rfl
  rw [run]
  dsimp only
  rw [appendAll_append, ← Notes.append_assoc]
  rfl

theorem Lower.line_pop {operand : Operand} {rest : List Operand} {s : State}
    (h : s.stack = operand :: rest) (span : Span) :
    Lower.line (pop span) s = (operand, { s with stack := rest }) := by
  have popped : pop span s.toNames =
      { value := operand, names := { s.toNames with stack := rest } } := by
    unfold pop
    dsimp only [bind, get, getThe, MonadStateOf.get]
    rw [h]
    rfl
  exact Lower.line_eq popped

/-- A step that takes the top of the stack goes on with it. -/
theorem Lower.pop_bind {operand : Operand} {rest : List Operand} {s : State}
    (h : s.stack = operand :: rest) (span : Span) (f : Operand → Lower α) :
    ((Assembler.line (pop span) : Lower Operand) >>= f) s = f operand { s with stack := rest } := by
  change f (Lower.line (pop span) s).1 (Lower.line (pop span) s).2 = _
  rw [Lower.line_pop h]

/-! ## Chains -/

section Chains

variable (env : Env)

/-- The call itself is named by the mangled callee. -/
theorem calls_emitCall (callee : String) (type : Ty) (args : List Operand) (span : Span)
    (s : State) :
    (Lower.line (emitCall env callee type args span) s).2.calls = s.calls ++ [mangle callee] := by
  rw [calls_line]
  congr 1
  unfold emitCall addLocation
  cases env.record <;> cases type.isVoid <;> rfl

theorem lowerLinks_append (links more : List Node) (s : State) :
    (lowerLinks env (links ++ more) : Lower Unit) s =
      (lowerLinks env more : Lower Unit) ((lowerLinks env links : Lower Unit) s).2 := by
  induction links generalizing s with
  | nil => rfl
  | cons link rest ih =>
    rw [List.cons_append, lowerLinks, lowerLinks]
    exact ih _

theorem lowerLinks_singleton (link : Node) (s : State) :
    (lowerLinks env [link] : Lower Unit) s = (lowerLink env link : Lower Unit) s := rfl

theorem lowerLinks_cons (link : Node) (more : List Node) (s : State) :
    (lowerLinks env (link :: more) : Lower Unit) s =
      (lowerLinks env more : Lower Unit) ((lowerLink env link : Lower Unit) s).2 := rfl

/-- The state in which a chain has reached what stands in front of its last links. -/
def chainReached (head : Node) (links : List Node) (s : State) : State :=
  ((lowerLinks env links : Lower Unit) (walked env head s)).2

/-- What has been called when a chain is at its end, whether it is a node of its own or an operand
that is wanted as a value or as an address. -/
def ChainCalls (chain : List Node) (s : State) (names : List String) : Prop :=
  ∀ (type : Ty) (span : Span), (walked env (.mk (.call type chain) span) s).calls = names ∧
    ∀ mode, ((lowerChain env mode span type chain : Lower Unit) s).2.calls = names

/-- What ends a chain calls nothing. -/
theorem chainCalls_reached (head : Node) (links : List Node) (s : State) :
    ChainCalls env (head :: links) s (chainReached env head links s).calls := by
  intro type span
  have operand : ∀ mode, ((lowerChain env mode span type (head :: links) : Lower Unit) s).2.calls =
      (chainReached env head links s).calls := by
    intro mode
    have run : (lowerChain env mode span type (head :: links) : Lower Unit) s =
      Lower.line (finishChain env mode (endsWithCall links)) (chainReached env head links s) := rfl
    rw [run]
    exact (Silent.finishChain env _ _).calls _
  refine ⟨?_, operand⟩
  rw [walked, lowerNode, lowerKind, calls_balanced, operand]

variable {env}

/-- A known global name puts what it stands for on the stack. -/
theorem walked_global {type : Ty} (global : type.isGlobal = true)
    (known : env.symbols.kindOf type ≠ .unknown) (name : String) (span : Span) (s : State) :
    walked env (.mk (.callId name type) span) s =
      { s with stack := globalSketch env type :: s.stack } := by
  have operand : globalOperand env type span = pure (globalSketch env type) := by
    unfold globalOperand globalSketch
    cases h : env.symbols.kindOf type with
    | unknown => exact absurd h known
    | _ => rfl
  have pushes : (lowerKind env span (.callId name type) : Lower Unit) s =
      ((), { s with stack := globalSketch env type :: s.stack }) := by
    have step : pushIdentifier env name type span = push (globalSketch env type) := by
      rw [pushIdentifier, if_pos global, operand]
      rfl
    have run : (lowerKind env span (.callId name type) : Lower Unit) s =
      Lower.line (pushIdentifier env name type span) s := rfl
    rw [run, step, Lower.line_push]
  rw [walked, lowerNode, balanced_of_height, pushes]
  rw [pushes]
  rfl

/-- A call of a function. -/
theorem calls_function {callee : Operand} {rest : List Operand} {s : State}
    (kind : callee.kind = .function) (h : s.stack = callee :: rest) (result : Ty)
    (args : List Node) (byReference : List Bool) (span : Span) :
    ((lowerLinks env [.mk (.callFunc result args byReference) span] : Lower Unit) s).2.calls =
      ((lowerArgs env byReference args : Lower _) { s with stack := rest }).2.calls ++
        [mangle callee.content] := by
  have run : (lowerLink env (.mk (.callFunc result args byReference) span) : Lower Unit) s =
      let r := (lowerArgs env byReference args : Lower _) { s with stack := rest }
      Lower.line (emitCall env callee.content result r.1 span) r.2 := by
    rw [lowerLink]
    refine (Lower.pop_bind h span _).trans ?_
    rw [kind]
    rfl
  rw [lowerLinks_singleton, run]
  exact calls_emitCall env _ _ _ _ _

/-- A call of a method, whose receiver lies below it. -/
theorem calls_method {callee : Operand} {rest : List Operand} {s : State}
    (kind : callee.kind = .method) (h : s.stack = callee :: rest) (result : Ty)
    (byReference : List Bool) (span : Span) :
    ((lowerLinks env [.mk (.callFunc result [] byReference) span] : Lower Unit) s).2.calls =
      s.calls ++ [mangle callee.content] := by
  let begun : State := { s with stack := rest }
  let receiver := Lower.line (pop span) (Lower.line (dereference env) begun).2
  have run : (lowerLink env (.mk (.callFunc result [] byReference) span) : Lower Unit) s =
      Lower.line (emitCall env callee.content result [receiver.1] span) receiver.2 := by
    rw [lowerLink]
    refine (Lower.pop_bind h span _).trans ?_
    rw [kind]
    rfl
  rw [lowerLinks_singleton, run, calls_emitCall]
  have popped : receiver.2.calls = (Lower.line (dereference env) begun).2.calls :=
    (Silent.of_quiet (.pop span)).calls _
  rw [popped, (Silent.dereference env).calls]

/-! ## Members -/

/-- A function inside of a type. -/
theorem lowerLink_getPath {owner : Operand} {rest : List Operand} {s : State}
    (kind : owner.kind ∈ [.primitive, .struct, .union]) (h : s.stack = owner :: rest)
    (name : String) (type : Ty) (span : Span) :
    (lowerLink env (.mk (.getPath name type) span) : Lower Unit) s =
      ((), { s with stack := ⟨.function, owner.type.fullPath ++ "." ++ name, type⟩ :: rest }) := by
  have run : (lowerLink env (.mk (.getPath name type) span) : Lower Unit) s =
    Lower.line (lowerGetPath env name type span) s := rfl
  rw [run, lowerGetPath, Lower.line_bind, Lower.line_pop h]
  have pushes : Lower.line (push ⟨.function, owner.type.fullPath ++ "." ++ name, type⟩)
      { s with stack := rest } = ((),
        { s with stack := ⟨.function, owner.type.fullPath ++ "." ++ name, type⟩ :: rest }) :=
    Lower.line_push _ _
  simp only [List.mem_cons, List.not_mem_nil, or_false] at kind
  rcases kind with kind | kind | kind
  all_goals
    dsimp only
    rw [kind]
    exact pushes

/-- A reference on top of the stack makes way for the location it holds. -/
theorem dereference_stack (env : Env) {receiver : Operand} {rest : List Operand} {s : State}
    (h : s.stack = receiver :: rest) :
    ∃ location, (Lower.line (dereference env) s).2.stack = location :: rest ∧
      location.type = (settled receiver).type := by
  have names : (Lower.line (dereference env) s).2.stack =
      (dereference env s.toNames).names.stack := rfl
  rw [names, settled]
  unfold dereference withTop
  dsimp only [bind, get, getThe, MonadStateOf.get]
  rw [h]
  dsimp only
  cases receiver.type.isReference with
  | true => exact ⟨_, rfl, rfl⟩
  | false => exact ⟨_, rfl, rfl⟩

/-- A method is pushed as one, whatever the type is; a built-in type may lack it. -/
theorem pushMember_method {receiver : Operand} {name : String}
    (method : isMethod env receiver.type.pointee name = true) (type : Ty) (span : Span) :
    pushMember env receiver name type span = pushMethod receiver receiver.type.pointee name type ∨
      ∃ missing, pushMember env receiver name type span =
        fault span missing >>= fun _ => pushMethod receiver receiver.type.pointee name type := by
  rw [isMethod] at method
  rw [pushMember]
  by_cases path : receiver.type.pointee.path = ""
  · rw [if_pos path, primitiveMember]
    split
    · exact .inr ⟨_, rfl⟩
    · exact .inl rfl
  · rw [if_neg path] at method ⊢
    left
    cases struct : env.symbols.findStruct receiver.type.pointee with
    | some symbol =>
      rw [struct] at method
      exact if_pos method
    | none =>
      cases union : env.symbols.findUnion receiver.type.pointee with
      | some symbol =>
        rw [struct, union] at method
        exact if_pos method
      | none =>
        rw [struct, union] at method
        cases method

/-- A method on the stack, and nothing has been called for it. -/
structure MethodReached (s s' : State) (content : String) : Prop where
  stack : ∃ type below, s'.stack = ⟨.method, content, type⟩ :: below
  calls : s'.calls = s.calls

theorem pushMember_reaches {location : Operand} {name : String}
    (method : isMethod env location.type.pointee name = true) (type : Ty) (span : Span)
    (s : State) :
    MethodReached s (Lower.line (pushMember env location name type span) s).2
      (location.type.pointee.fullPath ++ "." ++ name) := by
  have pushes : Silent (pushMethod location location.type.pointee name type) :=
    .of_quiet (.pushMethod _ _ _ _)
  rcases pushMember_method method type span with step | ⟨missing, step⟩
  · rw [step]
    exact ⟨⟨_, _, rfl⟩, pushes.calls s⟩
  · rw [step]
    exact ⟨⟨_, _, rfl⟩, ((Silent.of_quiet (.fault _ _)).bind fun _ => pushes).calls s⟩

section Receiver

variable {receiver : Operand} {rest : List Operand} {s : State} (h : s.stack = receiver :: rest)
include h

theorem lowerLink_getField {name : String}
    (method : isMethod env (settled receiver).type.pointee name = true) (type : Ty) (span : Span) :
    MethodReached s ((lowerLink env (.mk (.getField name type) span) : Lower Unit) s).2
      ((settled receiver).type.pointee.fullPath ++ "." ++ name) := by
  obtain ⟨location, stack, same⟩ := dereference_stack env h
  have run : (lowerLink env (.mk (.getField name type) span) : Lower Unit) s =
      Lower.line (pushMember env location name type span)
        { (Lower.line (dereference env) s).2 with stack := rest } := by
    have step : (lowerLink env (.mk (.getField name type) span) : Lower Unit) s =
      Lower.line (lowerGetField env name type span) s := rfl
    rw [step, lowerGetField, Lower.line_bind, Lower.line_bind, Lower.line_pop stack]
  rw [← same] at method ⊢
  rw [run]
  obtain ⟨reached, calls⟩ := pushMember_reaches method type span
    { (Lower.line (dereference env) s).2 with stack := rest }
  exact ⟨reached, calls.trans ((Silent.dereference env).calls s)⟩

theorem lowerLink_ptrGetField {name : String}
    (method : isMethod env (settled receiver).type.pointee.pointee name = true) (type : Ty)
    (span : Span) :
    MethodReached s ((lowerLink env (.mk (.ptrGetField name type) span) : Lower Unit) s).2
      ((settled receiver).type.pointee.pointee.fullPath ++ "." ++ name) := by
  obtain ⟨location, stack, same⟩ := dereference_stack env h
  let begun : State := { (Lower.line (dereference env) s).2 with stack := rest }
  let loaded := Lower.line (load env location) begun
  have run : (lowerLink env (.mk (.ptrGetField name type) span) : Lower Unit) s =
      Lower.line (pushMember env loaded.1 name type span) loaded.2 := by
    have step : (lowerLink env (.mk (.ptrGetField name type) span) : Lower Unit) s =
      Lower.line (lowerPtrGetField env name type span) s := rfl
    rw [step, lowerPtrGetField, Lower.line_bind, Lower.line_bind, Lower.line_pop stack,
      Lower.line_bind]
  have pointee : loaded.1.type = (settled receiver).type.pointee := congrArg Ty.pointee same
  rw [← pointee] at method ⊢
  rw [run]
  obtain ⟨reached, calls⟩ := pushMember_reaches method type span loaded.2
  refine ⟨reached, calls.trans ?_⟩
  have silent : loaded.2.calls = begun.calls := (Silent.load env location).calls begun
  rw [silent]
  exact (Silent.dereference env).calls s

end Receiver

/-- Calls of a function of the type at a path, without arguments, call `symbol`: behind the name of
the type, as a method of a value at a location, and as one of what a pointer points to.  Of a method
the chain may have any links in front. -/
structure CallsMember (env : Env) (path member symbol : String) : Prop where
  static : ∀ owner : Ty, owner.isGlobal = true → owner.fullPath = path →
    env.symbols.kindOf owner ∈ [.basic, .struct, .union] →
    ∀ (name : String) (memberType result : Ty) (byReference : List Bool)
      (nameSpan memberSpan callSpan : Span) (s : State),
    ChainCalls env [.mk (.callId name owner) nameSpan, .mk (.getPath member memberType) memberSpan,
      .mk (.callFunc result [] byReference) callSpan] s (s.calls ++ [symbol])
  method : ∀ (head : Node) (links : List Node) (receiver : Operand) (rest : List Operand)
      (s : State),
    (chainReached env head links s).stack = receiver :: rest →
    (settled receiver).type.pointee.fullPath = path →
    isMethod env (settled receiver).type.pointee member = true →
    ∀ (memberType result : Ty) (byReference : List Bool) (memberSpan callSpan : Span),
    ChainCalls env (head :: (links ++ [.mk (.getField member memberType) memberSpan,
        .mk (.callFunc result [] byReference) callSpan])) s
      ((chainReached env head links s).calls ++ [symbol])
  pointer : ∀ (head : Node) (links : List Node) (receiver : Operand) (rest : List Operand)
      (s : State),
    (chainReached env head links s).stack = receiver :: rest →
    (settled receiver).type.pointee.pointee.fullPath = path →
    isMethod env (settled receiver).type.pointee.pointee member = true →
    ∀ (memberType result : Ty) (byReference : List Bool) (memberSpan callSpan : Span),
    ChainCalls env (head :: (links ++ [.mk (.ptrGetField member memberType) memberSpan,
        .mk (.callFunc result [] byReference) callSpan])) s
      ((chainReached env head links s).calls ++ [symbol])

/-- The name of a type, as an owner of functions. -/
theorem globalSketch_of_type {owner : Ty}
    (known : env.symbols.kindOf owner ∈ [.basic, .struct, .union]) :
    (globalSketch env owner).kind ∈ [.primitive, .struct, .union] ∧
      (globalSketch env owner).type = owner := by
  simp only [List.mem_cons, List.not_mem_nil, or_false] at known
  unfold globalSketch
  rcases known with known | known | known
  all_goals
    rw [known]
    exact ⟨by simp, rfl⟩

/-- A call of the method that the link in front of it has reached. -/
theorem chainCalls_method {link : Node} {content : String} {head : Node} {links : List Node}
    {s : State}
    (h : MethodReached (chainReached env head links s)
      ((lowerLink env link : Lower Unit) (chainReached env head links s)).2 content)
    (result : Ty) (byReference : List Bool) (callSpan : Span) :
    ChainCalls env (head :: (links ++ [link, .mk (.callFunc result [] byReference) callSpan])) s
      ((chainReached env head links s).calls ++ [mangle content]) := by
  obtain ⟨⟨methodType, below, stack⟩, same⟩ := h
  have calls := chainCalls_reached env head
    (links ++ [link, .mk (.callFunc result [] byReference) callSpan]) s
  rwa [chainReached, lowerLinks_append, ← chainReached, lowerLinks_cons, calls_method rfl stack,
    same] at calls

theorem callsMember (env : Env) (path : String) {member : String}
    (h : Text.PathFree member.toList) :
    CallsMember env path member (mangle path ++ "." ++ member) where
  static owner global same known name memberType result byReference nameSpan memberSpan callSpan
      s := by
    obtain ⟨kind, ownerType⟩ := globalSketch_of_type known
    have found : env.symbols.kindOf owner ≠ .unknown := fun unknown => by
      rw [unknown] at known
      exact absurd known (by decide)
    have calls := chainCalls_reached env (.mk (.callId name owner) nameSpan)
      [.mk (.getPath member memberType) memberSpan,
        .mk (.callFunc result [] byReference) callSpan] s
    rwa [chainReached, walked_global global found, lowerLinks_cons, lowerLink_getPath kind rfl,
      ownerType, same, calls_function rfl rfl, Text.mangle_append_dot path h] at calls
  method head links receiver rest s stack same method _ _ _ _ _ := by
    rw [← Text.mangle_append_dot path h, ← same]
    exact chainCalls_method (lowerLink_getField stack method _ _) _ _ _
  pointer head links receiver rest s stack same method _ _ _ _ _ := by
    rw [← Text.mangle_append_dot path h, ← same]
    exact chainCalls_method (lowerLink_ptrGetField stack method _ _) _ _ _

/-- A call of a function that is not external names it by its mangled path. -/
theorem chainCalls_function {callee : Ty} (global : callee.isGlobal = true)
    (function : env.symbols.kindOf callee = .function)
    (own : ∀ f ∈ env.symbols.findFunction callee, f.isExternal = false) (name : String)
    (result : Ty) (args : List Node) (byReference : List Bool) (nameSpan callSpan : Span)
    (s : State) :
    ChainCalls env [.mk (.callId name callee) nameSpan,
        .mk (.callFunc result args byReference) callSpan] s
      (((lowerArgs env byReference args : Lower (List Operand)) s).2.calls ++
        [mangle callee.fullPath]) := by
  have found : env.symbols.kindOf callee ≠ .unknown := by
    rw [function]
    decide
  have symbol : globalSketch env callee = ⟨.function, mangle callee.fullPath, callee⟩ := by
    rw [globalSketch, function, functionSymbol]
    cases h : env.symbols.findFunction callee with
    | none => rfl
    | some f =>
      dsimp only
      rw [own f h]
      rfl
  have calls := chainCalls_reached env (.mk (.callId name callee) nameSpan)
    [.mk (.callFunc result args byReference) callSpan] s
  rwa [chainReached, walked_global global found, symbol, calls_function rfl rfl,
    Text.mangle_mangle] at calls

end Chains

end Codegen.Lowering

/-! ## Printed helpers -/

namespace Codegen

/-- A text of whole lines. -/
def Text.Lined (text : String) : Prop := text = "" ∨ ∃ front, text = line front

namespace Text.Lined

theorem append_line (front last : String) : Lined (front ++ line last) :=
  .inr ⟨front ++ last, (String.append_assoc ..).symm⟩

theorem append {front back : String} (hf : Lined front) (hb : Lined back) :
    Lined (front ++ back) := by
  rcases hb with rfl | ⟨last, rfl⟩
  · rwa [String.append_empty]
  · exact append_line front last

theorem concat {parts : List String} (h : ∀ part ∈ parts, Lined part) : Lined (concat parts) := by
  induction parts with
  | nil => exact .inl rfl
  | cons part rest ih =>
    have hrest := ih fun p hp => h p (List.mem_cons_of_mem _ hp)
    exact (h part List.mem_cons_self).append hrest

theorem sectionText (parts : List String) : Lined (Ir.sectionText parts) := by
  unfold Ir.sectionText
  split
  · exact .inl rfl
  · exact append_line _ _

end Text.Lined

theorem Text.concat_append (parts more : List String) :
    concat (parts ++ more) = concat parts ++ concat more := by
  induction parts with
  | nil => exact (String.empty_append).symm
  | cons part rest ih =>
    rw [List.cons_append, concat, concat, ih, String.append_assoc]

namespace Ir

/-- A line that opens the definition of a function without parameters, one to be inlined. -/
def openingLine (returnType name : String) : String :=
  Text.line ("define " ++ returnType ++ " " ++ globalName name ++ "() alwaysinline \x7b")

/-- The helper functions of a struct, each with what it returns. -/
def helperTypes (name : String) : List (String × String) :=
  [("__size__", "i64"), ("__alloc__", structName name ++ "*")]

theorem pathFree_of_helper {name : String} {helper : String × String}
    (h : helper ∈ helperTypes name) : Text.PathFree helper.1.toList := by
  have size : Text.PathFree "__size__".toList := by decide +kernel
  have alloc : Text.PathFree "__alloc__".toList := by decide +kernel
  simp only [helperTypes, List.mem_cons, List.not_mem_nil, or_false] at h
  rcases h with rfl | rfl
  · exact size
  · exact alloc

theorem sizeHelperText_eq (decl : TypeDecl) :
    ∃ body, sizeHelperText decl = openingLine "i64" (decl.name ++ "." ++ "__size__") ++ body := by
  have name : sizeHelper decl.name = decl.name ++ "." ++ "__size__" := by
    rw [sizeHelper, String.append_assoc]
    rfl
  rw [sizeHelperText, name, String.append_assoc, String.append_assoc]
  exact ⟨_, rfl⟩

theorem allocHelperText_eq (decl : TypeDecl) :
    ∃ body, allocHelperText decl =
      openingLine (structName decl.name ++ "*") (decl.name ++ "." ++ "__alloc__") ++ body := by
  have name : allocHelper decl.name = decl.name ++ "." ++ "__alloc__" := by
    rw [allocHelper, String.append_assoc]
    rfl
  have type : "define " ++ structName decl.name ++ "* " =
      "define " ++ (structName decl.name ++ "*") ++ " " := by
    rw [String.append_assoc, String.append_assoc, String.append_assoc]
    rfl
  rw [allocHelperText, name, type]
  iterate 5 rw [String.append_assoc]
  exact ⟨_, rfl⟩

/-- Every helper of a struct is in the section of the helpers. -/
theorem exists_helperText {structs : List TypeDecl} {decl : TypeDecl} (h : decl ∈ structs)
    {helper : String × String} (hh : helper ∈ helperTypes decl.name) :
    ∃ body, openingLine helper.2 (decl.name ++ "." ++ helper.1) ++ body ∈
      structs.map sizeHelperText ++ structs.map allocHelperText := by
  simp only [helperTypes, List.mem_cons, List.not_mem_nil, or_false] at hh
  rcases hh with rfl | rfl
  · obtain ⟨body, text⟩ := sizeHelperText_eq decl
    exact ⟨body, List.mem_append_left _ (List.mem_map.2 ⟨decl, h, text⟩)⟩
  · obtain ⟨body, text⟩ := allocHelperText_eq decl
    exact ⟨body, List.mem_append_right _ (List.mem_map.2 ⟨decl, h, text⟩)⟩

/-- A printed module defines a function without parameters: the opening line of its definition is a
line of the text. -/
def Module.Defines (m : Module) (debug : Bool) (returnType name : String) : Prop :=
  ∃ before after, Text.Lined before ∧
    m.text debug = before ++ openingLine returnType name ++ after

theorem Module.lined_header (m : Module) : Text.Lined m.header := Text.Lined.append_line _ _

theorem lined_helpers (structs : List TypeDecl) :
    ∀ text ∈ structs.map sizeHelperText ++ structs.map allocHelperText, Text.Lined text := by
  intro text h
  rcases List.mem_append.1 h with h | h
  · obtain ⟨decl, -, rfl⟩ := List.mem_map.1 h
    exact Text.Lined.append_line _ _
  · obtain ⟨decl, -, rfl⟩ := List.mem_map.1 h
    exact Text.Lined.append_line _ _

/-- A section, split at one of its parts. -/
theorem sectionText_append_cons (front : List String) (part : String) (back : List String) :
    sectionText (front ++ part :: back) =
      Text.concat front ++ (part ++ (Text.concat back ++ Text.line "")) := by
  have nonempty : (front ++ part :: back).isEmpty = false := by
    cases front <;> rfl
  have behind : Text.concat (part :: back) = part ++ Text.concat back := rfl
  rw [sectionText, nonempty, Text.concat_append, behind]
  simp only [Bool.false_eq_true, if_false, String.append_assoc]

theorem Module.defines_helper {m : Module} {decl : TypeDecl} (h : decl ∈ m.structs)
    {helper : String × String} (hh : helper ∈ helperTypes decl.name) (debug : Bool) :
    m.Defines debug helper.2 (decl.name ++ "." ++ helper.1) := by
  obtain ⟨body, listed⟩ := exists_helperText h hh
  obtain ⟨front, back, split⟩ := List.append_of_mem listed
  have before : ∀ text ∈ front, Text.Lined text := fun text hf =>
    lined_helpers m.structs text (split ▸ List.mem_append_left _ hf)
  have lined := ((m.lined_header.append
    (.sectionText (m.unions.map unionText ++ m.structs.map structText))).append
    (.sectionText (stringTexts 0 m.strings))).append (.concat before)
  refine ⟨_, body ++ (Text.concat back ++ Text.line "") ++ sectionText (m.declTexts debug) ++
    Text.concat (m.impls.map fun f => f.text debug ++ Text.line "") ++
    (if debug then debugText m.debugInfo else ""), lined, ?_⟩
  rw [text, split, sectionText_append_cons]
  simp only [String.append_assoc]

end Ir

namespace Lowering

open Text (mangle)

/-- The declared structs of a lowered program, in order. -/
theorem lowerProgram_structs {context : Context} {symbols : SymbolTable} {config : Config}
    {m : Ir.Module} (h : lowerProgram context symbols config = .ok m) :
    m.structs =
      context.structs.map (structDecl (.ofSymbols symbols) (.compute context symbols)) := by
  obtain ⟨impls, strings, debugInfo, rfl⟩ := lowerProgram_frame h
  rfl

/-- Names that are mangled twice, or before and after the name of a member is added, come out the
same.  So a call of a function that is not external names its mangled path once and for all, and a
call of a helper function of a struct, behind the name of the struct or as a method, names exactly
what the printed module defines. -/
theorem called_names_meet_defined_names :
    (∀ name, mangle (mangle name) = mangle name) ∧
    (∀ name member : String, Text.PathFree member.toList →
      mangle (name ++ "." ++ member) = mangle name ++ "." ++ member) ∧
    (∀ (env : Env) (callee : Ty), callee.isGlobal = true →
      env.symbols.kindOf callee = .function →
      (∀ f ∈ env.symbols.findFunction callee, f.isExternal = false) →
      ∀ (name : String) (result : Ty) (args : List Node) (byReference : List Bool)
        (nameSpan callSpan : Span) (s : State),
      ChainCalls env [.mk (.callId name callee) nameSpan,
          .mk (.callFunc result args byReference) callSpan] s
        (((lowerArgs env byReference args : Lower (List Operand)) s).2.calls ++
          [mangle callee.fullPath])) ∧
    ∀ context : Context, ∀ struct ∈ context.structs,
      ∀ helper ∈ Ir.helperTypes (mangle struct.fullPath),
      (∀ symbols config m, lowerProgram context symbols config = .ok m →
        ∀ debug, m.Defines debug helper.2 (mangle struct.fullPath ++ "." ++ helper.1)) ∧
      ∀ env : Env, CallsMember env struct.fullPath helper.1
        (mangle struct.fullPath ++ "." ++ helper.1) := by
  refine ⟨Text.mangle_mangle, fun name _ h => Text.mangle_append_dot name h,
    fun _ _ global function own => chainCalls_function global function own, ?_⟩
  intro context struct listed helper hh
  refine ⟨fun symbols config m lowered debug => ?_, fun env => ?_⟩
  · have declared : structDecl (.ofSymbols symbols) (.compute context symbols) struct ∈
        m.structs := by
      rw [lowerProgram_structs lowered]
      exact List.mem_map_of_mem listed
    exact Ir.Module.defines_helper declared hh debug
  · exact callsMember env _ (Ir.pathFree_of_helper hh)

namespace Sample

open Codegen.Sample

/-- Lists of pointers to cells. -/
def cells : Ty :=
  { name := "list", path := "a::b", generics := [{ name := "cell", path := "m", depth := 1 }] }

def cellsHolding : Context where
  structs := [{ name := "list<m::cell*>", path := "a::b", parts := [.i64] }]

def cellsSymbols : SymbolTable :=
  symbols.addStruct "a::b" { name := "list<m::cell*>", methods := .ofList ["__size__"] }

def cellsEnv : Env := { env with symbols := cellsSymbols }

/-- Asks the type for the size of a list. -/
def sizeOfType : List Node :=
  [ node (.callId "list" { cells with isGlobal := true }), node (.getPath "__size__" i64),
    node (.callFunc i64 [] []) ]

/-- Asks a list for its size. -/
def sizeOfItems : List Node :=
  [ node (.callId "items" cells), node (.getField "__size__" i64), node (.callFunc i64 [] []) ]

/-- Calls `more()`. -/
def anyMore : List Node :=
  [ node (.callId "more" { name := "more", path := "m", isGlobal := true }),
    node (.callFunc bool [] []) ]

end Sample

/-- Whoever asks for the size of a list of cells calls the function that the printed module
defines, and a plain call names the function in its module. -/
theorem sizes_of_cells_meet_their_definition :
    (∃ m, lowerProgram Sample.cellsHolding Sample.cellsSymbols {} = .ok m ∧
      m.Defines false "i64" "a.b.list<m::cell*>.__size__") ∧
    ChainCalls Sample.cellsEnv Sample.sizeOfType Sample.midway ["a.b.list<m::cell*>.__size__"] ∧
    ChainCalls Sample.cellsEnv Sample.sizeOfItems Sample.midway ["a.b.list<m::cell*>.__size__"] ∧
    ChainCalls Sample.cellsEnv Sample.anyMore Sample.midway ["m.more"] := by
  have name : Text.mangle "a::b::list<m::cell*>" ++ "." ++ "__size__" =
      "a.b.list<m::cell*>.__size__" := by decide +kernel
  have helpers := called_names_meet_defined_names.2.2.2 Sample.cellsHolding
    ⟨"list<m::cell*>", "a::b", "", {}, [.i64]⟩ List.mem_cons_self ("__size__", "i64")
    List.mem_cons_self
  have path : Aggregate.fullPath ⟨"list<m::cell*>", "a::b", "", {}, [.i64]⟩ =
      "a::b::list<m::cell*>" := by decide +kernel
  rw [path, name] at helpers
  obtain ⟨defined, called⟩ := helpers
  refine ⟨?_, ?_, ?_, ?_⟩
  · have lowered : (lowerProgram Sample.cellsHolding Sample.cellsSymbols {}).toOption.isSome =
      true := by decide +kernel
    cases h : lowerProgram Sample.cellsHolding Sample.cellsSymbols {} with
    | error e =>
      rw [h] at lowered
      cases lowered
    | ok m => exact ⟨m, rfl, defined _ _ m h false⟩
  · exact (called Sample.cellsEnv).static { Sample.cells with isGlobal := true } rfl
      (by decide +kernel) (by decide +kernel) "list" _ _ _ _ _ _ Sample.midway
  · exact (called Sample.cellsEnv).method _ [] (.var "items.0" Sample.cells.pointer)
      Sample.midway.stack Sample.midway rfl (by decide +kernel) (by decide +kernel) _ _ _ _ _
  · have symbol : Text.mangle (Ty.fullPath { name := "more", path := "m", isGlobal := true }) =
        "m.more" := by decide +kernel
    have calls := called_names_meet_defined_names.2.2.1 Sample.cellsEnv
      { name := "more", path := "m", isGlobal := true } rfl (by decide +kernel)
      (by decide +kernel) "more" Sample.bool [] [] {} {} Sample.midway
    rw [symbol] at calls
    exact calls

end Lowering

end Codegen
