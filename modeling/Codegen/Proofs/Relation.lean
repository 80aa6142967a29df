import Codegen.Lowering.Function
import Codegen.Proofs.Lines
import Codegen.Proofs.Relocation
import Mathlib.Data.Option.Defs
import Mathlib.Data.List.Forall2

/-!
# Walks of two assemblers

The walk over a body is the same for all assemblers, and the places of the nodes do not lead it.  So
a relation between the steps of two assemblers that is kept by everything an assembler can do holds
between their walks over a tree and the same tree at other places: `lowerNode_graded`.  Of
straight-line steps it has to be kept only by those that a walk takes (`Taken`), all of which are
`Built` from basic ones, and by the step for a string literal.  A relation may depend on the
literals of the tree (`GradedRelation`) or not (`WalkRelation`).
-/

namespace Codegen

mutual

/-- The names of the locals that a tree defines. -/
def Node.locals : Node → List String
  | .mk kind _ => kind.locals

def NodeKind.locals : NodeKind → List String
  | .block content => Node.localsOf content
  | .unary _ _ value => value.locals
  | .binary _ _ left right => left.locals ++ right.locals
  | .convert source _ => source.locals
  | .array _ _ values => Node.localsOf values
  | .structInit _ fields => FieldInit.localsOf fields
  | .call _ chain => Node.localsOf chain
  | .callIndex _ index => index.locals
  | .callFunc _ args _ => Node.localsOf args
  | .define name _ init => name :: init.locals
  | .assign _ left right => left.locals ++ right.locals
  | .branch arms => Arm.localsOf arms
  | .switch condition cases otherwise =>
    condition.locals ++ (Case.localsOf cases ++ Node.localsOf? otherwise)
  | .loop condition body update => condition.locals ++ (body.locals ++ Node.localsOf? update)
  | .ret value _ => Node.localsOf? value
  | _ => []

def Node.localsOf : List Node → List String
  | [] => []
  | node :: rest => node.locals ++ Node.localsOf rest

def Node.localsOf? : Option Node → List String
  | none => []
  | some node => node.locals

def FieldInit.localsOf : List FieldInit → List String
  | [] => []
  | .mk _ content _ :: rest => content.locals ++ FieldInit.localsOf rest

def Arm.localsOf : List Arm → List String
  | [] => []
  | .mk condition body _ :: rest =>
    Node.localsOf? condition ++ (body.locals ++ Arm.localsOf rest)

def Case.localsOf : List Case → List String
  | [] => []
  | .mk _ body _ :: rest => body.locals ++ Case.localsOf rest

end

mutual

/-- The string literals of a tree, in order. -/
def Node.literals : Node → List String
  | .mk kind _ => kind.literals

def NodeKind.literals : NodeKind → List String
  | .block content => Node.literalsOf content
  | .unary _ _ value => value.literals
  | .binary _ _ left right => left.literals ++ right.literals
  | .convert source _ => source.literals
  | .string literal _ => [literal]
  | .array _ _ values => Node.literalsOf values
  | .structInit _ fields => FieldInit.literalsOf fields
  | .call _ chain => Node.literalsOf chain
  | .callIndex _ index => index.literals
  | .callFunc _ args _ => Node.literalsOf args
  | .define _ _ init => init.literals
  | .assign _ left right => left.literals ++ right.literals
  | .branch arms => Arm.literalsOf arms
  | .switch condition cases otherwise =>
    condition.literals ++ (Case.literalsOf cases ++ Node.literalsOf? otherwise)
  | .loop condition body update =>
    condition.literals ++ (body.literals ++ Node.literalsOf? update)
  | .ret value _ => Node.literalsOf? value
  | _ => []

def Node.literalsOf : List Node → List String
  | [] => []
  | node :: rest => node.literals ++ Node.literalsOf rest

def Node.literalsOf? : Option Node → List String
  | none => []
  | some node => node.literals

def FieldInit.literalsOf : List FieldInit → List String
  | [] => []
  | .mk _ content _ :: rest => content.literals ++ FieldInit.literalsOf rest

def Arm.literalsOf : List Arm → List String
  | [] => []
  | .mk condition body _ :: rest =>
    Node.literalsOf? condition ++ (body.literals ++ Arm.literalsOf rest)

def Case.literalsOf : List Case → List String
  | [] => []
  | .mk _ body _ :: rest => body.literals ++ Case.literalsOf rest

end

end Codegen

namespace Codegen.Lowering

open Ir (Value)

/-- The environment with the symbols at other places, for a function with another debug record. -/
def Env.relocate (env : Env) (r : Relocation) (record : Option Nat) : Env :=
  { env with symbols := env.symbols.relocate r, record }

theorem Env.symbols_relocate (env : Env) (r : Relocation) (record : Option Nat) :
    (env.relocate r record).symbols = env.symbols.relocate r := rfl

theorem Env.relocate_stay (env : Env) : env.relocate .stay env.record = env := by
  rw [Env.relocate, SymbolTable.relocate_stay]

/-- The straight-line steps that a walk takes inside of a scope, in an environment and at other
places. -/
inductive Taken (r : Relocation) (env : Env) (record : Option Nat) (locals : Set String) :
    {α : Type} → Line α → Line α → Prop where
  | height : Taken r env record locals height height
  | dropTo (limit : Nat) : Taken r env record locals (dropTo limit) (dropTo limit)
  | mend (kind : NodeKind) (span : Span) (expected found : Nat) :
    Taken r env record locals (mend kind span expected found)
      (mend (kind.relocate r) (r.span span) expected found)
  | push (operand : Operand) : Taken r env record locals (push operand) (push operand)
  | pop (span : Span) : Taken r env record locals (pop span) (pop (r.span span))
  | fault (span : Span) (fault : Fault) :
    Taken r env record locals (Lowering.fault span fault) (Lowering.fault (r.span span) fault)
  | store {type : String} (h : env.Prints type) (source dest : Value) :
    Taken r env record locals (emit (.store type source dest)) (emit (.store type source dest))
  | applyUnary (op : UnaryOp) (type : Ty) (source : Operand) :
    Taken r env record locals (applyUnary env op type source)
      (applyUnary (env.relocate r record) op type source)
  | applyArithmetic (op : Ir.BinOp) (type : Ty) (left right : Operand) :
    Taken r env record locals (applyArithmetic env op type left right)
      (applyArithmetic (env.relocate r record) op type left right)
  | applyComparison (kind : Ir.Comparison) (type : Ty) (left right : Operand) :
    Taken r env record locals (applyComparison env kind type left right)
      (applyComparison (env.relocate r record) kind type left right)
  | applyConvert (target : Ty) (source : Operand) :
    Taken r env record locals (applyConvert env target source)
      (applyConvert (env.relocate r record) target source)
  | storeLeft (left : Operand) : Taken r env record locals (storeLeft left) (storeLeft left)
  | loadResult (type : Ty) (result : String) :
    Taken r env record locals (loadResult type result) (loadResult type result)
  | beginArray (size : Nat) {element : String} (h : env.Prints element) :
    Taken r env record locals (beginArray size element) (beginArray size element)
  | elementSlot (first : String) {element : String} (h : env.Prints element) (index : Nat) :
    Taken r env record locals (elementSlot first element index) (elementSlot first element index)
  | beginInit (type : Ty) :
    Taken r env record locals (beginInit env type) (beginInit (env.relocate r record) type)
  | storeFields (location : Operand) {structType : String} (h : env.Prints structType)
      (values : List (Nat × Operand)) :
    Taken r env record locals (storeFields env location structType values)
      (storeFields (env.relocate r record) location structType values)
  | beginMember (location : Operand) (type : Ty) (member : UnionMember) (span : Span) :
    Taken r env record locals (beginMember env location type member span)
      (beginMember (env.relocate r record) location type member (r.span span))
  | pushIdentifier (name : String) (type : Ty) (span : Span) :
    Taken r env record locals (pushIdentifier env name type span)
      (pushIdentifier (env.relocate r record) name type (r.span span))
  | beginDefine {name : String} (h : name ∈ locals) (type : Ty) :
    Taken r env record locals (beginDefine env name type)
      (beginDefine (env.relocate r record) name type)
  | endDefine (name : String) (type : Ty) (slot : String) (value : Operand) :
    Taken r env record locals (endDefine env name type slot value)
      (endDefine (env.relocate r record) name type slot value)
  | assign (op : AssignOp) (target value : Operand) (span : Span) :
    Taken r env record locals (assign env op target value span)
      (assign (env.relocate r record) op target value (r.span span))
  | switchOperand (isUnion : Bool) (condition : Operand) (span : Span) :
    Taken r env record locals (switchOperand env isUnion condition span)
      (switchOperand (env.relocate r record) isUnion condition (r.span span))
  | dereference :
    Taken r env record locals (dereference env) (dereference (env.relocate r record))
  | finishChain (mode : Mode) (endsWithCall : Bool) :
    Taken r env record locals (finishChain env mode endsWithCall)
      (finishChain (env.relocate r record) mode endsWithCall)
  | pushElement (type : Ty) (location index : Operand) :
    Taken r env record locals (pushElement env type location index)
      (pushElement (env.relocate r record) type location index)
  | lowerGetField (name : String) (type : Ty) (span : Span) :
    Taken r env record locals (lowerGetField env name type span)
      (lowerGetField (env.relocate r record) name type (r.span span))
  | lowerPtrGetField (name : String) (type : Ty) (span : Span) :
    Taken r env record locals (lowerPtrGetField env name type span)
      (lowerPtrGetField (env.relocate r record) name type (r.span span))
  | lowerGetPath (name : String) (type : Ty) (span : Span) :
    Taken r env record locals (lowerGetPath env name type span)
      (lowerGetPath (env.relocate r record) name type (r.span span))
  | emitCall (callee : String) (type : Ty) (args : List Operand) (span : Span) :
    Taken r env record locals (emitCall env callee type args span)
      (emitCall (env.relocate r record) callee type args (r.span span))

namespace Taken

variable {r : Relocation} {env : Env} {record : Option Nat} {locals : Set String} {α : Type}
  {step step' : Line α}

/-- Steps that a walk takes are built from basic ones. -/
theorem built (h : Taken r env record locals step step') : Built env locals step := by
  cases h with
  | height => exact .quiet .height
  | dropTo limit => exact .quiet (.dropTo limit)
  | mend => exact .quiet (.mend _ _ _ _)
  | push operand => exact .push operand
  | pop span => exact .pop span
  | fault span fault => exact .fault span fault
  | store h => exact .store h _ _
  | applyUnary => exact .applyUnary _ _ _
  | applyArithmetic => exact .applyArithmetic _ _ _ _
  | applyComparison => exact .applyComparison _ _ _ _
  | applyConvert => exact .applyConvert _ _
  | storeLeft => exact .storeLeft _
  | loadResult => exact .loadResult _ _
  | beginArray _ h => exact .array _ h
  | elementSlot _ h => exact .elementSlot _ h _
  | beginInit => exact .beginInit _
  | storeFields _ h => exact .storeFields _ h _
  | beginMember => exact .beginMember _ _ _ _
  | pushIdentifier => exact .quiet (.pushIdentifier _ _ _ _)
  | beginDefine h type => exact .define h type
  | endDefine => exact .endDefine _ _ _ _
  | assign => exact .assign _ _ _ _
  | switchOperand => exact .switchOperand _ _ _
  | dereference => exact .dereference
  | finishChain => exact .finishChain _ _
  | pushElement => exact .pushElement _ _ _
  | lowerGetField => exact .lowerGetField _ _ _
  | lowerPtrGetField => exact .lowerPtrGetField _ _ _
  | lowerGetPath => exact .quiet (.lowerGetPath _ _ _ _)
  | emitCall => exact .emitCall _ _ _ _

/-- Where nothing moves, a step is the step itself. -/
theorem eq_of_stay (h : Taken .stay env env.record locals step step') : step = step' := by
  cases h <;> simp only [Env.relocate_stay, NodeKind.relocate_stay, Relocation.span_stay]

end Taken

variable {r : Relocation} {env : Env} {record : Option Nat} {locals : Set String}
variable {m m' : Type → Type} [Assembler m] [Assembler m']

/-! ## Relations graded by literals -/

/-- The walks over the arms of a branch are related, with the literals of all of them. -/
inductive ArmWalk.Graded (rel : (α : Type) → List String → m α → m' α → Prop) :
    List String → List (ArmWalk m) → List (ArmWalk m') → Prop where
  | nil : Graded rel [] [] []
  | always {texts others : List String} {body : m Unit} {body' : m' Unit} {xs : List (ArmWalk m)}
      {ys : List (ArmWalk m')} (hbody : rel Unit texts body body')
      (hrest : Graded rel others xs ys) :
    Graded rel (texts ++ others) (⟨none, body⟩ :: xs) (⟨none, body'⟩ :: ys)
  | when {checked texts others : List String} {check : m Value} {check' : m' Value} {body : m Unit}
      {body' : m' Unit} {xs : List (ArmWalk m)} {ys : List (ArmWalk m')}
      (hcheck : rel Value checked check check') (hbody : rel Unit texts body body')
      (hrest : Graded rel others xs ys) :
    Graded rel (checked ++ (texts ++ others)) (⟨some check, body⟩ :: xs)
      (⟨some check', body'⟩ :: ys)

/-- The walks over the cases of a switch are related, with the literals of all of them. -/
inductive CaseWalk.Graded {ω ω' : Type} (rel : List String → ω → ω' → Prop) :
    List String → List (Int × ω) → List (Int × ω') → Prop where
  | nil : Graded rel [] [] []
  | cons {texts others : List String} (value : Int) {body : ω} {body' : ω'} {xs : List (Int × ω)}
      {ys : List (Int × ω')} (hbody : rel texts body body') (hrest : Graded rel others xs ys) :
    Graded rel (texts ++ others) ((value, body) :: xs) ((value, body') :: ys)

/-- The walks over a default, which may be missing, are related. -/
inductive DefaultWalk.Graded {ω ω' : Type} (rel : List String → ω → ω' → Prop) :
    List String → Option ω → Option ω' → Prop where
  | none : Graded rel [] none none
  | some {texts : List String} {body : ω} {body' : ω'} (hbody : rel texts body body') :
    Graded rel texts (some body) (some body')

variable (r env record locals m m') in
/-- A relation between the walks of two assemblers, the second one at other places, that all of
their steps keep.  It is graded by the string literals of what is walked over: those that a walk
comes by are among them, in order. -/
structure GradedRelation where
  Relates : {α : Type} → List String → m α → m' α → Prop
  mono {α : Type} {texts more : List String} {x : m α} {y : m' α} (h : Relates texts x y)
    (hmore : texts.Sublist more) : Relates more x y
  pure {α : Type} (a : α) : Relates [] (Pure.pure a) (Pure.pure a)
  bind {α β : Type} {texts others : List String} {x : m α} {y : m' α} {f : α → m β}
    {g : α → m' β} (hx : Relates texts x y) (hf : ∀ a, Relates others (f a) (g a)) :
    Relates (texts ++ others) (x >>= f) (y >>= g)
  line {α : Type} {step step' : Line α} (h : Taken r env record locals step step') :
    Relates [] (Assembler.line step) (Assembler.line step')
  string (literal : String) (type : Ty) :
    Relates [literal] (Assembler.line (pushString literal type))
      (Assembler.line (pushString literal type))
  enclosed {texts : List String} {x : m Unit} {y : m' Unit} (h : Relates texts x y) :
    Relates texts (do Assembler.line pushScope; x; Assembler.line popScope)
      (do Assembler.line pushScope; y; Assembler.line popScope)
  guarded (isAnd : Bool) (cond : Value) {texts : List String} {x : m Unit} {y : m' Unit}
    (h : Relates texts x y) :
    Relates texts (Assembler.guarded isAnd cond x) (Assembler.guarded isAnd cond y)
  branching {texts : List String} {xs : List (ArmWalk m)} {ys : List (ArmWalk m')}
    (h : ArmWalk.Graded (fun _ => Relates) texts xs ys) :
    Relates texts (Assembler.branching xs) (Assembler.branching ys)
  switching (isUnion : Bool) (operand : Operand) (span : Span) {texts others : List String}
    {xs : List (Int × m Unit)} {ys : List (Int × m' Unit)}
    (h : CaseWalk.Graded Relates texts xs ys) {x : Option (m Unit)} {y : Option (m' Unit)}
    (ho : DefaultWalk.Graded Relates others x y) :
    Relates (texts ++ others)
      (Assembler.line (switchOperand env isUnion operand span) >>= fun s =>
        Assembler.switching s.1 s.2 xs x)
      (Assembler.line (switchOperand (env.relocate r record) isUnion operand (r.span span)) >>=
        fun s => Assembler.switching s.1 s.2 ys y)
  looping {checked texts others : List String} {check : m Value} {body update : m Unit}
    {check' : m' Value} {body' update' : m' Unit} (hcheck : Relates checked check check')
    (hbody : Relates texts body body') (hupdate : Relates others update update') :
    Relates (checked ++ (texts ++ others)) (Assembler.looping check body update)
      (Assembler.looping check' body' update')
  jumping (kind : Jump) (span : Span) :
    Relates [] (Assembler.jumping kind span) (Assembler.jumping kind (r.span span))
  returning {type : String} (h : env.Prints type) (value : Option Value) :
    Relates [] (Assembler.returning type value) (Assembler.returning type value)

namespace GradedRelation

variable (R : GradedRelation r env record locals m m')

/-- The walks over the arms of a branch are related. -/
def Arms : List String → List (ArmWalk m) → List (ArmWalk m') → Prop :=
  ArmWalk.Graded fun _ => R.Relates

variable {R} {texts others : List String}

theorem Relates.mono {α : Type} {x : m α} {y : m' α} (h : R.Relates texts x y)
    (hmore : texts.Sublist others) : R.Relates others x y := R.mono h hmore

/-- A walk that comes by no literal adds none. -/
theorem Relates.all {α : Type} {x : m α} {y : m' α} (h : R.Relates [] x y) :
    R.Relates texts x y := R.mono h (List.nil_sublist texts)

theorem Relates.bind {α β : Type} {x : m α} {y : m' α} {f : α → m β} {g : α → m' β}
    (hx : R.Relates texts x y) (hf : ∀ a, R.Relates others (f a) (g a)) :
    R.Relates (texts ++ others) (x >>= f) (y >>= g) := R.bind hx hf

/-- A step without literals stands in front. -/
theorem Relates.lead {α β : Type} {x : m α} {y : m' α} {f : α → m β} {g : α → m' β}
    (hx : R.Relates [] x y) (hf : ∀ a, R.Relates texts (f a) (g a)) :
    R.Relates texts (x >>= f) (y >>= g) := R.bind hx hf

/-- Steps without literals stand behind. -/
theorem Relates.tail {α β : Type} {x : m α} {y : m' α} {f : α → m β} {g : α → m' β}
    (hx : R.Relates texts x y) (hf : ∀ a, R.Relates [] (f a) (g a)) :
    R.Relates texts (x >>= f) (y >>= g) := by
  have both := R.bind hx hf
  rwa [List.append_nil] at both

theorem Relates.balanced (kind : NodeKind) (span : Span) {x : m Unit} {y : m' Unit}
    (h : R.Relates texts x y) :
    R.Relates texts (balanced kind span x) (balanced (kind.relocate r) (r.span span) y) := by
  unfold Lowering.balanced
  rw [NodeKind.isExpression_relocate]
  exact (R.line .height).lead fun _ => h.tail fun _ => (R.line .height).lead fun _ =>
    R.line (.mend _ _ _ _)

theorem Relates.dropping {x : m Unit} {y : m' Unit} (h : R.Relates texts x y) :
    R.Relates texts (dropping x) (dropping y) :=
  (R.line .height).lead fun _ => h.tail fun _ => R.line (.dropTo _)

variable (R)

theorem push {operand : Operand} :
    R.Relates [] (Assembler.line (Lowering.push operand))
      (Assembler.line (Lowering.push operand)) :=
  R.line (.push operand)

theorem pop {span : Span} :
    R.Relates [] (Assembler.line (Lowering.pop span))
      (Assembler.line (Lowering.pop (r.span span))) :=
  R.line (.pop span)

/-- A value that a node has left is taken. -/
theorem popOf (node : Node) :
    R.Relates [] (Assembler.line (Lowering.pop node.span))
      (Assembler.line (Lowering.pop (node.relocate r).span)) := by
  rw [Node.span_relocate]
  exact R.pop

theorem fault {span : Span} {fault : Fault} :
    R.Relates [] (Assembler.line (Lowering.fault span fault))
      (Assembler.line (Lowering.fault (r.span span) fault)) :=
  R.line (.fault span fault)

end GradedRelation

theorem endsWithCall_relocate (links : List Node) :
    endsWithCall (Node.relocateAll r links) = endsWithCall links := by
  unfold endsWithCall
  rw [Node.relocateAll_eq_map, List.getLast?_map, Option.any_map]
  congr 1
  funext link
  rw [Node.kind_relocate, NodeKind.isCallFunc_relocate]

theorem switchesOnUnion_relocate (condition : NodeKind) :
    switchesOnUnion (env.relocate r record) (condition.relocate r) =
      switchesOnUnion env condition := by
  unfold switchesOnUnion
  rw [NodeKind.type?_relocate]
  congr 1
  funext type
  rw [Env.symbols_relocate, SymbolTable.kindOf_relocate]

variable (R : GradedRelation r env record locals m m')

-- The induction goes down the tree.  What a step of the walk does to names does not matter here,
-- only which steps are taken, and that they come by no other locals and literals than those of the
-- tree.
mutual

theorem lowerNode_graded : (node : Node) → (∀ x ∈ node.locals, x ∈ locals) →
    R.Relates node.literals (lowerNode env node)
      (lowerNode (env.relocate r record) (node.relocate r))
  | .mk kind span, h => (lowerKind_graded span kind h).balanced kind span

theorem lowerOperand_graded (mode : Mode) : (node : Node) → (∀ x ∈ node.locals, x ∈ locals) →
    R.Relates node.literals (lowerOperand env mode node)
      (lowerOperand (env.relocate r record) mode (node.relocate r))
  | .mk kind span, h => by
    have plain := (lowerKind_graded span kind h).balanced kind span
    cases kind with
    | call type chain => exact lowerChain_graded mode span type chain h
    | _ => exact plain

theorem lowerKind_graded (span : Span) : (kind : NodeKind) → (∀ x ∈ kind.locals, x ∈ locals) →
    R.Relates kind.literals (lowerKind env span kind)
      (lowerKind (env.relocate r record) (r.span span) (kind.relocate r))
  | .block content, h => R.enclosed (lowerStatements_graded content h)
  | .unary op type value, h => (lowerNode_graded value h).tail fun _ => (R.popOf value).lead
      fun _ => R.line (.applyUnary _ _ _)
  | .binary op type left right, h => by
    obtain ⟨hl, hr⟩ := List.forall_mem_append.1 h
    rw [NodeKind.relocate, lowerKind, lowerKind]
    have operands {β : Type} {f : m β} {e : m' β} (h : R.Relates [] f e) :=
      (lowerNode_graded left hl).bind fun _ => (lowerNode_graded right hr).tail fun _ => h
    cases operation op with
    | arithmetic op =>
      exact operands ((R.popOf right).lead fun _ => (R.popOf left).lead fun _ =>
        R.line (.applyArithmetic _ _ _ _))
    | comparison kind =>
      exact operands ((R.popOf right).lead fun _ => (R.popOf left).lead fun _ =>
        R.line (.applyComparison _ _ _ _))
    | shortCircuit isAnd =>
      refine (lowerNode_graded left hl).bind fun _ => (R.popOf left).lead fun lhs => ?_
      by_cases hd : decides isAnd lhs
      · rw [if_pos hd, if_pos hd]
        exact R.push.all
      · rw [if_neg hd, if_neg hd]
        exact (R.line (.storeLeft _)).lead fun _ => (R.guarded isAnd _ <|
          (lowerNode_graded right hr).tail fun _ => (R.popOf right).lead fun _ =>
            R.line (.store env.prints_bool _ _)).tail fun _ => R.line (.loadResult _ _)
  | .convert source target, h => (lowerNode_graded source h).tail fun _ => (R.popOf source).lead
      fun _ => R.line (.applyConvert _ _)
  | .nil _, _ => R.push
  | .number .., _ => R.push
  | .string .., _ => R.string _ _
  | .char .., _ => R.push
  | .bool .., _ => R.push
  | .array size type values, h => (R.line (.beginArray _ (env.prints_map _))).lead fun _ =>
      (lowerElements_graded _ (env.prints_map _) 0 values h).tail fun _ => R.push
  | .structInit type fields, h => by
    rw [NodeKind.relocate, lowerKind, lowerKind]
    refine (R.line (.beginInit type)).lead fun location => ?_
    rw [Env.symbols_relocate, SymbolTable.findStruct_relocate, SymbolTable.findUnion_relocate]
    cases env.symbols.findStruct type with
    | some symbol =>
      exact (lowerFields_graded symbol type fields h).tail fun _ =>
        (R.line (.storeFields _ (env.prints_map _) _)).lead fun _ => R.push
    | none =>
      cases env.symbols.findUnion type with
      | some symbol =>
        exact (lowerMembers_graded symbol type location fields h).tail fun _ => R.push
      | none => exact (R.fault.lead fun _ => R.push).all
  | .call type chain, h => lowerChain_graded .value span type chain h
  | .callId .., _ => R.line (.pushIdentifier _ _ _)
  | .callIndex .., _ => R.fault.all
  | .callFunc .., _ => R.fault.all
  | .getField .., _ => R.fault
  | .getPath .., _ => R.fault
  | .ptrGetField .., _ => R.fault
  | .define name type init, h => by
    obtain ⟨hname, hinit⟩ := List.forall_mem_cons.1 h
    exact (R.line (.beginDefine hname type)).lead fun _ =>
      (lowerOperand_graded _ init hinit).tail fun _ => (R.popOf init).lead fun _ =>
        R.line (.endDefine _ _ _ _)
  | .assign op (.mk left leftSpan) right, h => by
    obtain ⟨hl, hr⟩ := List.forall_mem_append.1 h
    have value := lowerNode_graded right hr
    cases left with
    | call type chain =>
      exact (lowerChain_graded .address leftSpan type chain hl).bind fun _ => R.pop.lead fun _ =>
        value.tail fun _ => (R.popOf right).lead fun _ => R.line (.assign _ _ _ _)
    | _ => exact R.fault.all
  | .branch [], _ => R.pure ()
  | .branch (.mk condition body armSpan :: arms), h =>
    R.branching (lowerArms_graded (.mk condition body armSpan :: arms) h)
  | .switch condition cases otherwise, h => by
    obtain ⟨hcondition, h⟩ := List.forall_mem_append.1 h
    obtain ⟨hcases, hotherwise⟩ := List.forall_mem_append.1 h
    have behind (isUnion : Bool) := (R.popOf condition).lead fun operand =>
      R.switching isUnion operand span (lowerCases_graded cases hcases)
        (lowerDefault_graded otherwise hotherwise)
    rw [NodeKind.relocate, lowerKind, lowerKind, Node.kind_relocate, switchesOnUnion_relocate]
    cases switchesOnUnion env condition.kind with
    | true => exact (lowerOperand_graded .address condition hcondition).bind fun _ => behind true
    | false => exact (lowerNode_graded condition hcondition).bind fun _ => behind false
  | .breakLoop, _ => R.jumping .out span
  | .continueLoop, _ => R.jumping .on span
  | .loop condition body update, h => by
    obtain ⟨hcondition, h⟩ := List.forall_mem_append.1 h
    obtain ⟨hbody, hupdate⟩ := List.forall_mem_append.1 h
    exact R.looping (lowerCondition_graded condition hcondition) (lowerNode_graded body hbody)
      (lowerUpdate_graded update hupdate)
  | .ret none _, _ => R.returning env.prints_void _
  | .ret (some value) byReference, h => (lowerOperand_graded _ value h).tail fun _ =>
      R.pop.lead fun _ => R.returning (env.prints_returned _) _

theorem lowerStatements_graded : (nodes : List Node) →
    (∀ x ∈ Node.localsOf nodes, x ∈ locals) →
    R.Relates (Node.literalsOf nodes) (lowerStatements env nodes)
      (lowerStatements (env.relocate r record) (Node.relocateAll r nodes))
  | [], _ => R.pure ()
  | node :: rest, h => by
    obtain ⟨hnode, hrest⟩ := List.forall_mem_append.1 h
    exact (lowerNode_graded node hnode).dropping.bind fun _ => lowerStatements_graded rest hrest

theorem lowerElements_graded (first : String) {element : String} (he : env.Prints element) :
    (index : Nat) → (nodes : List Node) → (∀ x ∈ Node.localsOf nodes, x ∈ locals) →
    R.Relates (Node.literalsOf nodes) (lowerElements env first element index nodes)
      (lowerElements (env.relocate r record) first element index (Node.relocateAll r nodes))
  | _, [], _ => R.pure ()
  | index, node :: rest, h => by
    obtain ⟨hnode, hrest⟩ := List.forall_mem_append.1 h
    exact (R.line (.elementSlot _ he _)).lead fun _ => (lowerNode_graded node hnode).bind fun _ =>
      (R.popOf node).lead fun _ => (R.line (.store he _ _)).lead fun _ =>
        lowerElements_graded first he (index + 1) rest hrest

theorem lowerFields_graded (symbol : StructSymbol) (type : Ty) : (fields : List FieldInit) →
    (∀ x ∈ FieldInit.localsOf fields, x ∈ locals) →
    R.Relates (FieldInit.literalsOf fields) (lowerFields env symbol type fields)
      (lowerFields (env.relocate r record) (symbol.relocate r) type
        (FieldInit.relocateAll r fields))
  | [], _ => R.pure []
  | .mk name content _ :: rest, h => by
    obtain ⟨hcontent, hrest⟩ := List.forall_mem_append.1 h
    have others := lowerFields_graded symbol type rest hrest
    have same : (symbol.relocate r).fieldIndex? name = symbol.fieldIndex? name := rfl
    rw [FieldInit.relocateAll, lowerFields, lowerFields, same]
    cases symbol.fieldIndex? name with
    | some index =>
      exact (lowerNode_graded content hcontent).bind fun _ => (R.popOf content).lead fun _ =>
        others.tail fun _ => R.pure _
    | none =>
      dsimp only
      rw [Node.span_relocate]
      exact (R.fault.lead fun _ => others).mono (List.sublist_append_right _ _)

theorem lowerMembers_graded (symbol : UnionSymbol) (type : Ty) (location : Operand) :
    (fields : List FieldInit) → (∀ x ∈ FieldInit.localsOf fields, x ∈ locals) →
    R.Relates (FieldInit.literalsOf fields) (lowerMembers env symbol type location fields)
      (lowerMembers (env.relocate r record) (symbol.relocate r) type location
        (FieldInit.relocateAll r fields))
  | [], _ => R.pure ()
  | .mk name content _ :: rest, h => by
    obtain ⟨hcontent, hrest⟩ := List.forall_mem_append.1 h
    have others := lowerMembers_graded symbol type location rest hrest
    have same : (symbol.relocate r).member? name = symbol.member? name := rfl
    rw [FieldInit.relocateAll, lowerMembers, lowerMembers, same, Node.span_relocate]
    cases symbol.member? name with
    | some member =>
      exact (R.line (.beginMember _ _ _ _)).lead fun _ =>
        (lowerNode_graded content hcontent).bind fun _ => R.pop.lead fun _ =>
          (R.line (.store (env.prints_map _) _ _)).lead fun _ => others
    | none => exact (R.fault.lead fun _ => others).mono (List.sublist_append_right _ _)

theorem lowerChain_graded (mode : Mode) (span : Span) (type : Ty) : (chain : List Node) →
    (∀ x ∈ Node.localsOf chain, x ∈ locals) →
    R.Relates (Node.literalsOf chain) (lowerChain env mode span type chain)
      (lowerChain (env.relocate r record) mode (r.span span) type (Node.relocateAll r chain))
  | [], _ => R.fault.lead fun _ => R.push
  | head :: links, h => by
    obtain ⟨hhead, hlinks⟩ := List.forall_mem_append.1 h
    rw [Node.relocateAll, lowerChain, lowerChain, endsWithCall_relocate]
    exact (lowerNode_graded head hhead).bind fun _ => (lowerLinks_graded links hlinks).tail
      fun _ => R.line (.finishChain _ _)

theorem lowerLinks_graded : (links : List Node) → (∀ x ∈ Node.localsOf links, x ∈ locals) →
    R.Relates (Node.literalsOf links) (lowerLinks env links)
      (lowerLinks (env.relocate r record) (Node.relocateAll r links))
  | [], _ => R.pure ()
  | link :: rest, h => by
    obtain ⟨hlink, hrest⟩ := List.forall_mem_append.1 h
    exact (lowerLink_graded link hlink).bind fun _ => lowerLinks_graded rest hrest

theorem lowerLink_graded : (link : Node) → (∀ x ∈ link.locals, x ∈ locals) →
    R.Relates link.literals (lowerLink env link)
      (lowerLink (env.relocate r record) (link.relocate r))
  | .mk kind span, h => by
    cases kind with
    | callIndex type index =>
      exact (R.line .dereference).lead fun _ => R.pop.lead fun _ =>
        (lowerNode_graded index h).tail fun _ => (R.popOf index).lead fun _ =>
          R.line (.pushElement _ _ _)
    | callFunc type args byReference =>
      have operands := lowerArgs_graded byReference args h
      refine R.pop.lead fun callee => ?_
      cases callee.kind with
      | method =>
        exact (R.line .dereference).lead fun _ => R.pop.lead fun _ => operands.tail fun _ =>
          R.line (.emitCall _ _ _ _)
      | function => exact operands.tail fun _ => R.line (.emitCall _ _ _ _)
      | _ => exact (R.fault.lead fun _ => R.push).all
    | getField name type => exact R.line (.lowerGetField _ _ _)
    | ptrGetField name type => exact R.line (.lowerPtrGetField _ _ _)
    | getPath name type => exact R.line (.lowerGetPath _ _ _)
    | _ => exact R.fault.all

theorem lowerArgs_graded : (byReference : List Bool) → (args : List Node) →
    (∀ x ∈ Node.localsOf args, x ∈ locals) →
    R.Relates (Node.literalsOf args) (lowerArgs env byReference args)
      (lowerArgs (env.relocate r record) byReference (Node.relocateAll r args))
  | _, [], _ => R.pure []
  | byReference, arg :: rest, h => by
    obtain ⟨harg, hrest⟩ := List.forall_mem_append.1 h
    have others := (R.popOf arg).lead fun operand =>
      (lowerArgs_graded byReference.tail rest hrest).tail fun operands =>
        R.pure (operand :: operands)
    rw [Node.relocateAll, lowerArgs, lowerArgs]
    cases byReference.headD false with
    | true => exact (lowerOperand_graded .address arg harg).bind fun _ => others
    | false => exact (lowerNode_graded arg harg).bind fun _ => others

theorem lowerCondition_graded : (node : Node) → (∀ x ∈ node.locals, x ∈ locals) →
    R.Relates node.literals (lowerCondition env node)
      (lowerCondition (env.relocate r record) (node.relocate r))
  | .mk kind span, h => ((lowerKind_graded span kind h).balanced kind span).tail fun _ =>
    R.pop.lead fun _ => R.pure _

theorem lowerArms_graded : (arms : List Arm) → (∀ x ∈ Arm.localsOf arms, x ∈ locals) →
    R.Arms (Arm.literalsOf arms) (lowerArms env arms)
      (lowerArms (env.relocate r record) (Arm.relocateAll r arms))
  | [], _ => .nil
  | .mk none body span :: rest, h => by
    obtain ⟨hbody, hrest⟩ := List.forall_mem_append.1 (List.forall_mem_append.1 h).2
    change R.Arms (body.literals ++ Arm.literalsOf rest) _ _
    refine .always ?_ (lowerArms_graded rest hrest)
    rw [Arm.isEmpty_relocateAll]
    cases rest.isEmpty with
    | true => exact lowerNode_graded body hbody
    | false => exact R.fault.lead fun _ => lowerNode_graded body hbody
  | .mk (some condition) body _ :: rest, h => by
    obtain ⟨hcondition, h⟩ := List.forall_mem_append.1 h
    obtain ⟨hbody, hrest⟩ := List.forall_mem_append.1 h
    exact .when (lowerCondition_graded condition hcondition) (lowerNode_graded body hbody)
      (lowerArms_graded rest hrest)

theorem lowerCases_graded : (cases : List Case) → (∀ x ∈ Case.localsOf cases, x ∈ locals) →
    CaseWalk.Graded R.Relates (Case.literalsOf cases) (lowerCases env cases)
      (lowerCases (env.relocate r record) (Case.relocateAll r cases))
  | [], _ => .nil
  | .mk value body _ :: rest, h => by
    obtain ⟨hbody, hrest⟩ := List.forall_mem_append.1 h
    exact .cons value (lowerNode_graded body hbody) (lowerCases_graded rest hrest)

theorem lowerDefault_graded : (otherwise : Option Node) →
    (∀ x ∈ Node.localsOf? otherwise, x ∈ locals) →
    DefaultWalk.Graded R.Relates (Node.literalsOf? otherwise) (lowerDefault env otherwise)
      (lowerDefault (env.relocate r record) (Node.relocate? r otherwise))
  | none, _ => .none
  | some body, h => .some (lowerNode_graded body h)

theorem lowerUpdate_graded : (update : Option Node) →
    (∀ x ∈ Node.localsOf? update, x ∈ locals) →
    R.Relates (Node.literalsOf? update) (lowerUpdate env update)
      (lowerUpdate (env.relocate r record) (Node.relocate? r update))
  | none, _ => R.pure ()
  | some update, h => (lowerNode_graded update h).dropping

end

/-! ## Relations without grades -/

/-- The walks over an arm are related. -/
inductive ArmWalk.Related (rel : (α : Type) → m α → m' α → Prop) :
    ArmWalk m → ArmWalk m' → Prop where
  | always {body : m Unit} {body' : m' Unit} (hbody : rel Unit body body') :
    Related rel ⟨none, body⟩ ⟨none, body'⟩
  | when {check : m Value} {check' : m' Value} {body : m Unit} {body' : m' Unit}
      (hcheck : rel Value check check') (hbody : rel Unit body body') :
    Related rel ⟨some check, body⟩ ⟨some check', body'⟩

variable (r env record locals m m') in
/-- A relation between the walks of two assemblers, the second one at other places, that all of
their steps keep. -/
structure WalkRelation where
  Relates : {α : Type} → m α → m' α → Prop
  pure {α : Type} (a : α) : Relates (Pure.pure a) (Pure.pure a)
  bind {α β : Type} {x : m α} {y : m' α} {f : α → m β} {g : α → m' β} (hx : Relates x y)
    (hf : ∀ a, Relates (f a) (g a)) : Relates (x >>= f) (y >>= g)
  line {α : Type} {step step' : Line α} (h : Taken r env record locals step step') :
    Relates (Assembler.line step) (Assembler.line step')
  string (literal : String) (type : Ty) :
    Relates (Assembler.line (pushString literal type)) (Assembler.line (pushString literal type))
  enclosed {x : m Unit} {y : m' Unit} (h : Relates x y) :
    Relates (do Assembler.line pushScope; x; Assembler.line popScope)
      (do Assembler.line pushScope; y; Assembler.line popScope)
  guarded (isAnd : Bool) (cond : Value) {x : m Unit} {y : m' Unit} (h : Relates x y) :
    Relates (Assembler.guarded isAnd cond x) (Assembler.guarded isAnd cond y)
  branching {xs : List (ArmWalk m)} {ys : List (ArmWalk m')}
    (h : List.Forall₂ (ArmWalk.Related fun _ => Relates) xs ys) :
    Relates (Assembler.branching xs) (Assembler.branching ys)
  switching (isUnion : Bool) (operand : Operand) (span : Span) {xs : List (Int × m Unit)}
    {ys : List (Int × m' Unit)}
    (h : List.Forall₂ (fun x y => x.1 = y.1 ∧ Relates x.2 y.2) xs ys) {x : Option (m Unit)}
    {y : Option (m' Unit)} (ho : Option.Rel Relates x y) :
    Relates
      (Assembler.line (switchOperand env isUnion operand span) >>= fun s =>
        Assembler.switching s.1 s.2 xs x)
      (Assembler.line (switchOperand (env.relocate r record) isUnion operand (r.span span)) >>=
        fun s => Assembler.switching s.1 s.2 ys y)
  looping {check : m Value} {body update : m Unit} {check' : m' Value} {body' update' : m' Unit}
    (hcheck : Relates check check') (hbody : Relates body body')
    (hupdate : Relates update update') :
    Relates (Assembler.looping check body update) (Assembler.looping check' body' update')
  jumping (kind : Jump) (span : Span) :
    Relates (Assembler.jumping kind span) (Assembler.jumping kind (r.span span))
  returning {type : String} (h : env.Prints type) (value : Option Value) :
    Relates (Assembler.returning type value) (Assembler.returning type value)

namespace WalkRelation

variable (R : WalkRelation r env record locals m m')

/-- Arms whose walks are related, one by one. -/
theorem forall₂_arms {texts : List String} {xs : List (ArmWalk m)} {ys : List (ArmWalk m')}
    (h : ArmWalk.Graded (fun _ _ => R.Relates) texts xs ys) :
    List.Forall₂ (ArmWalk.Related fun _ => R.Relates) xs ys := by
  induction h with
  | nil => exact .nil
  | always hbody _ ih => exact .cons (.always hbody) ih
  | when hcheck hbody _ ih => exact .cons (.when hcheck hbody) ih

theorem forall₂_cases {texts : List String} {xs : List (Int × m Unit)} {ys : List (Int × m' Unit)}
    (h : CaseWalk.Graded (fun _ => R.Relates) texts xs ys) :
    List.Forall₂ (fun x y => x.1 = y.1 ∧ R.Relates x.2 y.2) xs ys := by
  induction h with
  | nil => exact .nil
  | cons value hbody _ ih => exact .cons ⟨rfl, hbody⟩ ih

theorem rel_default {texts : List String} {x : Option (m Unit)} {y : Option (m' Unit)}
    (h : DefaultWalk.Graded (fun _ => R.Relates) texts x y) : Option.Rel R.Relates x y := by
  cases h with
  | none => exact .none
  | some hbody => exact .some hbody

/-- The relation, whatever the literals are. -/
def graded : GradedRelation r env record locals m m' where
  Relates _ x y := R.Relates x y
  mono h _ := h
  pure := R.pure
  bind := R.bind
  line := R.line
  string := R.string
  enclosed := R.enclosed
  guarded isAnd cond _ _ _ h := R.guarded isAnd cond h
  branching h := R.branching (R.forall₂_arms h)
  switching isUnion operand span _ _ _ _ h _ _ ho :=
    R.switching isUnion operand span (R.forall₂_cases h) (R.rel_default ho)
  looping := R.looping
  jumping := R.jumping
  returning := R.returning

end WalkRelation

variable (R : WalkRelation r env record locals m m')

/-- The walks over a function are related if they are for its scope, which nothing closes, and for
its parameters, which are spilled by a step of their own. -/
theorem walkFunction_paired {f : Func} (hbody : ∀ x ∈ Node.localsOf? f.body, x ∈ locals)
    (hscope : R.Relates (Assembler.line pushScope) (Assembler.line pushScope))
    (hparams : R.Relates (Assembler.line (lowerParams env f.params))
      (Assembler.line (lowerParams (env.relocate r record) f.params))) :
    R.Relates (walkFunction env f) (walkFunction (env.relocate r record) (f.relocate r)) := by
  refine R.bind hscope fun _ => R.bind hparams fun _ => ?_
  have relocated : (f.relocate r).body = Node.relocate? r f.body := rfl
  rw [relocated]
  cases h : f.body with
  | some body =>
    rw [h] at hbody
    exact lowerNode_graded R.graded body hbody
  | none => exact R.graded.fault

/-! ## Walks over one tree -/

section Stay

variable (R : WalkRelation .stay env env.record locals m m')
variable (G : GradedRelation .stay env env.record locals m m')

theorem lowerNode_related (node : Node) (h : ∀ x ∈ node.locals, x ∈ locals) :
    G.Relates node.literals (lowerNode env node) (lowerNode env node) := by
  have paired := lowerNode_graded G node h
  rwa [Env.relocate_stay, Node.relocate_stay] at paired

theorem walkFunction_related {f : Func} (hbody : ∀ x ∈ Node.localsOf? f.body, x ∈ locals)
    (hscope : R.Relates (Assembler.line pushScope) (Assembler.line pushScope))
    (hparams : R.Relates (Assembler.line (lowerParams env f.params))
      (Assembler.line (lowerParams env f.params))) :
    R.Relates (walkFunction env f) (walkFunction env f) := by
  have paired := walkFunction_paired R hbody hscope (by rwa [Env.relocate_stay])
  rwa [Env.relocate_stay, Func.relocate_stay] at paired

end Stay

end Codegen.Lowering
