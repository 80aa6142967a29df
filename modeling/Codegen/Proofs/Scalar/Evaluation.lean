import Codegen.Proofs.Scalar.Data
import Codegen.Proofs.Simulation

/-!
# Evaluation of scalar trees

What a function of the scalar fragment means, said on its tree alone.  A local is visible from
behind its definition to the end of the block around it, and hides locals of its name that were
defined before.  Operands are evaluated from left to right, and the right operand of a conjunction
or disjunction only when the left one does not decide it.

An evaluation has no result where the tree has no meaning, and where a loop takes more rounds than
`fuel` allows.
-/

namespace Codegen

open Lowering (Outcome)

/-! ## Locals -/

/-- Where the value of a local is kept; definitions are numbered in the order of the text. -/
inductive Cell where
  | param (name : String)
  | defined (name : String) (number : Nat)
  deriving DecidableEq

/-- The locals that are visible at a place in a body, the innermost block and the latest definition
first, and the number of the next definition. -/
structure Scope where
  blocks : List (List (String × Cell)) := []
  next : Nat := 0

namespace Scope

/-- Inside a new block. -/
def opened (Γ : Scope) : Scope := { Γ with blocks := [] :: Γ.blocks }

/-- Behind the innermost block. -/
def closed (Γ : Scope) : Scope := { Γ with blocks := Γ.blocks.tail }

/-- A local becomes visible in the innermost block. -/
def bound (Γ : Scope) (name : String) (cell : Cell) : Scope :=
  { Γ with
    blocks :=
      match Γ.blocks with
      | [] => [[(name, cell)]]
      | block :: rest => ((name, cell) :: block) :: rest }

/-- Behind the definition of a local. -/
def defining (Γ : Scope) (name : String) : Scope :=
  { Γ.bound name (.defined name Γ.next) with next := Γ.next + 1 }

/-- The local that a name stands for. -/
def find? (Γ : Scope) (name : String) : Option Cell :=
  Γ.blocks.findSome? fun block => block.lookup name

/-- The parameters of a function. -/
def withParams : List (String × Ty) → Scope → Scope
  | [], Γ => Γ
  | (name, _) :: rest, Γ => withParams rest (Γ.bound name (.param name))

end Scope

mutual

/-- The scope behind a node. -/
def Node.past : Node → Scope → Scope
  | .mk kind _ => kind.past

/-- The scope behind a node of a kind. -/
def NodeKind.past : NodeKind → Scope → Scope
  | .block content, Γ => (Node.pastAll content Γ.opened).closed
  | .define name _ _, Γ => Γ.defining name
  | .branch arms, Γ => Arm.past arms Γ
  | .switch _ cases otherwise, Γ => Node.past? otherwise (Case.past cases Γ)
  | .loop _ body update, Γ => Node.past? update (body.past Γ)
  | _, Γ => Γ

/-- The scope behind statements. -/
def Node.pastAll : List Node → Scope → Scope
  | [], Γ => Γ
  | node :: rest, Γ => Node.pastAll rest (node.past Γ)

/-- The scope behind a node that may be missing. -/
def Node.past? : Option Node → Scope → Scope
  | none, Γ => Γ
  | some node, Γ => node.past Γ

/-- The scope behind the arms of a branch. -/
def Arm.past : List Arm → Scope → Scope
  | [], Γ => Γ
  | .mk _ body _ :: rest, Γ => Arm.past rest (body.past Γ)

/-- The scope behind the cases of a switch. -/
def Case.past : List Case → Scope → Scope
  | [], Γ => Γ
  | .mk _ body _ :: rest, Γ => Case.past rest (body.past Γ)

end

/-- The values of the locals. -/
abbrev Store := Cell → Option Datum

namespace Store

/-- A local gets a value. -/
def set (σ : Store) (cell : Cell) (d : Datum) : Store := Function.update σ cell (some d)

/-- The value of a local of a type. -/
def read (σ : Store) (s : Scalar) (cell : Cell) : Option Datum := (σ cell).filter s.has

/-- The parameters get their arguments. -/
def withArgs : List (String × Ty) → List Datum → Store → Option Store
  | [], [], σ => some σ
  | (name, type) :: params, d :: args, σ =>
    if (Scalar.of? type).any (·.has d) then withArgs params args (σ.set (.param name) d) else none
  | _, _, _ => none

end Store

/-! ## Expressions -/

mutual

/-- The value of an expression. -/
def Node.value (Γ : Scope) (σ : Store) : Node → Option Datum
  | .mk kind _ => kind.value Γ σ

/-- The value of an expression of a kind. -/
def NodeKind.value (Γ : Scope) (σ : Store) : NodeKind → Option Datum
  | .number literal _ => (decimal? literal).map fun n => .word (.ofInt 64 n)
  | .bool literal _ => some (.bit literal)
  | .call type [.mk (.callId name _) _] => do
    let cell ← Γ.find? name
    σ.read (← Scalar.of? type) cell
  | .unary op _ value => (value.value Γ σ).bind op.apply
  | .binary .cmpAnd _ left right =>
    match left.value Γ σ with
    | some (.bit true) => right.value Γ σ
    | some (.bit false) => some (.bit false)
    | _ => none
  | .binary .cmpOr _ left right =>
    match left.value Γ σ with
    | some (.bit true) => some (.bit true)
    | some (.bit false) => right.value Γ σ
    | _ => none
  | .binary op _ left right => do
    let s ← left.scalar?
    let a ← left.value Γ σ
    let b ← right.value Γ σ
    op.apply s a b
  | _ => none

end

/-- Whether a condition holds. -/
def Node.test (Γ : Scope) (σ : Store) (condition : Node) : Option Bool :=
  match condition.value Γ σ with
  | some (.bit holds) => some holds
  | _ => none

/-! ## Statements -/

/-- How a function ends. -/
inductive Result where
  | value (d : Datum)
  /-- A return without a value. -/
  | void
  /-- Control gets to the end of a body that has to return a value. -/
  | fellOff
  deriving DecidableEq

/-- What a statement does to the values of the locals, if that is defined. -/
abbrev Effect := Store → Option (Outcome Store Result)

/-- Another statement comes behind a statement. -/
def Effect.andThen (first second : Effect) : Effect := fun σ =>
  match first σ with
  | some (.normal σ) => second σ
  | o => o

/-- The rounds of a loop.  Its update neither leaves the loop nor starts the next round. -/
def Effect.rounds (test : Store → Option Bool) (body update : Effect) : (fuel : Nat) → Effect
  | 0, _ => none
  | fuel + 1, σ =>
    match test σ with
    | none => none
    | some false => some (.normal σ)
    | some true =>
      match body σ with
      | none => none
      | some (.ended r) => some (.ended r)
      | some (.out σ) => some (.normal σ)
      | some (.normal σ) | some (.on σ) =>
        match update σ with
        | some (.normal σ) => rounds test body update fuel σ
        | some (.ended r) => some (.ended r)
        | _ => none

/-- An assignment to a local. -/
def AssignOp.effect (op : AssignOp) (s : Scalar) (cell : Cell) (d : Datum) : Effect := fun σ => do
  let d ←
    match op.operator? with
    | none => some d
    | some operator => operator.apply s (← σ.read s cell) d
  some (.normal (σ.set cell d))

mutual

/-- The effect of a statement. -/
def Node.effect (fuel : Nat) (Γ : Scope) : Node → Effect
  | .mk kind _ => kind.effect fuel Γ

/-- The effect of a statement of a kind.  An expression leaves everything as it is. -/
def NodeKind.effect (fuel : Nat) (Γ : Scope) : NodeKind → Effect
  | .block content => Node.effects fuel Γ.opened content
  | .define name _ init => fun σ => do
    let d ← init.value Γ σ
    some (.normal (σ.set (.defined name Γ.next) d))
  | .assign op (.mk (.call _ [.mk (.callId name _) _]) _) value => fun σ => do
    let s ← value.scalar?
    let cell ← Γ.find? name
    op.effect s cell (← value.value Γ σ) σ
  | .branch arms => Arm.effect fuel Γ arms
  | .switch condition cases otherwise => fun σ =>
    match condition.value Γ σ with
    | some (.word w) =>
      Case.effect fuel Γ w (fun Γ => Node.effect? fuel Γ otherwise) cases σ
    | _ => none
  | .breakLoop => fun σ => some (.out σ)
  | .continueLoop => fun σ => some (.on σ)
  | .loop condition body update =>
    .rounds (condition.test Γ) (body.effect fuel Γ) (Node.effect? fuel (body.past Γ) update) fuel
  | .ret none _ => fun _ => some (.ended .void)
  | .ret (some value) _ => fun σ => do
    let d ← value.value Γ σ
    some (.ended (.value d))
  | kind => fun σ => do
    let _ ← kind.value Γ σ
    some (.normal σ)

/-- The effect of statements in order. -/
def Node.effects (fuel : Nat) (Γ : Scope) : List Node → Effect
  | [] => fun σ => some (.normal σ)
  | node :: rest => (node.effect fuel Γ).andThen (Node.effects fuel (node.past Γ) rest)

/-- The effect of a statement that may be missing. -/
def Node.effect? (fuel : Nat) (Γ : Scope) : Option Node → Effect
  | none => fun σ => some (.normal σ)
  | some node => node.effect fuel Γ

/-- The effect of the first arm whose condition holds. -/
def Arm.effect (fuel : Nat) (Γ : Scope) : List Arm → Effect
  | [] => fun σ => some (.normal σ)
  | .mk none body _ :: _ => body.effect fuel Γ
  | .mk (some condition) body _ :: rest => fun σ =>
    match condition.test Γ σ with
    | none => none
    | some true => body.effect fuel Γ σ
    | some false => Arm.effect fuel (body.past Γ) rest σ

/-- The effect of the first case with the value `w`, or of the default. -/
def Case.effect (fuel : Nat) (Γ : Scope) (w : BitVec 64) (otherwise : Scope → Effect) :
    List Case → Effect
  | [] => otherwise Γ
  | .mk value body _ :: rest =>
    if BitVec.ofInt 64 value = w then body.effect fuel Γ
    else Case.effect fuel (body.past Γ) w otherwise rest

end

/-! ## Functions -/

/-- How a function ends whose body ends in some way. -/
def Func.resultOf (f : Func) : Outcome Store Result → Option Result
  | .normal _ => some (if f.returnType.isVoid then .void else .fellOff)
  | .ended r => some r
  | _ => none

/-- What a function gives for arguments. -/
def Func.evaluate (f : Func) (fuel : Nat) (args : List Datum) : Option Result := do
  let body ← f.body
  let σ ← Store.withArgs f.params args fun _ => none
  let o ← body.effect fuel (Scope.withParams f.params (Scope.opened {})) σ
  f.resultOf o

end Codegen
