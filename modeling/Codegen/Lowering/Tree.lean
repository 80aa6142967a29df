import Codegen.Lowering.Assembly
import Codegen.Lowering.Control

/-!
# The walk over a body

One function for every place a node can stand in: `lowerNode` for a node of any kind, `lowerOperand`
where the address of a chain may be asked for, `lowerLink` for what follows the head of a chain,
and one function for every list of nodes.  All of them go down the tree, and none of them says how
control flow is laid out: that is what the assembler `m` does.

Whatever a node does to the value stack, it is one value higher behind an expression and as high as
before behind any other node: a node that does otherwise is a fault, and the stack is mended.
-/

namespace Codegen.Lowering

open Ir (Value)

open Assembler (guarded branching switching looping jumping returning)

variable {m : Type → Type} [Assembler m]

/-- Mends the stack behind a node when it is not as high as expected. -/
def mend (kind : NodeKind) (span : Span) (expected found : Nat) : Line Unit := do
  if found ≠ expected then
    fault span (.unbalanced kind.title expected found)
    resize expected

/-- A walk over a node of the given kind that leaves the stack at the height the kind asks for. -/
def balanced (kind : NodeKind) (span : Span) (walk : m Unit) : m Unit := do
  let before ← height
  walk
  let found ← height
  mend kind span (before + if kind.isExpression then 1 else 0) found

/-- A walk whose values nobody takes. -/
def dropping (walk : m Unit) : m Unit := do
  let before ← height
  walk
  dropTo before

/-- Whether the last link of a chain calls a function. -/
def endsWithCall (links : List Node) : Bool :=
  links.getLast?.any fun link => link.kind.isCallFunc

mutual

/-- Any node. -/
def lowerNode (env : Env) : Node → m Unit
  | .mk kind span => balanced kind span (lowerKind env span kind)

/-- A node whose address may be asked for: a chain is walked in the given mode. -/
def lowerOperand (env : Env) (mode : Mode) : Node → m Unit
  | .mk (.call type chain) span => lowerChain env mode span type chain
  | .mk kind span => balanced kind span (lowerKind env span kind)

/-- A node by its kind. -/
def lowerKind (env : Env) (span : Span) : NodeKind → m Unit
  | .block content => do
    pushScope
    lowerStatements env content
    popScope
  | .unary op type value => do
    lowerNode env value
    let source ← pop value.span
    applyUnary env op type source
  | .binary op type left right =>
    match operation op with
    | .arithmetic op => do
      lowerNode env left
      lowerNode env right
      let rhs ← pop right.span
      let lhs ← pop left.span
      applyArithmetic env op type lhs rhs
    | .comparison kind => do
      lowerNode env left
      lowerNode env right
      let rhs ← pop right.span
      let lhs ← pop left.span
      applyComparison env kind type lhs rhs
    | .shortCircuit isAnd => do
      lowerNode env left
      let lhs ← pop left.span
      if decides isAnd lhs then
        push (.lit (decisive isAnd) type)
      else
        let result ← storeLeft lhs
        guarded isAnd lhs.value do
          lowerNode env right
          let rhs ← pop right.span
          storeRight result rhs
        loadResult type result
  | .convert source target => do
    lowerNode env source
    let value ← pop source.span
    applyConvert env target value
  | .nil type => push (.nil type)
  | .number literal type => push (.lit (numberText literal type) type)
  | .string literal type => pushString literal type
  | .char literal type => push (.lit (Text.decimal literal.toNat) type)
  | .bool literal type => push (.lit (if literal then "1" else "0") type)
  | .array size type values => do
    let element := elementType env type
    let first ← beginArray size element
    lowerElements env first element 0 values
    pushVar first type.notArray
  | .structInit type fields => do
    let location ← beginInit env type
    match env.symbols.findStruct type, env.symbols.findUnion type with
    | some symbol, _ => do
      let values ← lowerFields env symbol type fields
      storeFields env location (env.map type) (inFieldOrder values)
    | none, some symbol => lowerMembers env symbol type location fields
    | none, none => fault span (.notAggregate type.fullPath)
    push location
  | .call type chain => lowerChain env .value span type chain
  | .callId name type => pushIdentifier env name type span
  | .callIndex .. => fault span (.linkOutside "call-index")
  | .callFunc .. => fault span (.linkOutside "call-func-args")
  | .getField .. => fault span (.linkOutside "get-field")
  | .getPath .. => fault span (.linkOutside "get-path")
  | .ptrGetField .. => fault span (.linkOutside "ptr-get-field")
  | .define name type init => do
    let slot ← beginDefine env name type
    lowerOperand env (modeOf type.isReference) init
    let value ← pop init.span
    endDefine env name type slot value
  | .assign op left right =>
    match left with
    | .mk (.call type chain) leftSpan => do
      lowerChain env .address leftSpan type chain
      let target ← pop leftSpan
      lowerNode env right
      let value ← pop right.span
      assign env op target value span
    | .mk kind _ => fault span (.notAssignable kind.title)
  | .branch [] => pure ()
  | .branch (arm :: arms) => branching (lowerArms env (arm :: arms))
  | .switch condition cases otherwise => do
    let isUnion := switchesOnUnion env condition.kind
    if isUnion then
      lowerOperand env .address condition
    else
      lowerNode env condition
    let operand ← pop condition.span
    let (value, type) ← switchOperand env isUnion operand span
    switching value type (lowerCases env cases) (lowerDefault env otherwise)
  | .breakLoop => jumping .out span
  | .continueLoop => jumping .on span
  | .loop condition body update =>
    looping (lowerCondition env condition) (lowerNode env body) (lowerUpdate env update)
  | .ret none _ => returning "void" none
  | .ret (some value) byReference => do
    lowerOperand env (modeOf byReference) value
    let result ← pop span
    returning (returned env result).1 (returned env result).2

/-- The statements of a block. -/
def lowerStatements (env : Env) : List Node → m Unit
  | [] => pure ()
  | statement :: rest => do
    dropping (lowerNode env statement)
    lowerStatements env rest

/-- The values of an array literal, from position `index` on. -/
def lowerElements (env : Env) (first element : String) : (index : Nat) → List Node → m Unit
  | _, [] => pure ()
  | index, node :: rest => do
    let slot ← elementSlot first element index
    lowerNode env node
    let value ← pop node.span
    emit (.store element value.value (.var slot))
    lowerElements env first element (index + 1) rest

/-- The contents of a struct initializer in the order they are written, each with the position of
its field. -/
def lowerFields (env : Env) (symbol : StructSymbol) (type : Ty) :
    List FieldInit → m (List (Nat × Operand))
  | [] => pure []
  | .mk name content _ :: rest =>
    match symbol.fieldIndex? name with
    | some index => do
      lowerNode env content
      let value ← pop content.span
      let values ← lowerFields env symbol type rest
      pure ((index, value) :: values)
    | none => do
      fault content.span (.noField type.fullPath name)
      lowerFields env symbol type rest

/-- The contents of an initializer of a tagged union, each stored behind its tag. -/
def lowerMembers (env : Env) (symbol : UnionSymbol) (type : Ty) (location : Operand) :
    List FieldInit → m Unit
  | [] => pure ()
  | .mk name content _ :: rest => do
    match symbol.member? name with
    | some member => do
      let payload ← beginMember env location type member content.span
      lowerNode env content
      let value ← pop content.span
      emit (.store (env.map value.type) value.value (.var payload))
    | none => fault content.span (.noMember type.fullPath name)
    lowerMembers env symbol type location rest

/-- A chain: its head, its links and what is wanted of it. -/
def lowerChain (env : Env) (mode : Mode) (span : Span) (type : Ty) : List Node → m Unit
  | [] => do
    fault span .emptyChain
    push (.nil type)
  | head :: links => do
    lowerNode env head
    lowerLinks env links
    finishChain env mode (endsWithCall links)

/-- The links of a chain. -/
def lowerLinks (env : Env) : List Node → m Unit
  | [] => pure ()
  | link :: rest => do
    lowerLink env link
    lowerLinks env rest

/-- A link of a chain. -/
def lowerLink (env : Env) : Node → m Unit
  | .mk (.callIndex type index) span => do
    let _ ← dereference env
    let location ← pop span
    lowerNode env index
    let operand ← pop index.span
    pushElement env type location operand
  | .mk (.callFunc type args byReference) span => do
    let callee ← pop span
    match callee.kind with
    | .method => do
      let _ ← dereference env
      let receiver ← pop span
      let operands ← lowerArgs env byReference args
      emitCall env callee.content type (receiver :: operands) span
    | .function => do
      let operands ← lowerArgs env byReference args
      emitCall env callee.content type operands span
    | kind => do
      fault span (.notCallable kind.title)
      push (.nil type)
  | .mk (.getField name type) span => lowerGetField env name type span
  | .mk (.ptrGetField name type) span => lowerPtrGetField env name type span
  | .mk (.getPath name type) span => lowerGetPath env name type span
  | .mk kind span => fault span (.notLink kind.title)

/-- The arguments of a call from left to right; `byReference` begins with what is known of the
first one. -/
def lowerArgs (env : Env) (byReference : List Bool) : List Node → m (List Operand)
  | [] => pure []
  | arg :: rest => do
    if byReference.headD false then
      lowerOperand env .address arg
    else
      lowerNode env arg
    let operand ← pop arg.span
    let operands ← lowerArgs env byReference.tail rest
    pure (operand :: operands)

/-- A condition; gives the value that is tested. -/
def lowerCondition (env : Env) : Node → m Value
  | .mk kind span => do
    balanced kind span (lowerKind env span kind)
    let cond ← pop span
    pure cond.value

/-- The arms of a branch.  Only the last one may lack a condition. -/
def lowerArms (env : Env) : List Arm → List (ArmWalk m)
  | [] => []
  | .mk none body span :: rest =>
    ⟨none, do
      if !rest.isEmpty then
        fault span .elseNotLast
      lowerNode env body⟩ :: lowerArms env rest
  | .mk (some condition) body _ :: rest =>
    ⟨some (lowerCondition env condition), lowerNode env body⟩ :: lowerArms env rest

/-- The cases of a switch. -/
def lowerCases (env : Env) : List Case → List (Int × m Unit)
  | [] => []
  | .mk value body _ :: rest => (value, lowerNode env body) :: lowerCases env rest

/-- The default of a switch. -/
def lowerDefault (env : Env) : Option Node → Option (m Unit)
  | none => none
  | some body => some (lowerNode env body)

/-- The update of a loop. -/
def lowerUpdate (env : Env) : Option Node → m Unit
  | none => pure ()
  | some update => dropping (lowerNode env update)

end

end Codegen.Lowering
