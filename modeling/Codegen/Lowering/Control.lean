import Codegen.Lowering.Expression

/-!
# Definitions, assignments and switches

The straight-line parts of definitions, assignments, returns and switches that lie between the
walks over the nodes below them.
-/

namespace Codegen.Lowering

open Ir (Value Inst)

/-! ## Definitions, assignments and returns -/

/-- How an operand is walked when its address may be asked for. -/
def modeOf (byReference : Bool) : Mode := if byReference then .address else .value

/-- A slot for a local. -/
def beginDefine (env : Env) (name : String) (type : Ty) : Line String := do
  let slot ← freshLocal name
  addSlot slot (env.map type.notArray)
  pure slot

/-- Binds a local to its slot and stores its first value there.  The binding comes last, so that
the first value may still speak of an outer local of the same name. -/
def endDefine (env : Env) (name : String) (type : Ty) (slot : String) (value : Operand) :
    Line Unit := do
  bindLocal name slot
  emit (.store (env.map type.notArray) value.value (.var slot))

/-- A compound assignment: loads, computes and stores. -/
def assignCompound (env : Env) (op : Ir.BinOp) (target value : Operand) : Line Unit := do
  let stored := target.type.pointee
  let type := env.map value.type
  let old ← temp
  emit (.load type target.value (.var old))
  let result ← temp
  emit (.binary op (.var result) (.var old) value.value (!stored.isFloat) (!stored.isUnsigned)
    type)
  emit (.store type (.var result) target.value)

/-- An assignment to a location. -/
def assign (env : Env) (op : AssignOp) (target value : Operand) (span : Span) : Line Unit :=
  if target.isVar then
    match compound? op with
    | some op => assignCompound env op target value
    | none => emit (.store (env.map value.type) value.value target.value)
  else
    fault span .notAddressable

/-- The printed type and the value that a return gives back; a void result has no value. -/
def returned (env : Env) (result : Operand) : String × Option Value :=
  if result.type.isVoid then ("void", none) else (env.map result.type, some result.value)

/-! ## Switches -/

/-- Loads through a location until one pointer level is left; there are `levels` more. -/
def loadDown (env : Env) : (levels : Nat) → Operand → Line Operand
  | 0, location => pure location
  | levels + 1, location => do
    let inner ← load env location
    loadDown env levels inner

/-- The tag of the tagged union at a location. -/
def unionTag (env : Env) (location : Operand) : Line Value := do
  let location ← loadDown env (location.type.depth - 1).toNat location
  let slot ← fieldAddress location (env.map location.type.pointee) 0
  let tag ← temp
  emit (.load "i64" (.var slot) (.var tag))
  pure (.var tag)

/-- Whether a switch over the node selects by the tag of a tagged union. -/
def switchesOnUnion (env : Env) (condition : NodeKind) : Bool :=
  condition.type?.any fun type => env.symbols.kindOf type = .union

/-- What a switch selects by, and its printed type. -/
def switchOperand (env : Env) (isUnion : Bool) (condition : Operand) (span : Span) :
    Line (Value × String) := do
  if !isUnion then
    pure (condition.value, env.map condition.type)
  else if condition.type.isPointer then
    pure (← unionTag env condition, "i64")
  else
    fault span .switchWithoutAddress
    pure (condition.value, "i64")

end Codegen.Lowering
