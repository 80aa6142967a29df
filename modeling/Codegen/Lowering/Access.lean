import Codegen.Lowering.Names

/-!
# Locations, members and calls

A chain works on locations: its head pushes the address of a slot, its links compute addresses of
elements and fields, and only its end loads the value, unless the address itself is wanted.
-/

namespace Codegen.Lowering

open Ir (Value Inst)

/-- How the result of a chain is wanted. -/
inductive Mode where
  /-- The value at the location the chain reaches. -/
  | value
  /-- The location itself. -/
  | address
  deriving DecidableEq, Inhabited

/-! ## Slots and loads -/

/-- A hidden stack slot of a printed type; gives the temporary that holds its address. -/
def hiddenSlot (type : String) : Line String := do
  let target ← temp
  addSlot (target ++ ".r") type
  emit (.slotPtr target (target ++ ".r") type)
  pure target

/-- Pushes the value of a temporary. -/
def pushVar (name : String) (type : Ty) : Line Unit := push (.var name type)

/-- The value at a location. -/
def load (env : Env) (location : Operand) : Line Operand := do
  let dest ← temp
  emit (.load (env.map location.type.pointee) location.value (.var dest))
  pure (.var dest location.type.pointee)

/-- The type of the address of the first element of the array at a location of type `type`. -/
def decayed (type : Ty) : Ty := type.pointee.notArray

/-- The address of the first element of the array at a location. -/
def decay (env : Env) (location : Operand) : Line Operand := do
  let dest ← temp
  emit (.decay (.var dest) location.value (env.map (decayed location.type).pointee)
    location.type.arrayLength)
  pure (.var dest (decayed location.type))

/-- The first element of an array at a location, or the value at the location. -/
def loadOrDecay (env : Env) (location : Operand) : Line Operand :=
  if location.type.isArray then decay env location else load env location

/-- Replaces a reference on top of the stack by the location it holds; says whether there was
one. -/
def dereference (env : Env) : Line Bool :=
  withTop false fun source => do
    if source.type.isReference then
      let dest ← temp
      emit (.load (env.map source.type.notReference) source.value (.var dest))
      pushVar dest source.type.notReference
      pure true
    else
      push source
      pure false

/-- Whether the chain has reached a location that still has to be loaded. -/
def isLocation (operand : Operand) : Bool := operand.isVar && operand.type.isPointer

/-- What a chain gives that has reached the operand.  A pointer that a call has returned lies in a
hidden slot (`isResult`), so even for its address it is loaded once. -/
def reached (env : Env) (mode : Mode) (isResult : Bool) (source : Operand) : Line Operand :=
  if isLocation source then
    match mode with
    | .address =>
      if isResult && source.type.pointee.isPointer then load env source else pure source
    | .value => loadOrDecay env source
  else
    pure source

/-- The end of a chain: loads the value, or leaves the location. -/
def finishChain (env : Env) (mode : Mode) (endsWithCall : Bool) : Line Unit := do
  let dereferenced ← dereference env
  withTop () fun source => do
    push (← reached env mode (endsWithCall && !dereferenced) source)

/-! ## Heads -/

/-- Stands in for the slot of a local that is not defined. -/
def missingLocal : String := "<name-not-found>"

/-- The symbol of a function: its plain name when it is external. -/
def functionSymbol (env : Env) (type : Ty) : String :=
  match env.symbols.findFunction type with
  | some symbol => if symbol.isExternal then type.name else Text.mangle type.fullPath
  | none => Text.mangle type.fullPath

/-- The slot of a local. -/
def localOperand (name : String) (type : Ty) (span : Span) : Line Operand := do
  match ← findLocal name with
  | some slot => pure (.var slot type.notArray.pointer)
  | none => do
    fault span (.undefinedLocal name)
    pure (.var missingLocal type.notArray.pointer)

/-- What a global name stands for. -/
def globalOperand (env : Env) (type : Ty) (span : Span) : Line Operand :=
  match env.symbols.kindOf type with
  | .basic => pure ⟨.primitive, type.fullPath, type⟩
  | .struct => pure ⟨.struct, type.fullPath, type⟩
  | .union => pure ⟨.union, type.fullPath, type⟩
  | .enum => pure ⟨.enum, type.fullPath, type⟩
  | .function => pure ⟨.function, functionSymbol env type, type⟩
  | .unknown => do
    fault span (.unknownGlobal type.fullPath)
    pure (.nil type)

/-- An identifier. -/
def pushIdentifier (env : Env) (name : String) (type : Ty) (span : Span) : Line Unit := do
  push (← if type.isGlobal then globalOperand env type span else localOperand name type span)

/-! ## Links -/

/-- An element of the array or pointer at a location. -/
def pushElement (env : Env) (type : Ty) (location index : Operand) : Line Unit := do
  let base ← loadOrDecay env location
  let dest ← temp
  emit (.getIndex (.var dest) base.value index.value (env.map base.type.pointee)
    (env.map index.type))
  pushVar dest type.pointer

/-- The receiver of a method below the method itself. -/
def pushMethod (receiver : Operand) (aggregate : Ty) (name : String) (type : Ty) : Line Unit := do
  push receiver
  push ⟨.method, aggregate.fullPath ++ "." ++ name, type⟩

/-- The address of a part of the struct or tagged union at a location. -/
def fieldAddress (location : Operand) (structType : String) (index : Nat) : Line String := do
  let dest ← temp
  emit (.getField (.var dest) location.value structType index)
  pure dest

/-- The address of the storage of a tagged union, seen as one of its members. -/
def unionPayload (env : Env) (location : Operand) (unionType member : Ty) (span : Span) :
    Line String := do
  let storage ←
    match (env.layouts.union? unionType).bind UnionLayout.widest with
    | some widest => pure widest
    | none => do
      fault span (.noPayload unionType.fullPath)
      pure member
  let raw ← fieldAddress location (env.map unionType) 1
  let dest ← temp
  emit (.cast .bitcast (.var dest) (.var raw) (env.map storage.pointer) (env.map member.pointer))
  pure dest

/-- A method of a built-in type. -/
def primitiveMember (env : Env) (receiver : Operand) (aggregate : Ty) (name : String) (type : Ty)
    (span : Span) : Line Unit := do
  if !((env.symbols.findPrimitive aggregate.name).any fun p => p.methods.contains name) then
    fault span (.noMethod aggregate.name name)
  pushMethod receiver aggregate name type

/-- A method or field of a struct. -/
def structMember (env : Env) (symbol : StructSymbol) (receiver : Operand) (aggregate : Ty)
    (name : String) (type : Ty) (span : Span) : Line Unit := do
  if symbol.methods.contains name then
    pushMethod receiver aggregate name type
  else
    match symbol.fieldIndex? name with
    | some index => do
      let dest ← fieldAddress receiver (env.map aggregate) index
      pushVar dest type.pointer
    | none => do
      fault span (.noField aggregate.fullPath name)
      push (.nil type)

/-- A method or member of a tagged union. -/
def unionMember (env : Env) (symbol : UnionSymbol) (receiver : Operand) (aggregate : Ty)
    (name : String) (type : Ty) (span : Span) : Line Unit := do
  if symbol.methods.contains name then
    pushMethod receiver aggregate name type
  else
    match symbol.member? name with
    | some member => do
      let dest ← unionPayload env receiver aggregate member.type span
      pushVar dest type.pointer
    | none => do
      fault span (.noMember aggregate.fullPath name)
      push (.nil type)

/-- A field or method of what lies at a location. -/
def pushMember (env : Env) (receiver : Operand) (name : String) (type : Ty) (span : Span) :
    Line Unit := do
  let aggregate := receiver.type.pointee
  if aggregate.path = "" then
    primitiveMember env receiver aggregate name type span
  else
    match env.symbols.findStruct aggregate, env.symbols.findUnion aggregate with
    | some symbol, _ => structMember env symbol receiver aggregate name type span
    | none, some symbol => unionMember env symbol receiver aggregate name type span
    | none, none => do
      fault span (.noFields aggregate.fullPath)
      push (.nil type)

/-- A field or method of the value on top of the stack, a location. -/
def lowerGetField (env : Env) (name : String) (type : Ty) (span : Span) : Line Unit := do
  let _ ← dereference env
  let receiver ← pop span
  pushMember env receiver name type span

/-- A field or method of what the pointer on top of the stack points to. -/
def lowerPtrGetField (env : Env) (name : String) (type : Ty) (span : Span) : Line Unit := do
  let _ ← dereference env
  let pointer ← pop span
  let receiver ← load env pointer
  pushMember env receiver name type span

/-- A name inside a type: a function of a built-in type, struct or tagged union, or a member of an
enum. -/
def lowerGetPath (env : Env) (name : String) (type : Ty) (span : Span) : Line Unit := do
  let owner ← pop span
  match owner.kind with
  | .primitive | .struct | .union =>
    push ⟨.function, owner.type.fullPath ++ "." ++ name, type⟩
  | .enum =>
    match (env.symbols.findEnum owner.type).bind fun e => e.value? name with
    | some value => push (.lit (Text.signed value) type)
    | none => do
      fault span (.noEnumMember owner.type.fullPath name)
      push (.nil type)
  | kind => do
    fault span (.noPath name kind.title)
    push (.nil type)

/-! ## Calls -/

/-- Puts the result of a call into a hidden slot and pushes its location. -/
def pushResult (result printed : String) (type : Ty) : Line Unit := do
  let slot ← hiddenSlot printed
  emit (.store printed (.var result) (.var slot))
  pushVar slot type.pointer

/-- The call itself.  Its arguments begin with the receiver of a method. -/
def emitCall (env : Env) (callee : String) (type : Ty) (args : List Operand) (span : Span) :
    Line Unit := do
  let name := Text.mangle callee
  let passed := args.map fun arg => (env.map arg.type, arg.value)
  if type.isVoid then
    let location ← addLocation env span
    emit (.call name (env.map type) (.null "void call") passed (env.variadic.get? name) location)
    push (.nil .void)
  else
    let result ← temp
    let location ← addLocation env span
    emit (.call name (env.map type) (.var result) passed (env.variadic.get? name) location)
    pushResult result (env.map type) type

end Codegen.Lowering
