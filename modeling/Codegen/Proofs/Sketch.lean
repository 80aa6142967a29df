import Codegen.Lowering.Tree

/-!
# What a node stands for

The kind and the type of the operand that a node leaves on the value stack are known without any
walk; only the name that holds its value is not.  `nodeSketch` gives the operand without that
name: it says which function a chain calls, and whether a constant decides a conjunction.
-/

namespace Codegen.Lowering

/-- An operand without the name that holds its value. -/
def Operand.sketch (operand : Operand) : Operand :=
  if operand.isVar then .var "" operand.type else operand

/-- An operand with its reference followed. -/
def settled (operand : Operand) : Operand :=
  if operand.type.isReference then .var "" operand.type.notReference else operand

/-- The type of what is loaded from a location. -/
def loadedType (type : Ty) : Ty := if type.isArray then decayed type else type.pointee

/-- What a chain gives that has reached an operand. -/
def reachedSketch (mode : Mode) (isResult : Bool) (source : Operand) : Operand :=
  if isLocation source then
    match mode with
    | .address =>
      if isResult && source.type.pointee.isPointer then .var "" source.type.pointee else source
    | .value => .var "" (loadedType source.type)
  else
    source

/-- The end of a chain that has reached an operand. -/
def finished (mode : Mode) (endsWithCall : Bool) (operand : Operand) : Operand :=
  reachedSketch mode (endsWithCall && !operand.type.isReference) (settled operand)

/-- What a global name stands for. -/
def globalSketch (env : Env) (type : Ty) : Operand :=
  match env.symbols.kindOf type with
  | .basic => ⟨.primitive, type.fullPath, type⟩
  | .struct => ⟨.struct, type.fullPath, type⟩
  | .union => ⟨.union, type.fullPath, type⟩
  | .enum => ⟨.enum, type.fullPath, type⟩
  | .function => ⟨.function, functionSymbol env type, type⟩
  | .unknown => .nil type

/-- What an identifier stands for. -/
def identifierSketch (env : Env) (type : Ty) : Operand :=
  if type.isGlobal then globalSketch env type else .var "" type.notArray.pointer

/-- Whether a name of a type is a method. -/
def isMethod (env : Env) (aggregate : Ty) (name : String) : Bool :=
  if aggregate.path = "" then true
  else
    match env.symbols.findStruct aggregate, env.symbols.findUnion aggregate with
    | some symbol, _ => symbol.methods.contains name
    | none, some symbol => symbol.methods.contains name
    | none, none => false

/-- A member of what lies at a location of the given type. -/
def memberSketch (env : Env) (location : Ty) (name : String) (type : Ty) : Operand :=
  if isMethod env location.pointee name then
    ⟨.method, location.pointee.fullPath ++ "." ++ name, type⟩
  else
    .var "" type.pointer

/-- A name inside of a type. -/
def pathSketch (env : Env) (owner : Operand) (name : String) (type : Ty) : Operand :=
  match owner.kind with
  | .primitive | .struct | .union => ⟨.function, owner.type.fullPath ++ "." ++ name, type⟩
  | .enum =>
    match (env.symbols.findEnum owner.type).bind fun e => e.value? name with
    | some value => .lit (Text.signed value) type
    | none => .nil type
  | _ => .nil type

/-- The result of a call. -/
def resultSketch (type : Ty) : Operand :=
  if type.isVoid then .nil .void else .var "" type.pointer

/-- What a chain has reached behind a link. -/
def linkSketch (env : Env) (reached : Operand) : Node → Operand
  | .mk (.callIndex type _) _ => .var "" type.pointer
  | .mk (.callFunc type _ _) _ => resultSketch type
  | .mk (.getField name type) _ => memberSketch env (settled reached).type name type
  | .mk (.ptrGetField name type) _ => memberSketch env (settled reached).type.pointee name type
  | .mk (.getPath name type) _ => pathSketch env reached name type
  | .mk _ _ => reached

mutual

/-- What a node stands for. -/
def nodeSketch (env : Env) : Node → Operand
  | .mk kind _ => kindSketch env kind

/-- What a node of a kind stands for. -/
def kindSketch (env : Env) : NodeKind → Operand
  | .unary _ type _ => .var "" type
  | .binary op type left _ =>
    match operation op with
    | .shortCircuit isAnd =>
      if decides isAnd (nodeSketch env left) then .lit (decisive isAnd) type else .var "" type
    | _ => .var "" type
  | .convert _ target => .var "" target
  | .nil type => .nil type
  | .number literal type => .lit (numberText literal type) type
  | .string _ type => .var "" type
  | .char literal type => .lit (Text.decimal literal.toNat) type
  | .bool literal type => .lit (if literal then "1" else "0") type
  | .array _ type _ => .var "" type.notArray
  | .structInit type _ => .var "" type.pointer
  | .call type chain => chainSketch env .value type chain
  | .callId _ type => identifierSketch env type
  | _ => .nil .void

/-- What a chain stands for. -/
def chainSketch (env : Env) (mode : Mode) (type : Ty) : List Node → Operand
  | [] => .nil type
  | head :: links =>
    finished mode (endsWithCall links) (links.foldl (linkSketch env) (nodeSketch env head))

end

/-- What a node stands for whose address may be asked for. -/
def operandSketch (env : Env) (mode : Mode) : Node → Operand
  | .mk (.call type chain) _ => chainSketch env mode type chain
  | .mk kind _ => kindSketch env kind

end Codegen.Lowering
