import Codegen.Program
import Codegen.Program.SymbolCodec

/-!
# Nodes in JSON

A node is a record with the fields `node` and `span`.  What stands under `node` must fit the levels
that are left as a whole, fields of no meaning included, before it is looked at.  It is an object
that names its kind in the field `kind`, or an array of the kind and the first fields of that kind.
A node below another one may also give the number of its kind.
-/

namespace Codegen

open Json

/-! ## Operators -/

namespace UnaryOp

/-- The operators with their names. -/
def names : List (String × UnaryOp) := [("neg", neg), ("bnot", bnot), ("lnot", lnot)]

def encode : UnaryOp → Json
  | neg => .str "neg"
  | bnot => .str "bnot"
  | lnot => .str "lnot"

end UnaryOp

namespace BinaryOp

/-- The operators with their names. -/
def names : List (String × BinaryOp) :=
  [("add", add), ("sub", sub), ("mult", mult), ("div", div), ("rem", rem), ("cmp_eq", cmpEq),
    ("cmp_neq", cmpNeq), ("less", less), ("leq", leq), ("grt", grt), ("geq", geq),
    ("cmp_and", cmpAnd), ("cmp_or", cmpOr), ("band", band), ("bxor", bxor), ("bor", bor)]

def encode : BinaryOp → Json
  | add => .str "add"
  | sub => .str "sub"
  | mult => .str "mult"
  | div => .str "div"
  | rem => .str "rem"
  | cmpEq => .str "cmp_eq"
  | cmpNeq => .str "cmp_neq"
  | less => .str "less"
  | leq => .str "leq"
  | grt => .str "grt"
  | geq => .str "geq"
  | cmpAnd => .str "cmp_and"
  | cmpOr => .str "cmp_or"
  | band => .str "band"
  | bxor => .str "bxor"
  | bor => .str "bor"

end BinaryOp

namespace AssignOp

/-- The operators with their names. -/
def names : List (String × AssignOp) :=
  [("eq", eq), ("add_eq", addEq), ("sub_eq", subEq), ("mult_eq", multEq), ("div_eq", divEq),
    ("rem_eq", remEq), ("and_eq", andEq), ("xor_eq", xorEq), ("or_eq", orEq)]

def encode : AssignOp → Json
  | eq => .str "eq"
  | addEq => .str "add_eq"
  | subEq => .str "sub_eq"
  | multEq => .str "mult_eq"
  | divEq => .str "div_eq"
  | remEq => .str "rem_eq"
  | andEq => .str "and_eq"
  | xorEq => .str "xor_eq"
  | orEq => .str "or_eq"

end AssignOp

/-- Whether a value says nothing: null, or inside a node also an empty object. -/
def saysNothing (inside : Bool) : Json → Bool
  | .null => true
  | .obj [] => inside
  | _ => false

/-- One of finitely many named values: its name, or an object with the name as its only field and
nothing under it. -/
def decodeNamed {α : Type} (inside : Bool) (names : List (String × α)) : Decoder α
  | _, .str name => names.lookup name
  | _ + 1, .obj [(name, value)] => if saysNothing inside value then names.lookup name else none
  | _, _ => none

/-- An operator of one operand, on its own. -/
def UnaryOp.decode : Decoder UnaryOp := decodeNamed false UnaryOp.names

/-- An operator of two operands, on its own. -/
def BinaryOp.decode : Decoder BinaryOp := decodeNamed false BinaryOp.names

/-- An operator of an assignment, on its own. -/
def AssignOp.decode : Decoder AssignOp := decodeNamed false AssignOp.names

/-! ## Decoding nodes -/

/-- A record with a value under `node` and a position under `span`. -/
def decodeSpanned {α : Type} (value : Decoder α) : Decoder (α × Span) := fun levels json => do
  let fields ← Fields.of? ["node", "span"] levels json
  let node ← fields.required "node" value
  let span ← fields.withDefault "span" Span.decode {}
  some (node, span)

/-- A field of a struct initializer, its content read by `node`. -/
def FieldInit.decodeWith (node : Decoder Node) : Decoder FieldInit := fun levels json => do
  let fields ← Fields.of? ["name", "content", "type"] levels json
  let name ← fields.required "name" .string
  let content ← fields.required "content" node
  let type ← fields.required "type" Ty.decode
  some (.mk name content type)

/-- Condition and body of an arm. -/
def Arm.decodeParts (node : Decoder Node) : Decoder (Option Node × Node) := fun levels json => do
  let fields ← Fields.of? ["condition", "body"] levels json
  let condition ← fields.optional "condition" node
  let body ← fields.required "body" node
  some (condition, body)

/-- An arm of a branch, its nodes read by `node`. -/
def Arm.decodeWith (node : Decoder Node) : Decoder Arm := fun levels json => do
  let ((condition, body), span) ← decodeSpanned (Arm.decodeParts node) levels json
  some (.mk condition body span)

/-- Value and body of a case. -/
def Case.decodeParts (node : Decoder Node) : Decoder (Int × Node) := fun levels json => do
  let fields ← Fields.of? ["value", "body"] levels json
  let value ← fields.required "value" .int64
  let body ← fields.required "body" node
  some (value, body)

/-- A case of a switch, its body read by `node`. -/
def Case.decodeWith (node : Decoder Node) : Decoder Case := fun levels json => do
  let ((value, body), span) ← decodeSpanned (Case.decodeParts node) levels json
  some (.mk value body span)

namespace NodeKind

variable (node : Decoder Node) (fields : Fields)

def decodeBlock : Option NodeKind := do
  some (.block (← fields.required "content" (.list node)))

def decodeUnary : Option NodeKind := do
  let op ← fields.required "op" (decodeNamed true UnaryOp.names)
  let type ← fields.required "type" Ty.decode
  let value ← fields.required "value" node
  some (.unary op type value)

def decodeBinary : Option NodeKind := do
  let op ← fields.required "op" (decodeNamed true BinaryOp.names)
  let type ← fields.required "type" Ty.decode
  let left ← fields.required "left" node
  let right ← fields.required "right" node
  some (.binary op type left right)

def decodeConvert : Option NodeKind := do
  let source ← fields.required "source" node
  let target ← fields.required "target" Ty.decode
  some (.convert source target)

def decodeNil : Option NodeKind := do
  some (.nil (← fields.required "type" Ty.decode))

def decodeNumber : Option NodeKind := do
  let literal ← fields.required "literal" .string
  let type ← fields.required "type" Ty.decode
  some (.number literal type)

def decodeString : Option NodeKind := do
  let literal ← fields.required "literal" .string
  let type ← fields.required "type" Ty.decode
  some (.string literal type)

def decodeChar : Option NodeKind := do
  let literal ← fields.required "literal" .uint8
  let type ← fields.required "type" Ty.decode
  some (.char literal type)

def decodeBool : Option NodeKind := do
  let literal ← fields.required "literal" .bool
  let type ← fields.required "type" Ty.decode
  some (.bool literal type)

def decodeArray : Option NodeKind := do
  let size ← fields.required "size" .uint64
  let type ← fields.required "type" Ty.decode
  let values ← fields.withDefault "values" (.list node) []
  some (.array size type values)

def decodeStructInit : Option NodeKind := do
  let type ← fields.required "type" Ty.decode
  let inits ← fields.required "fields" (.list (FieldInit.decodeWith node))
  some (.structInit type inits)

def decodeCall : Option NodeKind := do
  let type ← fields.required "type" Ty.decode
  let chain ← fields.required "chain" (.list node)
  some (.call type chain)

def decodeCallId : Option NodeKind := do
  let name ← fields.required "name" .string
  let type ← fields.required "type" Ty.decode
  some (.callId name type)

def decodeCallIndex : Option NodeKind := do
  let type ← fields.required "type" Ty.decode
  let index ← fields.required "index" node
  some (.callIndex type index)

def decodeCallFunc : Option NodeKind := do
  let type ← fields.required "type" Ty.decode
  let args ← fields.required "args" (.list node)
  let byReference ← fields.withDefault "args_is_ref" (.list .bool) []
  some (.callFunc type args byReference)

def decodeGetField : Option NodeKind := do
  let name ← fields.required "name" .string
  let type ← fields.required "type" Ty.decode
  some (.getField name type)

def decodeGetPath : Option NodeKind := do
  let name ← fields.required "name" .string
  let type ← fields.required "type" Ty.decode
  some (.getPath name type)

def decodePtrGetField : Option NodeKind := do
  let name ← fields.required "name" .string
  let type ← fields.required "type" Ty.decode
  some (.ptrGetField name type)

def decodeDefine : Option NodeKind := do
  let name ← fields.required "name" .string
  let type ← fields.required "type" Ty.decode
  let init ← fields.required "init" node
  some (.define name type init)

def decodeAssign : Option NodeKind := do
  let op ← fields.required "op" (decodeNamed true AssignOp.names)
  let left ← fields.required "left" node
  let right ← fields.required "right" node
  some (.assign op left right)

def decodeBranch : Option NodeKind := do
  some (.branch (← fields.required "arms" (.list (Arm.decodeWith node))))

def decodeSwitch : Option NodeKind := do
  let condition ← fields.required "condition" node
  let cases ← fields.required "cases" (.list (Case.decodeWith node))
  let otherwise ← fields.optional "default" node
  some (.switch condition cases otherwise)

def decodeLoop : Option NodeKind := do
  let condition ← fields.required "condition" node
  let body ← fields.required "body" node
  let update ← fields.optional "update" node
  some (.loop condition body update)

def decodeRet : Option NodeKind := do
  let value ← fields.optional "value" node
  let byReference ← fields.withDefault "return_ref" .bool false
  some (.ret value byReference)

/-- The fields of the kind called `kind`. -/
def decodeKind (kind : String) : Option NodeKind :=
  match kind with
  | "block" => decodeBlock node fields
  | "unary" => decodeUnary node fields
  | "binary" => decodeBinary node fields
  | "type_convert" => decodeConvert node fields
  | "nil" => decodeNil fields
  | "number" => decodeNumber fields
  | "string" => decodeString fields
  | "char" => decodeChar fields
  | "bool" => decodeBool fields
  | "array" => decodeArray node fields
  | "struct_init" => decodeStructInit node fields
  | "call" => decodeCall node fields
  | "call_id" => decodeCallId fields
  | "call_index" => decodeCallIndex node fields
  | "call_func" => decodeCallFunc node fields
  | "get_field" => decodeGetField fields
  | "get_path" => decodeGetPath fields
  | "ptr_get_field" => decodePtrGetField fields
  | "define" => decodeDefine node fields
  | "assign" => decodeAssign node fields
  | "branch" => decodeBranch node fields
  | "switch" => decodeSwitch node fields
  | "break" => some .breakLoop
  | "continue" => some .continueLoop
  | "loop" => decodeLoop node fields
  | "return" => decodeRet node fields
  | _ => none

/-- The kinds in order, each with the names of its fields in order. -/
def shapes : List (String × List String) :=
  [("block", ["content"]), ("unary", ["op", "type", "value"]),
    ("binary", ["op", "type", "left", "right"]), ("type_convert", ["source", "target"]),
    ("nil", ["type"]), ("number", ["literal", "type"]), ("string", ["literal", "type"]),
    ("char", ["literal", "type"]), ("bool", ["literal", "type"]),
    ("array", ["size", "type", "values"]), ("struct_init", ["type", "fields"]),
    ("call", ["type", "chain"]), ("call_id", ["name", "type"]), ("call_index", ["type", "index"]),
    ("call_func", ["type", "args", "args_is_ref"]), ("get_field", ["name", "type"]),
    ("get_path", ["name", "type"]), ("ptr_get_field", ["name", "type"]),
    ("define", ["name", "type", "init"]), ("assign", ["op", "left", "right"]),
    ("branch", ["arms"]), ("switch", ["condition", "cases", "default"]), ("break", []),
    ("continue", []), ("loop", ["condition", "body", "update"]),
    ("return", ["value", "return_ref"])]

/-- The name of a kind: given as it is, or below another node by its number. -/
def decodeName (below : Bool) : Decoder String
  | _, .str name => some name
  | _, .int (.ofNat index) => if below then shapes[index]?.map Prod.fst else none
  | _, _ => none

/-- The name of a kind and its fields. -/
def decodeShape (below : Bool) : (levels : Nat) → Json → Option (String × Fields)
  | levels + 1, .obj entries => do
    let fields : Fields := ⟨levels, entries⟩
    some (← fields.required "kind" (decodeName below), fields)
  | levels + 1, .arr (kind :: items) => do
    let name ← decodeName below levels kind
    some (name, ← Fields.ofItems? (← shapes.lookup name) levels items)
  | _, _ => none

/-- A kind with its fields, the nodes below it read by `node`. -/
def decodeWith (below : Bool) : Decoder NodeKind := fun levels json => do
  guard (json.fits levels)
  let (name, fields) ← decodeShape below levels json
  decodeKind node fields name

end NodeKind

/-- A node, the nodes below it read by `child`; `below` says that it is below another one. -/
def Node.decodeWith (below : Bool) (child : Decoder Node) : Decoder Node := fun levels json => do
  let (kind, span) ← decodeSpanned (NodeKind.decodeWith child below) levels json
  some (.mk kind span)

/-- A node below another one whose tree is at most `height` nodes high. -/
def Node.decodeBelow : (height : Nat) → Decoder Node
  | 0 => fun _ _ => none
  | height + 1 => Node.decodeWith true (Node.decodeBelow height)

/-- A node.  A node below another lies deeper in the text too, so the levels that are left bound
the height of the tree. -/
def Node.decode : Decoder Node := fun levels json =>
  Node.decodeWith false (Node.decodeBelow levels) levels json

/-! ## Encoding nodes -/

/-- A value with its position. -/
def encodeSpanned (node : Json) (span : Span) : Json :=
  .obj [("node", node), ("span", span.encode)]

mutual

def Node.encode : Node → Json
  | .mk kind span => encodeSpanned kind.encode span

def NodeKind.encode : NodeKind → Json
  | .block content => .obj [("kind", .str "block"), ("content", .arr (encodeNodes content))]
  | .unary op type value =>
    .obj [("kind", .str "unary"), ("op", op.encode), ("type", type.encode),
      ("value", value.encode)]
  | .binary op type left right =>
    .obj [("kind", .str "binary"), ("op", op.encode), ("type", type.encode),
      ("left", left.encode), ("right", right.encode)]
  | .convert source target =>
    .obj [("kind", .str "type_convert"), ("source", source.encode), ("target", target.encode)]
  | .nil type => .obj [("kind", .str "nil"), ("type", type.encode)]
  | .number literal type =>
    .obj [("kind", .str "number"), ("literal", .str literal), ("type", type.encode)]
  | .string literal type =>
    .obj [("kind", .str "string"), ("literal", .str literal), ("type", type.encode)]
  | .char literal type =>
    .obj [("kind", .str "char"), ("literal", .nat literal.toNat), ("type", type.encode)]
  | .bool literal type =>
    .obj [("kind", .str "bool"), ("literal", .bool literal), ("type", type.encode)]
  | .array size type values =>
    .obj [("kind", .str "array"), ("size", .nat size), ("type", type.encode),
      ("values", .arr (encodeNodes values))]
  | .structInit type fields =>
    .obj [("kind", .str "struct_init"), ("type", type.encode),
      ("fields", .arr (encodeFieldInits fields))]
  | .call type chain =>
    .obj [("kind", .str "call"), ("type", type.encode), ("chain", .arr (encodeNodes chain))]
  | .callId name type =>
    .obj [("kind", .str "call_id"), ("name", .str name), ("type", type.encode)]
  | .callIndex type index =>
    .obj [("kind", .str "call_index"), ("type", type.encode), ("index", index.encode)]
  | .callFunc type args byReference =>
    .obj [("kind", .str "call_func"), ("type", type.encode), ("args", .arr (encodeNodes args)),
      ("args_is_ref", .arr (byReference.map .bool))]
  | .getField name type =>
    .obj [("kind", .str "get_field"), ("name", .str name), ("type", type.encode)]
  | .getPath name type =>
    .obj [("kind", .str "get_path"), ("name", .str name), ("type", type.encode)]
  | .ptrGetField name type =>
    .obj [("kind", .str "ptr_get_field"), ("name", .str name), ("type", type.encode)]
  | .define name type init =>
    .obj [("kind", .str "define"), ("name", .str name), ("type", type.encode),
      ("init", init.encode)]
  | .assign op left right =>
    .obj [("kind", .str "assign"), ("op", op.encode), ("left", left.encode),
      ("right", right.encode)]
  | .branch arms => .obj [("kind", .str "branch"), ("arms", .arr (encodeArms arms))]
  | .switch condition cases otherwise =>
    .obj [("kind", .str "switch"), ("condition", condition.encode),
      ("cases", .arr (encodeCases cases)), ("default", encodeOptional otherwise)]
  | .breakLoop => .obj [("kind", .str "break")]
  | .continueLoop => .obj [("kind", .str "continue")]
  | .loop condition body update =>
    .obj [("kind", .str "loop"), ("condition", condition.encode), ("body", body.encode),
      ("update", encodeOptional update)]
  | .ret value byReference =>
    .obj [("kind", .str "return"), ("value", encodeOptional value),
      ("return_ref", .bool byReference)]

def encodeOptional : Option Node → Json
  | some node => node.encode
  | none => .null

def encodeNodes : List Node → List Json
  | [] => []
  | node :: rest => node.encode :: encodeNodes rest

def encodeArms : List Arm → List Json
  | [] => []
  | .mk condition body span :: rest =>
    encodeSpanned (.obj [("condition", encodeOptional condition), ("body", body.encode)]) span ::
      encodeArms rest

def encodeCases : List Case → List Json
  | [] => []
  | .mk value body span :: rest =>
    encodeSpanned (.obj [("value", .int value), ("body", body.encode)]) span :: encodeCases rest

def encodeFieldInits : List FieldInit → List Json
  | [] => []
  | .mk name content type :: rest =>
    .obj [("name", .str name), ("content", content.encode), ("type", type.encode)] ::
      encodeFieldInits rest

end

end Codegen
