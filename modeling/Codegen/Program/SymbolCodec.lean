import Codegen.Json.Decoder
import Codegen.Span
import Codegen.Symbol

/-!
# Types and symbols in JSON

For every type of the symbol table a decoder and an encoder.  Encoders write every field; decoders
take missing fields at their defaults.
-/

namespace Codegen

open Json

/-! ## Spans -/

def Span.decode : Decoder Span := fun levels json => do
  let fields ← Fields.of? ["start", "end", "line", "column"] levels json
  let start ← fields.required "start" .uint64
  let stop ← fields.required "end" .uint64
  let line ← fields.withDefault "line" .uint64 0
  let column ← fields.withDefault "column" .uint64 0
  some { start, stop, line, column }

def Span.encode (span : Span) : Json :=
  .obj [("start", .nat span.start), ("end", .nat span.stop), ("line", .nat span.line),
    ("column", .nat span.column)]

/-! ## Types -/

namespace Ty

/-- A type whose generic arguments are read by `argument`. -/
def decodeWith (argument : Decoder Ty) : Decoder Ty := fun levels json => do
  let fields ← Fields.of?
    ["name", "module", "pointer_depth", "generics", "is_global", "is_enum", "is_array",
      "array_length", "is_reference"]
    levels json
  let name ← fields.required "name" .string
  let path ← fields.withDefault "module" .string ""
  let depth ← fields.withDefault "pointer_depth" .int64 0
  let generics ← fields.withDefault "generics" (.list argument) []
  let isGlobal ← fields.withDefault "is_global" .bool false
  let isEnum ← fields.withDefault "is_enum" .bool false
  let isArray ← fields.withDefault "is_array" .bool false
  let arrayLength ← fields.withDefault "array_length" .uint64 0
  let isReference ← fields.withDefault "is_reference" .bool false
  some { name, path, depth, generics, isGlobal, isEnum, isArray, arrayLength, isReference }

/-- A type whose generic arguments nest at most `height` deep. -/
def decodeWithin : (height : Nat) → Decoder Ty
  | 0 => fun _ _ => none
  | height + 1 => decodeWith (decodeWithin height)

/-- A type.  Each level of generic arguments is a level of the text too, so the levels that are
left bound both. -/
def decode : Decoder Ty := fun levels json => decodeWithin levels levels json

mutual

def encode : Ty → Json
  | { name, path, depth, generics, isGlobal, isEnum, isArray, arrayLength, isReference } =>
    .obj [("name", .str name), ("module", .str path), ("pointer_depth", .int depth),
      ("generics", .arr (encodeAll generics)), ("is_global", .bool isGlobal),
      ("is_enum", .bool isEnum), ("is_array", .bool isArray),
      ("array_length", .nat arrayLength), ("is_reference", .bool isReference)]

def encodeAll : List Ty → List Json
  | [] => []
  | ty :: rest => ty.encode :: encodeAll rest

end

end Ty

/-! ## Symbols -/

/-- A dictionary as an object. -/
def Dict.encode {α : Type} (value : α → Json) (d : Dict α) : Json :=
  .obj (d.entries.map fun entry => (entry.1, value entry.2))

/-- A set of names as an array. -/
def NameSet.encode (names : NameSet) : Json := .texts (Dict.keys names)

def FieldSymbol.decode : Decoder FieldSymbol := fun levels json => do
  let fields ← Fields.of? ["name", "type"] levels json
  let name ← fields.required "name" .string
  let type ← fields.required "type" Ty.decode
  some { name, type }

def FieldSymbol.encode (field : FieldSymbol) : Json :=
  .obj [("name", .str field.name), ("type", field.type.encode)]

def StructSymbol.decode : Decoder StructSymbol := fun levels json => do
  let fields ← Fields.of? ["name", "fields", "methods", "line"] levels json
  let name ← fields.required "name" .string
  let members ← fields.withDefault "fields" (.list FieldSymbol.decode) []
  let methods ← fields.withDefault "methods" .nameSet ∅
  let line ← fields.withDefault "line" .uint64 0
  some { name, fields := members, methods, line }

def StructSymbol.encode (s : StructSymbol) : Json :=
  .obj [("name", .str s.name), ("fields", .arr (s.fields.map FieldSymbol.encode)),
    ("methods", NameSet.encode s.methods), ("line", .nat s.line)]

def UnionMember.decode : Decoder UnionMember := fun levels json => do
  let fields ← Fields.of? ["name", "type", "tag"] levels json
  let name ← fields.required "name" .string
  let type ← fields.required "type" Ty.decode
  let tag ← fields.required "tag" .int64
  some { name, type, tag }

def UnionMember.encode (member : UnionMember) : Json :=
  .obj [("name", .str member.name), ("type", member.type.encode), ("tag", .int member.tag)]

def UnionSymbol.decode : Decoder UnionSymbol := fun levels json => do
  let fields ← Fields.of? ["name", "members", "methods", "line"] levels json
  let name ← fields.required "name" .string
  let members ← fields.withDefault "members" (.list UnionMember.decode) []
  let methods ← fields.withDefault "methods" .nameSet ∅
  let line ← fields.withDefault "line" .uint64 0
  some { name, members, methods, line }

def UnionSymbol.encode (u : UnionSymbol) : Json :=
  .obj [("name", .str u.name), ("members", .arr (u.members.map UnionMember.encode)),
    ("methods", NameSet.encode u.methods), ("line", .nat u.line)]

def EnumSymbol.decode : Decoder EnumSymbol := fun levels json => do
  let fields ← Fields.of? ["name", "members", "line"] levels json
  let name ← fields.required "name" .string
  let members ← fields.withDefault "members" (.list (.pair .string .int64)) []
  let line ← fields.withDefault "line" .uint64 0
  some { name, members, line }

def EnumSymbol.encode (e : EnumSymbol) : Json :=
  .obj [("name", .str e.name),
    ("members", .arr (e.members.map fun member => .arr [.str member.1, .int member.2])),
    ("line", .nat e.line)]

def FunctionSymbol.decode : Decoder FunctionSymbol := fun levels json => do
  let fields ← Fields.of? ["name", "is_extern"] levels json
  let name ← fields.required "name" .string
  let isExternal ← fields.withDefault "is_extern" .bool false
  some { name, isExternal }

def FunctionSymbol.encode (f : FunctionSymbol) : Json :=
  .obj [("name", .str f.name), ("is_extern", .bool f.isExternal)]

def PrimitiveSymbol.decode : Decoder PrimitiveSymbol := fun levels json => do
  let fields ← Fields.of? ["name", "methods"] levels json
  let name ← fields.required "name" .string
  let methods ← fields.withDefault "methods" .nameSet ∅
  some { name, methods }

def PrimitiveSymbol.encode (p : PrimitiveSymbol) : Json :=
  .obj [("name", .str p.name), ("methods", NameSet.encode p.methods)]

def ModuleSymbols.decode : Decoder ModuleSymbols := fun levels json => do
  let fields ← Fields.of? ["file", "structs", "tagged_unions", "enums", "functions"] levels json
  let file ← fields.withDefault "file" .string ""
  let structs ← fields.withDefault "structs" (.dict StructSymbol.decode) ∅
  let unions ← fields.withDefault "tagged_unions" (.dict UnionSymbol.decode) ∅
  let enums ← fields.withDefault "enums" (.dict EnumSymbol.decode) ∅
  let functions ← fields.withDefault "functions" (.dict FunctionSymbol.decode) ∅
  some { file, structs, unions, enums, functions }

def ModuleSymbols.encode (m : ModuleSymbols) : Json :=
  .obj [("file", .str m.file), ("structs", m.structs.encode StructSymbol.encode),
    ("tagged_unions", m.unions.encode UnionSymbol.encode),
    ("enums", m.enums.encode EnumSymbol.encode),
    ("functions", m.functions.encode FunctionSymbol.encode)]

def SymbolTable.decode : Decoder SymbolTable := fun levels json => do
  let fields ← Fields.of? ["input_file", "primitives", "modules"] levels json
  let inputFile ← fields.withDefault "input_file" .string ""
  let primitives ← fields.withDefault "primitives" (.dict PrimitiveSymbol.decode) ∅
  let modules ← fields.withDefault "modules" (.dict ModuleSymbols.decode) ∅
  some { inputFile, primitives, modules }

def SymbolTable.encode (table : SymbolTable) : Json :=
  .obj [("input_file", .str table.inputFile),
    ("primitives", table.primitives.encode PrimitiveSymbol.encode),
    ("modules", table.modules.encode ModuleSymbols.encode)]

end Codegen
