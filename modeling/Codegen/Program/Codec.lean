import Codegen.Json.Reader
import Codegen.Json.Writer
import Codegen.Program.NodeCodec

/-!
# Programs in JSON

`Program.parse?` reads a program from its text and `Program.text` writes it with every field.
-/

namespace Codegen

open Json

/-- Struct definitions and tagged union definitions differ in the name of their parts. -/
def Aggregate.decode (partsName : String) : Decoder Aggregate := fun levels json => do
  let fields ← Fields.of? ["name", "module", "file", "span", partsName] levels json
  let name ← fields.required "name" .string
  let path ← fields.withDefault "module" .string ""
  let file ← fields.withDefault "file" .string ""
  let span ← fields.withDefault "span" Span.decode {}
  let parts ← fields.withDefault partsName (.list Ty.decode) []
  some { name, path, file, span, parts }

def Aggregate.encode (partsName : String) (a : Aggregate) : Json :=
  .obj [("name", .str a.name), ("module", .str a.path), ("file", .str a.file),
    ("span", a.span.encode), (partsName, .arr (Ty.encodeAll a.parts))]

def Func.decode : Decoder Func := fun levels json => do
  let fields ← Fields.of?
    ["name", "file", "span", "params", "return_type", "attributes", "with_va_args", "block"]
    levels json
  let name ← fields.required "name" .string
  let file ← fields.withDefault "file" .string ""
  let span ← fields.withDefault "span" Span.decode {}
  let params ← fields.withDefault "params" (.list (.pair .string Ty.decode)) []
  let returnType ← fields.required "return_type" Ty.decode
  let attributes ← fields.withDefault "attributes" (.list .string) []
  let isVariadic ← fields.withDefault "with_va_args" .bool false
  let body ← fields.optional "block" Node.decode
  some { name, file, span, params, returnType, attributes, isVariadic, body }

def Func.encode (f : Func) : Json :=
  .obj [("name", .str f.name), ("file", .str f.file), ("span", f.span.encode),
    ("params", .arr (f.params.map fun param => .arr [.str param.1, param.2.encode])),
    ("return_type", f.returnType.encode), ("attributes", .texts f.attributes),
    ("with_va_args", .bool f.isVariadic), ("block", encodeOptional f.body)]

def Context.decode : Decoder Context := fun levels json => do
  let fields ← Fields.of? ["structs", "tagged_unions", "decls", "impls"] levels json
  let structs ← fields.withDefault "structs" (.list (Aggregate.decode "field_types")) []
  let unions ← fields.withDefault "tagged_unions" (.list (Aggregate.decode "member_types")) []
  let decls ← fields.withDefault "decls" (.list Func.decode) []
  let impls ← fields.withDefault "impls" (.list Func.decode) []
  some { structs, unions, decls, impls }

def Context.encode (context : Context) : Json :=
  .obj [("structs", .arr (context.structs.map (Aggregate.encode "field_types"))),
    ("tagged_unions", .arr (context.unions.map (Aggregate.encode "member_types"))),
    ("decls", .arr (context.decls.map Func.encode)),
    ("impls", .arr (context.impls.map Func.encode))]

namespace Program

def decode : Decoder Program := fun levels json => do
  let fields ← Fields.of? ["symbols", "context"] levels json
  let symbols ← fields.withDefault "symbols" SymbolTable.decode {}
  let context ← fields.required "context" Context.decode
  some { symbols, context }

def encode (program : Program) : Json :=
  .obj [("symbols", program.symbols.encode), ("context", program.context.encode)]

/-- How deep the arrays and objects of a program may nest. -/
def maxLevels : Nat := 127

/-- The program that a JSON value stands for. -/
def ofJson? (json : Json) : Option Program := decode maxLevels json

/-- The program of a text. -/
def parse? (text : String) : Option Program := do
  let json ← Json.read? text
  ofJson? json

/-- The text of a program. -/
def text (program : Program) : String := program.encode.text

end Program

end Codegen
