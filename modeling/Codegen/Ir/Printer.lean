import Codegen.Ir.Cast
import Codegen.Ir.Module
import Codegen.Text.Bytes
import Codegen.Text.Quoted

/-!
# The printed module

The textual form of a module: type declarations, string constants, the helper functions of the
structs, declarations, functions and debug records, each section in the order of its list.  Debug
records and the references to them are printed only on demand.
-/

namespace Codegen.Ir

open Text (quoted decimal signed join line)

/-- The printed name of a block. -/
def labelName (label : Label) : String :=
  if label = entryLabel then "label.entry" else "label." ++ Text.hexadecimal label

/-- The printed target of a jump. -/
def targetName : Option Label → String
  | some label => "%" ++ labelName label
  | none => "%label.pending"

/-- The printed name of a temporary, slot or parameter. -/
def localName (name : String) : String := "%" ++ quoted name

/-- The printed name of a function. -/
def globalName (name : String) : String := "@" ++ quoted name

/-- The printed form of a value; one that is missing is undefined. -/
def Value.text : Value → String
  | .var name => localName name
  | .lit text => text
  | .null _ => "undef"

/-- The instruction of an operation. -/
def BinOp.mnemonic : BinOp → (isInteger isSigned : Bool) → String
  | add, true, _ => "add"
  | add, false, _ => "fadd"
  | sub, true, _ => "sub"
  | sub, false, _ => "fsub"
  | mul, true, _ => "mul"
  | mul, false, _ => "fmul"
  | div, true, true => "sdiv"
  | div, true, false => "udiv"
  | div, false, _ => "fdiv"
  | rem, true, true => "srem"
  | rem, true, false => "urem"
  | rem, false, _ => "frem"
  | and, _, _ => "and"
  | xor, _, _ => "xor"
  | or, _, _ => "or"

/-- The instruction of a comparison. -/
def Comparison.mnemonic : Comparison → (isInteger isSigned : Bool) → String
  | eq, true, _ => "icmp eq"
  | ne, true, _ => "icmp ne"
  | ge, true, true => "icmp sge"
  | ge, true, false => "icmp uge"
  | gt, true, true => "icmp sgt"
  | gt, true, false => "icmp ugt"
  | le, true, true => "icmp sle"
  | le, true, false => "icmp ule"
  | lt, true, true => "icmp slt"
  | lt, true, false => "icmp ult"
  | eq, false, _ => "fcmp ueq"
  | ne, false, _ => "fcmp une"
  | ge, false, _ => "fcmp uge"
  | gt, false, _ => "fcmp ugt"
  | le, false, _ => "fcmp ule"
  | lt, false, _ => "fcmp ult"

/-- A reference to a debug record behind `lead`, when records are printed. -/
def recordText (lead : String) (debug : Bool) : Option Nat → String
  | some index => if debug then lead ++ "!dbg !" ++ decimal index else ""
  | none => ""

/-- A printed type and the pointer to it, as address computations and accesses name them. -/
def typeAndPointer (type : String) : String := quoted type ++ ", " ++ quoted type ++ "* "

/-- The printed type of an array. -/
def arrayType (size : Nat) (type : String) : String :=
  "[" ++ decimal size ++ " x " ++ quoted type ++ "]"

/-- The text of an instruction; `debug` asks for the debug record of a call. -/
def Inst.text (debug : Bool) : Inst → String
  | slotPtr target source type =>
    localName target ++ " = getelementptr " ++ typeAndPointer type ++ localName source ++ ", i32 0"
  | str target index length =>
    target.text ++ " = getelementptr [" ++ decimal length ++ " x i8], [" ++ decimal length ++
      " x i8]* @.str." ++ decimal index ++ ", i64 0, i64 0"
  | zeroInit dest type =>
    "store " ++ quoted type ++ " zeroinitializer, " ++ quoted type ++ "* " ++ dest.text
  | getIndex dest source index type indexType =>
    dest.text ++ " = getelementptr " ++ typeAndPointer type ++ source.text ++ ", " ++
      quoted indexType ++ " " ++ index.text
  | getField dest source structType index =>
    dest.text ++ " = getelementptr inbounds " ++ typeAndPointer structType ++ source.text ++
      ", i32 0, i32 " ++ decimal index
  | call name returnType dest args signature location =>
    (match dest with
      | .var _ => dest.text ++ " = "
      | _ => "") ++
      "call " ++ quoted returnType ++
      (match signature with
        | some signature => " " ++ signature
        | none => "") ++
      " " ++ globalName name ++ "(" ++
      join ", " (args.map fun arg => quoted arg.1 ++ " " ++ arg.2.text) ++ ")" ++
      recordText ", " debug location
  | neg dest source true type => dest.text ++ " = sub " ++ quoted type ++ " 0, " ++ source.text
  | neg dest source false type => dest.text ++ " = fsub " ++ quoted type ++ " 0.0, " ++ source.text
  | bnot dest source type => dest.text ++ " = xor " ++ quoted type ++ " " ++ source.text ++ ", -1"
  | lnot dest source type =>
    dest.text ++ " = xor " ++ quoted type ++ " " ++ source.text ++ ", true"
  | binary op dest left right isInteger isSigned type =>
    dest.text ++ " = " ++ op.mnemonic isInteger isSigned ++ " " ++ quoted type ++ " " ++
      left.text ++ ", " ++ right.text
  | compare kind dest left right isInteger isSigned type =>
    dest.text ++ " = " ++ kind.mnemonic isInteger isSigned ++ " " ++ quoted type ++ " " ++
      left.text ++ ", " ++ right.text
  | store type source dest =>
    "store " ++ quoted type ++ " " ++ source.text ++ ", " ++ quoted type ++ "* " ++ dest.text
  | load type source dest => dest.text ++ " = load " ++ typeAndPointer type ++ source.text
  | cast .copy dest source fromType _ =>
    dest.text ++ " = add " ++ quoted fromType ++ " " ++ source.text ++ ", 0"
  | cast op dest source fromType toType =>
    dest.text ++ " = " ++ op.mnemonic ++ " " ++ quoted fromType ++ " " ++ source.text ++ " to " ++
      quoted toType
  | decay dest source type size =>
    dest.text ++ " = getelementptr " ++ arrayType size type ++ ", " ++ arrayType size type ++
      "* " ++ source.text ++ ", i64 0, i64 0"

/-- The printed form of a terminator. -/
def Terminator.text : Terminator → String
  | goto target => "br label " ++ targetName target
  | branch cond onTrue onFalse =>
    "br i1 " ++ cond.text ++ ", label " ++ targetName onTrue ++ ", label " ++ targetName onFalse
  | switch value type cases otherwise =>
    "switch " ++ quoted type ++ " " ++ value.text ++ ", label " ++ targetName otherwise ++ " [" ++
      Text.concat (cases.map fun case =>
        " " ++ quoted type ++ " " ++ signed case.1 ++ ", label " ++ targetName (some case.2)) ++
      " ]"
  | ret type (some value) => "ret " ++ quoted type ++ " " ++ value.text
  | ret _ none => "ret void"
  | unreachable => "unreachable"

/-- The instructions and the terminator of a block. -/
def Block.body (debug : Bool) (block : Block) : String :=
  Text.concat (block.insts.map fun inst => line ("  " ++ inst.text debug)) ++
    line ("  " ++ block.terminator.text)

/-- The declaration of a stack slot. -/
def Slot.text (slot : Slot) : String :=
  localName slot.name ++ " = alloca " ++ quoted slot.type

namespace Function

/-- The parameters as the head of a function lists them. -/
def paramTexts (f : Function) : List String :=
  f.params.map (fun param => quoted param.2 ++ " " ++ localName param.1) ++
    (if f.isVariadic then ["..."] else [])

/-- The head of a function. -/
def head (debug : Bool) (f : Function) : String :=
  (if f.isDeclaration then "declare " else "define ") ++ quoted f.returnType ++ " " ++
    globalName f.name ++ "(" ++ join ", " f.paramTexts ++ ")" ++
    Text.concat (f.attributes.map (" " ++ ·)) ++ recordText " " debug f.record

/-- The first block, which also declares the stack slots. -/
def firstBlock (debug : Bool) (slots : List Slot) (block : Block) : String :=
  line (labelName block.label ++ ":") ++
    Text.concat (slots.map fun slot => line ("  " ++ slot.text)) ++ block.body debug

/-- A block behind the first one. -/
def laterBlock (debug : Bool) (block : Block) : String :=
  line "" ++ line (labelName block.label ++ ": ; " ++ block.comment) ++ block.body debug

/-- A declaration or definition. -/
def text (debug : Bool) (f : Function) : String :=
  match f.blocks with
  | [] => line (f.head debug)
  | first :: rest =>
    line (f.head debug ++ " \x7b") ++ firstBlock debug f.slots first ++
      Text.concat (rest.map (laterBlock debug)) ++ line "\x7d"

end Function

/-! ## Sections of a module -/

/-- The printed name of a struct type. -/
def structName (name : String) : String := quoted ("%struct." ++ name)

/-- The printed name of a tagged union type. -/
def unionName (name : String) : String := quoted ("%tagged_union." ++ name)

/-- The helper function that gives the size of a struct. -/
def sizeHelper (name : String) : String := name ++ ".__size__"

/-- The helper function that allocates a struct. -/
def allocHelper (name : String) : String := name ++ ".__alloc__"

/-- The parts of a type between braces. -/
def braced (parts : List String) : String :=
  "\x7b " ++ join ", " parts ++ " \x7d"

/-- The declaration of a tagged union: the tag, then its storage. -/
def unionText (decl : TypeDecl) : String :=
  line (unionName decl.name ++ " = type " ++ braced ("i64" :: decl.parts.map quoted))

/-- The declaration of a struct. -/
def structText (decl : TypeDecl) : String :=
  line (structName decl.name ++ " = type " ++
    if decl.parts.isEmpty then "\x7b\x7d" else braced (decl.parts.map quoted))

/-- The constant of a string, with its closing zero byte. -/
def stringText (index : Nat) (text : String) : String :=
  line ("@.str." ++ decimal index ++ " = private unnamed_addr constant [" ++
    decimal (Text.byteLength text + 1) ++ " x i8] c\"" ++ Text.constantBody text ++ "\"")

/-- The function that gives the size of a struct. -/
def sizeHelperText (decl : TypeDecl) : String :=
  let type := structName decl.name
  line ("define i64 " ++ globalName (sizeHelper decl.name) ++ "() alwaysinline \x7b") ++
    line "label.entry:" ++
    line ("  ret i64 ptrtoint (" ++ type ++ "* getelementptr (" ++ type ++ ", " ++ type ++
      "* null, i64 1) to i64)") ++
    line "\x7d"

/-- The function that allocates a struct. -/
def allocHelperText (decl : TypeDecl) : String :=
  let type := structName decl.name
  line ("define " ++ type ++ "* " ++ globalName (allocHelper decl.name) ++
      "() alwaysinline \x7b") ++
    line "label.entry:" ++
    line ("  %0 = call i64 " ++ globalName (sizeHelper decl.name) ++ "()") ++
    line "  %1 = call i8* @malloc(i64 %0)" ++
    line ("  %2 = bitcast i8* %1 to " ++ type ++ "*") ++
    line ("  ret " ++ type ++ "* %2") ++
    line "\x7d"

/-- String constants numbered from `index` on. -/
def stringTexts : (index : Nat) → List String → List String
  | _, [] => []
  | index, text :: rest => stringText index text :: stringTexts (index + 1) rest

/-- A section: its parts, and a blank line when there is one at least. -/
def sectionText (parts : List String) : String :=
  if parts.isEmpty then "" else Text.concat parts ++ line ""

namespace Module

/-- The head of a module; an empty triple is left out. -/
def header (m : Module) : String :=
  line "; ModuleID = 'colgm'" ++
    (if m.targetTriple = "" then ""
      else line ("target triple = \"" ++ m.targetTriple ++ "\"")) ++
    line ""

/-- The declarations, with the allocator that the helpers of structs call. -/
def declTexts (m : Module) (debug : Bool) : List String :=
  (if !m.structs.isEmpty && !m.declares "malloc" then [line "declare i8* @malloc(i64)"] else []) ++
    m.decls.map (Function.text debug)

/-- Named entries, then records. -/
def debugText (info : DebugInfo) : String :=
  Text.concat (info.named.map fun named => line named.text) ++
    (if !info.named.isEmpty && !info.records.isEmpty then line "" else "") ++
    Text.concat (info.records.map fun record => line record.text)

/-- The text of a module; `debug` asks for debug records and the references to them. -/
def text (m : Module) (debug : Bool) : String :=
  m.header ++ sectionText (m.unions.map unionText ++ m.structs.map structText) ++
    sectionText (stringTexts 0 m.strings) ++
    sectionText (m.structs.map sizeHelperText ++ m.structs.map allocHelperText) ++
    sectionText (m.declTexts debug) ++
    Text.concat (m.impls.map fun f => f.text debug ++ line "") ++
    (if debug then debugText m.debugInfo else "")

end Module

end Codegen.Ir
