import Codegen.Config
import Codegen.Ir.Record
import Codegen.Program
import Codegen.Text.Mangle

/-!
# Debug records of a module

The records that do not depend on the bodies of functions, in the order of their numbers: who made
the module, module flags, one file record for every source file, the compile unit, the built-in
types, enums and structs, and one record for every implemented function.  The records of calls
follow while bodies are walked.
-/

namespace Codegen.Lowering

open Ir (DebugInfo Entry Item)

/-- A step that adds records. -/
abbrev Recording := StateM DebugInfo

/-- Takes a number. -/
def reserve : Recording Nat := do
  let info ← get
  set info.reserve
  pure info.next

/-- Adds a record and gives its number. -/
def record (entry : Entry) : Recording Nat := do
  let info ← get
  set (info.add entry)
  pure info.next

/-- Adds a record under a number taken before. -/
def recordAt (index : Nat) (entry : Entry) : Recording Unit :=
  modify fun info => info.push index entry

/-- Adds a named entry. -/
def recordNamed (name : String) (refs : List Nat) : Recording Unit :=
  modify fun info => info.addNamed name refs

/-- Adds records and gives their numbers. -/
def recordAll : List Entry → Recording (List Nat)
  | [] => pure []
  | entry :: rest => do
    let index ← record entry
    let indices ← recordAll rest
    pure (index :: indices)

/-- The built-in types with their sizes in bits and their encodings. -/
def basicTypes : List (String × Nat × String) :=
  [("i8", 8, "DW_ATE_signed"), ("i16", 16, "DW_ATE_signed"), ("i32", 32, "DW_ATE_signed"),
    ("i64", 64, "DW_ATE_signed"), ("u8", 8, "DW_ATE_unsigned"), ("u16", 16, "DW_ATE_unsigned"),
    ("u32", 32, "DW_ATE_unsigned"), ("u64", 64, "DW_ATE_unsigned"), ("f32", 32, "DW_ATE_float"),
    ("f64", 64, "DW_ATE_float"), ("bool", 1, "DW_ATE_boolean")]

/-- A module flag: what to do when modules disagree, its name and its value. -/
def flag (behavior : Int) (name : String) (value : Int) : Entry :=
  .list [.i32 behavior, .str name, .i32 value]

/-- The flags of a module; targets of one vendor get one more. -/
def moduleFlags (triple : String) : List Entry :=
  [flag 7 "Dwarf Version" 4, flag 2 "Debug Info Version" 3, flag 1 "wchar_size" 4] ++
    (if Text.occurs "apple".toList triple.toList then [flag 8 "PIC Level" 2] else []) ++
    [flag 7 "uwtable" 1, flag 7 "frame-pointer" 1]

/-- The source files of a program in order, the empty name for generated code first. -/
def sourceFiles (context : Context) (symbols : SymbolTable) : List String :=
  "" :: ((NameSet.ofList <| symbols.inputFile :: symbols.modules.values.map ModuleSymbols.file ++
    context.structs.map Aggregate.file ++ context.unions.map Aggregate.file ++
    context.impls.map Func.file).erase "").keys

/-- The numbers of file records by file name. -/
abbrev FileIndex := Dict Nat

/-- The record of a file; an unknown file has the record of the empty name. -/
def FileIndex.find (files : FileIndex) (name : String) : Nat :=
  ((Dict.get? files name).or (Dict.get? files "")).getD 0

/-- One record for every source file. -/
def recordFiles (names : List String) (directory : String) : Recording FileIndex := do
  let indices ← recordAll (names.map fun name => .file name directory)
  pure (Dict.ofList (names.zip indices))

/-- The list of the members of an enum; an enum without members has none. -/
def recordMembers (members : List (String × Int)) : Recording (Option Nat) := do
  if members.isEmpty then
    pure none
  else
    let refs ← recordAll (members.map fun member => .enumerator member.1 member.2)
    let list ← record (.list (refs.map .ref))
    pure (some list)

/-- An enum, whose number comes before those of its members. -/
def recordEnum (path : String) (file baseType : Nat) (symbol : EnumSymbol) : Recording Unit := do
  let index ← reserve
  let elements ← recordMembers symbol.members
  recordAt index (.enumType symbol.name (Text.mangle (Ty.named symbol.name path).fullPath) file
    symbol.line baseType elements)

/-- The enums of one module. -/
def recordEnums (path : String) (file baseType : Nat) : List EnumSymbol → Recording Unit
  | [] => pure ()
  | symbol :: rest => do
    recordEnum path file baseType symbol
    recordEnums path file baseType rest

/-- The enums of all modules. -/
def recordModules (files : FileIndex) (baseType : Nat) :
    List (String × ModuleSymbols) → Recording Unit
  | [] => pure ()
  | (path, m) :: rest => do
    recordEnums path (files.find m.file) baseType m.enums.values
    recordModules files baseType rest

/-- The record of a struct. -/
def structEntry (files : FileIndex) (a : Aggregate) : Entry :=
  .structureType a.name ("struct." ++ Text.mangle a.fullPath) (files.find a.file) a.span.line

/-- The records of the implemented functions; gives their numbers by name. -/
def recordFunctions (files : FileIndex) (unit : Nat) : List Func → Recording (List (String × Nat))
  | [] => pure []
  | f :: rest => do
    let types ← record (.list [.null])
    let typeIndex ← record (.subroutineType types)
    let index ← record (.subprogram f.name (files.find f.file) f.span.line typeIndex unit)
    let others ← recordFunctions files unit rest
    pure ((f.name, index) :: others)

/-- All records of a module that do not depend on bodies; gives the records of the implemented
functions, the last one of several with one name. -/
def recordModule (context : Context) (symbols : SymbolTable) (config : Config) :
    Recording (Dict Nat) := do
  let ident ← record (.list [.str config.producer])
  recordNamed "llvm.ident" [ident]
  let flags ← recordAll (moduleFlags config.triple)
  recordNamed "llvm.module.flags" flags
  let files ← recordFiles (sourceFiles context symbols) config.directory
  let unit ← record (.compileUnit config.producer (files.find symbols.inputFile))
  recordNamed "llvm.dbg.cu" [unit]
  let basics ← recordAll (basicTypes.map fun (name, size, encoding) =>
    .basicType name size encoding)
  let baseType := (((basicTypes.map Prod.fst).zip basics).lookup "i64").getD 0
  recordModules files baseType symbols.modules.entries
  let _ ← recordAll (context.structs.map (structEntry files))
  let functions ← recordFunctions files unit context.impls
  pure (Dict.ofList functions)

end Codegen.Lowering
