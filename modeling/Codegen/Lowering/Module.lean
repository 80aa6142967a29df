import Codegen.Ir.Pass
import Codegen.Ir.Printer
import Codegen.Lowering.Function
import Codegen.Lowering.Records

/-!
# Programs into modules

`lowerProgram` turns a program into a module: the debug records that every module has, the declared
types, the functions, and the passes over the whole module.  It gives either a module or every
error it has found.
-/

namespace Codegen.Lowering

/-- The parameter list in the type of a function that takes further arguments. -/
def variadicSignature (types : TypeMap) (f : Func) : String :=
  "(" ++ Text.join ", " (f.params.map (fun param => types.map param.2) ++ ["..."]) ++ ")"

/-- The parameter lists of all functions that take further arguments, by name. -/
def variadicSignatures (types : TypeMap) (context : Context) : Dict String :=
  Dict.ofList (((context.decls ++ context.impls).filter Func.isVariadic).map fun f =>
    (f.name, variadicSignature types f))

/-- The parts that a tagged union declares behind its tag: its most aligned member, and bytes up to
the size of its storage. -/
def unionParts (types : TypeMap) (layout : UnionLayout) : List String :=
  match layout.widest with
  | none => []
  | some widest =>
    types.mapStored widest ::
      if layout.widestSize < layout.storage then
        ["[" ++ Text.decimal (layout.storage - layout.widestSize) ++ " x i8]"]
      else []

/-- The declaration of a tagged union, if it has a layout. -/
def unionDecl? (types : TypeMap) (layouts : LayoutTable) (a : Aggregate) : Option Ir.TypeDecl :=
  (layouts.union? a.type).map fun layout =>
    { name := Text.mangle a.fullPath, parts := unionParts types layout,
      size := layout.layout.size, align := layout.layout.align }

/-- The error about a tagged union without a layout. -/
def unionError? (layouts : LayoutTable) (a : Aggregate) : Option Error :=
  match layouts.union? a.type with
  | some _ => none
  | none => some ((Fault.noLayout a.fullPath).toError a.span a.file)

/-- The declaration of a struct. -/
def structDecl (types : TypeMap) (layouts : LayoutTable) (a : Aggregate) : Ir.TypeDecl :=
  let layout := (layouts.struct? a.type).getD ⟨1, 1⟩
  { name := Text.mangle a.fullPath, parts := a.parts.map types.mapStored, size := layout.size,
    align := layout.align }

/-- Functions of a module, walked in order; `env` gives what a function looks up. -/
def lowerFunctions (env : Func → Env) : List Func → Ir.Module → Ir.Module × List Error
  | [], m => (m, [])
  | f :: rest, m =>
    let lowered := lowerFunction (env f) f m.strings m.debugInfo
    let m := { m with
      impls := m.impls ++ [lowered.function], strings := lowered.strings,
      debugInfo := lowered.debugInfo }
    let (m, errors) := lowerFunctions env rest m
    (m, lowered.errors ++ errors)

/-- The environment of the function `f` of a program; `records` are the debug records of the
implemented functions. -/
def environment (context : Context) (symbols : SymbolTable) (types : TypeMap)
    (layouts : LayoutTable) (records : Dict Nat) (f : Func) : Env where
  symbols := symbols
  types := types
  layouts := layouts
  variadic := variadicSignatures types context
  record := records.get? f.name

/-- The module of a program before the passes, with what is wrong with its tagged unions and its
functions. -/
def buildModule (context : Context) (symbols : SymbolTable) (config : Config) :
    Ir.Module × List Error :=
  let (records, debugInfo) := (recordModule context symbols config).run {}
  let types := TypeMap.ofSymbols symbols
  let layouts := LayoutTable.compute context symbols
  let (m, errors) := lowerFunctions (environment context symbols types layouts records)
    context.impls
    { targetTriple := config.triple
      unions := context.unions.filterMap (unionDecl? types layouts)
      structs := context.structs.map (structDecl types layouts)
      decls := context.decls.map (declaration types)
      debugInfo }
  (m, context.unions.filterMap (unionError? layouts) ++ errors)

/-- The error about a broken rule of control flow. -/
def flowError (error : Ir.FlowError) : Error := .internal error.message {} ""

/-- A program as a module, or everything that is wrong with it.  The passes run only over a module
without errors; the check of its functions runs on demand and over every module. -/
def lowerProgram (context : Context) (symbols : SymbolTable) (config : Config) :
    Except Error Ir.Module :=
  let (m, errors) := buildModule context symbols config
  let (m, errors) := if errors.isEmpty then Ir.Pass.runAll Ir.Pass.standard m else (m, errors)
  let errors := errors ++ if config.verify then m.verify.map flowError else []
  if errors.isEmpty then .ok m else .error (.lowering errors)

/-- The printed module of a program. -/
def emitText (program : Program) (config : Config) : Except Error String := do
  let m ← lowerProgram program.context program.symbols config
  pure (m.text config.debugInfo)

end Codegen.Lowering
