import Codegen.Dict
import Codegen.Ty

/-!
# Symbols

The symbol table says, module by module, which structs, tagged unions, enums and functions exist.
Instances of generic declarations are stored under their generic name, so a type is looked up by
its module path and its generic name.
-/

namespace Codegen

/-- A field of a struct. -/
structure FieldSymbol where
  name : String
  type : Ty
  deriving Inhabited

/-- A struct: its fields in declaration order and the names of its methods. -/
structure StructSymbol where
  name : String
  fields : List FieldSymbol := []
  methods : NameSet := ∅
  line : Nat := 0
  deriving Inhabited

namespace StructSymbol

/-- Declared position of a field. -/
def fieldIndex? (s : StructSymbol) (name : String) : Option Nat :=
  s.fields.findIdx? fun field => field.name = name

/-- The field called `name`. -/
def field? (s : StructSymbol) (name : String) : Option FieldSymbol :=
  s.fields.find? fun field => field.name = name

end StructSymbol

/-- A member of a tagged union with the tag that selects it. -/
structure UnionMember where
  name : String
  type : Ty
  tag : Int
  deriving Inhabited

/-- A tagged union: its members in declaration order and the names of its methods. -/
structure UnionSymbol where
  name : String
  members : List UnionMember := []
  methods : NameSet := ∅
  line : Nat := 0
  deriving Inhabited

/-- The member called `name`. -/
def UnionSymbol.member? (u : UnionSymbol) (name : String) : Option UnionMember :=
  u.members.find? fun member => member.name = name

/-- An enum: its members with their values, in declaration order. -/
structure EnumSymbol where
  name : String
  members : List (String × Int) := []
  line : Nat := 0
  deriving Inhabited

/-- The value of the member called `name`. -/
def EnumSymbol.value? (e : EnumSymbol) (name : String) : Option Int :=
  (e.members.find? fun member => member.1 = name).map Prod.snd

/-- A function; an external one keeps its plain name as its symbol. -/
structure FunctionSymbol where
  name : String
  isExternal : Bool := false
  deriving Inhabited

/-- A built-in type with the names of its methods. -/
structure PrimitiveSymbol where
  name : String
  methods : NameSet := ∅
  deriving Inhabited

/-- The symbols of one module. -/
structure ModuleSymbols where
  file : String := ""
  structs : Dict StructSymbol := ∅
  unions : Dict UnionSymbol := ∅
  enums : Dict EnumSymbol := ∅
  functions : Dict FunctionSymbol := ∅
  deriving Inhabited

/-- All symbols, by module path. -/
structure SymbolTable where
  inputFile : String := ""
  primitives : Dict PrimitiveSymbol := ∅
  modules : Dict ModuleSymbols := ∅
  deriving Inhabited

/-- What a global name stands for. -/
inductive SymbolKind where
  | basic
  | enum
  | struct
  | union
  | function
  /-- No symbol has the name. -/
  | unknown
  deriving DecidableEq, Inhabited

namespace SymbolTable

/-- The table with the module `path` replaced by its image; a missing module starts empty. -/
def updateModule (table : SymbolTable) (path : String) (f : ModuleSymbols → ModuleSymbols) :
    SymbolTable :=
  { table with modules := table.modules.insert path (f ((table.modules.get? path).getD {})) }

/-- The table with one more struct; an equal name is replaced. -/
def addStruct (table : SymbolTable) (path : String) (symbol : StructSymbol) : SymbolTable :=
  table.updateModule path fun m => { m with structs := m.structs.insert symbol.name symbol }

/-- The table with one more tagged union; an equal name is replaced. -/
def addUnion (table : SymbolTable) (path : String) (symbol : UnionSymbol) : SymbolTable :=
  table.updateModule path fun m => { m with unions := m.unions.insert symbol.name symbol }

/-- The table with one more enum; an equal name is replaced. -/
def addEnum (table : SymbolTable) (path : String) (symbol : EnumSymbol) : SymbolTable :=
  table.updateModule path fun m => { m with enums := m.enums.insert symbol.name symbol }

/-- The table with one more function; an equal name is replaced. -/
def addFunction (table : SymbolTable) (path : String) (symbol : FunctionSymbol) : SymbolTable :=
  table.updateModule path fun m => { m with functions := m.functions.insert symbol.name symbol }

/-- The table with the file of a module. -/
def setFile (table : SymbolTable) (path file : String) : SymbolTable :=
  table.updateModule path fun m => { m with file }

/-- The built-in type with the name, if the table lists it. -/
def findPrimitive (table : SymbolTable) (name : String) : Option PrimitiveSymbol :=
  table.primitives.get? name

/-- The struct behind a type, found in its module by its generic name. -/
def findStruct (table : SymbolTable) (ty : Ty) : Option StructSymbol :=
  (table.modules.get? ty.path).bind fun m => m.structs.get? ty.genericName

/-- The tagged union behind a type. -/
def findUnion (table : SymbolTable) (ty : Ty) : Option UnionSymbol :=
  (table.modules.get? ty.path).bind fun m => m.unions.get? ty.genericName

/-- The enum behind a type. -/
def findEnum (table : SymbolTable) (ty : Ty) : Option EnumSymbol :=
  (table.modules.get? ty.path).bind fun m => m.enums.get? ty.genericName

/-- The function whose name a type carries. -/
def findFunction (table : SymbolTable) (ty : Ty) : Option FunctionSymbol :=
  (table.modules.get? ty.path).bind fun m => m.functions.get? ty.genericName

/-- Whether the type names a built-in: one every program has, or one the table lists. -/
def isBasic (table : SymbolTable) (ty : Ty) : Bool :=
  ty.path = "" && (Ty.primitiveNames.contains ty.name || table.primitives.contains ty.name)

/-- What the global name behind a type stands for.  Of several symbols with one name, a struct
comes before a tagged union, that before an enum, and that before a function. -/
def kindOf (table : SymbolTable) (ty : Ty) : SymbolKind :=
  if table.isBasic ty then .basic
  else if (table.findStruct ty).isSome then .struct
  else if (table.findUnion ty).isSome then .union
  else if (table.findEnum ty).isSome then .enum
  else if (table.findFunction ty).isSome then .function
  else .unknown

/-- Source file of a module, empty when the module is not known. -/
def moduleFile (table : SymbolTable) (path : String) : String :=
  ((table.modules.get? path).map ModuleSymbols.file).getD ""

end SymbolTable

end Codegen
