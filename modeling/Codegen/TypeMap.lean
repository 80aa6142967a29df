import Codegen.Symbol
import Codegen.Text.Mangle

/-!
# Printed types

How source types are printed in a module.  Built-in types have fixed names, enums are integers,
and structs and tagged unions are printed by their mangled full path.  A type that nothing
declares is printed with `undef.` in front of its path.
-/

namespace Codegen

/-- The printed form of a built-in type. -/
def basicType? (name : String) : Option String :=
  if name ∈ ["i64", "u64"] then some "i64"
  else if name ∈ ["i32", "u32"] then some "i32"
  else if name ∈ ["i16", "u16"] then some "i16"
  else if name ∈ ["i8", "u8"] then some "i8"
  else if name = "f64" then some "double"
  else if name = "f32" then some "float"
  else if name = "void" then some "void"
  else if name = "bool" then some "i1"
  else none

/-- The kind of every declared struct, tagged union and enum, by full path. -/
structure TypeMap where
  kinds : Dict SymbolKind := ∅

namespace TypeMap

/-- The full paths of names of one module, all of one kind. -/
def pathsOf (path : String) (names : List String) (kind : SymbolKind) :
    List (String × SymbolKind) :=
  names.map fun name => (Ty.qualify path name, kind)

/-- The type map of a symbol table.  Of several declarations with one full path the last one
counts, in the order of the modules and inside a module structs, tagged unions, enums. -/
def ofSymbols (table : SymbolTable) : TypeMap :=
  ⟨Dict.ofList <| table.modules.entries.flatMap fun (path, m) =>
    pathsOf path m.structs.keys .struct ++ pathsOf path m.unions.keys .union ++
      pathsOf path m.enums.keys .enum⟩

/-- The printed form of a declared type, without pointer levels. -/
def declaredName (types : TypeMap) (ty : Ty) : String :=
  match types.kinds.get? ty.fullPath with
  | some .struct => "%struct." ++ Text.mangle ty.fullPath
  | some .union => "%tagged_union." ++ Text.mangle ty.fullPath
  | some .enum => "i64"
  | _ => "undef." ++ ty.fullPath

/-- The printed form of a type without its pointer levels. -/
def baseName (types : TypeMap) (ty : Ty) : String :=
  match if ty.path = "" then basicType? ty.name else none with
  | some name => name
  | none => if ty.isEnum then "i64" else types.declaredName ty

/-- Pointer levels of the printed form: those of the type, and one for a reference. -/
def levels (ty : Ty) : Nat := ty.depth.toNat + if ty.isReference then 1 else 0

/-- The base under pointer levels; there is no pointer to `void`. -/
def pointable (base : String) (levels : Nat) : String :=
  if base = "void" && 0 < levels then "i8" else base

/-- The printed form of a type. -/
def map (types : TypeMap) (ty : Ty) : String :=
  pointable (types.baseName ty) (levels ty) ++ Text.stars (levels ty)

/-- The type of the elements of an array. -/
def element (ty : Ty) : Ty := ty.pointee.notArray.notReference

/-- The printed form of an array that is stored in place. -/
def mapArray (types : TypeMap) (ty : Ty) : String :=
  "[" ++ Text.decimal ty.arrayLength ++ " x " ++ types.map (element ty) ++ "]"

/-- The printed form of a field or member, whose arrays are stored in place. -/
def mapStored (types : TypeMap) (ty : Ty) : String :=
  if ty.isArray then types.mapArray ty else types.map ty

end TypeMap

end Codegen
