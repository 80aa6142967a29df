import Codegen.Text.Basic

/-!
# Source types

A type is a primitive or a name declared in a module, instantiated at generic arguments, behind
any number of pointers, and possibly an array or a reference.  Every type has a full path name
such as `std::vec::vec<i64,data::foo*>`, under which definitions and symbols are found.
-/

namespace Codegen

/-- A source type. -/
structure Ty where
  name : String
  /-- Path of the declaring module, empty for primitives. -/
  path : String := ""
  /-- Pointer levels. -/
  depth : Int := 0
  generics : List Ty := []
  /-- Whether an identifier of this type names a global symbol and not a local. -/
  isGlobal : Bool := false
  isEnum : Bool := false
  isArray : Bool := false
  arrayLength : Nat := 0
  /-- A reference, which costs one more pointer level than the type says. -/
  isReference : Bool := false
  deriving Inhabited

namespace Ty

/-- The built-in types. -/
def primitiveNames : List String :=
  ["i64", "i32", "i16", "i8", "u64", "u32", "u16", "u8", "f64", "f32", "bool", "void"]

/-- The signed built-in integers. -/
def signedNames : List String := ["i64", "i32", "i16", "i8"]

/-- The unsigned built-in integers. -/
def unsignedNames : List String := ["u64", "u32", "u16", "u8"]

/-- The built-in floating-point types. -/
def floatNames : List String := ["f64", "f32"]

/-- A built-in type behind `depth` pointers. -/
def primitive (name : String) (depth : Int) : Ty := { name, depth }

/-- The type `name` of the module `path`. -/
def named (name path : String) : Ty := { name, path }

/-- Signed integers of 64 bits. -/
def i64 : Ty := primitive "i64" 0

/-- Signed integers of 32 bits. -/
def i32 : Ty := primitive "i32" 0

/-- Unsigned integers of 64 bits. -/
def u64 : Ty := primitive "u64" 0

/-- Unsigned integers of 8 bits. -/
def u8 : Ty := primitive "u8" 0

/-- Floating-point numbers of 64 bits. -/
def f64 : Ty := primitive "f64" 0

/-- Truth values. -/
def bool : Ty := primitive "bool" 0

/-- The type without values. -/
def void : Ty := primitive "void" 0

/-- The type of string literals. -/
def constStr : Ty := primitive "i8" 1

/-- A name in the module `path`; the empty path adds nothing. -/
def qualify (path name : String) : String :=
  if path = "" then name else path ++ "::" ++ name

/-- A name at generic arguments, which are given by their printed forms. -/
def instantiate (name : String) (arguments : List String) : String :=
  if arguments.isEmpty then name else name ++ "<" ++ Text.join "," arguments ++ ">"

mutual

/-- Full path name with one star for each pointer level. -/
def starredPath : Ty → String
  | { name, path, depth, generics, .. } =>
    qualify path (instantiate name (starredPaths generics)) ++ Text.stars depth.toNat

/-- The starred paths of a list of types. -/
def starredPaths : List Ty → List String
  | [] => []
  | ty :: rest => ty.starredPath :: starredPaths rest

end

/-- The name at its generic arguments, such as `vec<i64>`. -/
def genericName (ty : Ty) : String :=
  instantiate ty.name (starredPaths ty.generics)

/-- The generic name behind the path of its module. -/
def fullPath (ty : Ty) : String :=
  qualify ty.path ty.genericName

/-- The pointer levels are a number of 64 bits, as those of every type are that is read. -/
def DepthInRange (ty : Ty) : Prop :=
  -0x8000_0000_0000_0000 ≤ ty.depth ∧ ty.depth < 0x8000_0000_0000_0000

/-- The type of a pointer to a value of this type.  It is in range unless this type has the largest
number of levels. -/
def pointer (ty : Ty) : Ty := { ty with depth := ty.depth + 1 }

/-- The type of what a pointer of this type points to.  It is in range unless this type has the
smallest number of levels. -/
def pointee (ty : Ty) : Ty := { ty with depth := ty.depth - 1 }

/-- The same type, not as an array. -/
def notArray (ty : Ty) : Ty := { ty with isArray := false }

/-- The same type, not as a reference. -/
def notReference (ty : Ty) : Ty := { ty with isReference := false }

/-- Whether the type has a pointer level. -/
def isPointer (ty : Ty) : Bool := 0 < ty.depth

/-- Whether the type is the built-in one without values. -/
def isVoid (ty : Ty) : Bool := ty.name = "void" && ty.path = "" && ty.depth = 0

/-- Whether a built-in name is meant, behind any number of pointers. -/
def isPrimitive (ty : Ty) : Bool := ty.path = "" && primitiveNames.contains ty.name

/-- Whether the type is an unpointed built-in type with one of the names. -/
def isOneOf (names : List String) (ty : Ty) : Bool :=
  ty.depth = 0 && ty.path = "" && names.contains ty.name

/-- Built-in integers and the values of enums. -/
def isInteger (ty : Ty) : Bool :=
  (ty.depth = 0 && ty.isEnum) || ty.isOneOf (signedNames ++ unsignedNames)

/-- Built-in integers without a sign. -/
def isUnsigned (ty : Ty) : Bool := ty.isOneOf unsignedNames

/-- Built-in floating-point numbers. -/
def isFloat (ty : Ty) : Bool := ty.isOneOf floatNames

/-- Built-in truth values. -/
def isBoolean (ty : Ty) : Bool := ty.isOneOf ["bool"]

/-- Number of bits of a numeric built-in name. -/
def bitsOfName? (name : String) : Option Nat :=
  if name ∈ ["i64", "u64", "f64"] then some 64
  else if name ∈ ["i32", "u32", "f32"] then some 32
  else if name ∈ ["i16", "u16"] then some 16
  else if name ∈ ["i8", "u8"] then some 8
  else if name = "bool" then some 1
  else none

/-- Number of bits of an unpointed integer, float or truth value; an enum has 64. -/
def bitWidth? (ty : Ty) : Option Nat :=
  if ty.depth ≠ 0 then none
  else if ty.isEnum then some 64
  else bitsOfName? ty.name

/-- The type as messages show it. -/
def text (ty : Ty) : String :=
  (if ty.isReference then "ref " else "") ++ ty.starredPath ++
    (if ty.isArray then "[" ++ Text.decimal ty.arrayLength ++ "]" else "")

end Ty

end Codegen
