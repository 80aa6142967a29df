import Codegen.Text.Basic

/-!
# Debug records

Records are numbered in the order in which their numbers are taken and printed behind the
functions of a module.  Named entries list records by number.
-/

namespace Codegen.Ir

/-- An item of a list record. -/
inductive Item where
  | ref (index : Nat)
  | i32 (value : Int)
  | str (text : String)
  | null
  deriving DecidableEq, Inhabited

/-- What a record says; every number is the number of another record, except for lines, columns,
sizes and values. -/
inductive Entry where
  | list (items : List Item)
  | file (filename directory : String)
  | compileUnit (producer : String) (file : Nat)
  | basicType (name : String) (sizeInBits : Nat) (encoding : String)
  | enumType (name identifier : String) (file line baseType : Nat) (elements : Option Nat)
  | enumerator (name : String) (value : Int)
  | structureType (name identifier : String) (file line : Nat)
  | subprogram (name : String) (file line typeIndex unit : Nat)
  | subroutineType (types : Nat)
  | location (line column scope : Nat)
  deriving DecidableEq, Inhabited

/-- A numbered record. -/
structure Record where
  index : Nat
  entry : Entry
  deriving DecidableEq, Inhabited

/-- A named list of records. -/
structure NamedRecord where
  name : String
  refs : List Nat
  deriving DecidableEq, Inhabited

/-- The records of a module; `next` is the first number that is not taken. -/
structure DebugInfo where
  named : List NamedRecord := []
  records : List Record := []
  next : Nat := 0
  deriving DecidableEq, Inhabited

namespace DebugInfo

/-- The records with one more number taken. -/
def reserve (info : DebugInfo) : DebugInfo := { info with next := info.next + 1 }

/-- The records with one more record, under a number taken before. -/
def push (info : DebugInfo) (index : Nat) (entry : Entry) : DebugInfo :=
  { info with records := info.records ++ [⟨index, entry⟩] }

/-- The records with one more record, under the next number. -/
def add (info : DebugInfo) (entry : Entry) : DebugInfo :=
  info.reserve.push info.next entry

/-- The records with one more named entry. -/
def addNamed (info : DebugInfo) (name : String) (refs : List Nat) : DebugInfo :=
  { info with named := info.named ++ [⟨name, refs⟩] }

/-- Whether nothing has been recorded. -/
def isEmpty (info : DebugInfo) : Bool := info.named.isEmpty && info.records.isEmpty

/-- The first record with the number. -/
def find? (info : DebugInfo) (index : Nat) : Option Record :=
  info.records.find? fun record => record.index = index

end DebugInfo

/-! ## Printed form -/

/-- A reference to a record. -/
def refText (index : Nat) : String := "!" ++ Text.decimal index

/-- A text between double quotes, as it is. -/
def inQuotes (text : String) : String := "\"" ++ text ++ "\""

/-- A list of printed items in the braces of a list record. -/
def inBraces (items : List String) : String :=
  "!\x7b" ++ Text.join ", " items ++ "\x7d"

/-- The printed form of an item of a list. -/
def Item.text : Item → String
  | ref index => refText index
  | i32 value => "i32 " ++ Text.signed value
  | str text => "!" ++ inQuotes text
  | null => "null"

/-- The printed form of a named entry. -/
def NamedRecord.text (named : NamedRecord) : String :=
  "!" ++ named.name ++ " = " ++ inBraces (named.refs.map refText)

/-- The printed form of an entry without its number. -/
def Entry.text : Entry → String
  | list items => inBraces (items.map Item.text)
  | file filename directory =>
    "!DIFile(filename: " ++ inQuotes filename ++ ", directory: " ++ inQuotes directory ++ ")"
  | compileUnit producer unitFile =>
    "distinct !DICompileUnit(language: DW_LANG_C99, file: " ++ refText unitFile ++
      ", producer: " ++ inQuotes producer ++ ", isOptimized: false, emissionKind: FullDebug)"
  | basicType name sizeInBits encoding =>
    "!DIBasicType(name: " ++ inQuotes name ++ ", size: " ++ Text.decimal sizeInBits ++
      ", encoding: " ++ encoding ++ ")"
  | enumType name identifier source line baseType elements =>
    "!DICompositeType(tag: DW_TAG_enumeration_type, name: " ++ inQuotes name ++
      ", file: " ++ refText source ++ ", line: " ++ Text.decimal line ++
      ", baseType: " ++ refText baseType ++ ", size: 64, flags: DIFlagEnumClass, " ++
      (match elements with
        | some index => "elements: " ++ refText index ++ ", "
        | none => "") ++
      "identifier: " ++ inQuotes identifier ++ ")"
  | enumerator name value =>
    "!DIEnumerator(name: " ++ inQuotes name ++ ", value: " ++ Text.signed value ++ ")"
  | structureType name identifier source line =>
    "!DICompositeType(tag: DW_TAG_structure_type, name: " ++ inQuotes name ++
      ", file: " ++ refText source ++ ", line: " ++ Text.decimal line ++
      ", identifier: " ++ inQuotes identifier ++ ")"
  | subprogram name source line typeIndex unit =>
    "distinct !DISubprogram(name: " ++ inQuotes name ++ ", scope: " ++ refText source ++
      ", file: " ++ refText source ++ ", line: " ++ Text.decimal line ++
      ", type: " ++ refText typeIndex ++ ", scopeLine: " ++ Text.decimal line ++
      ", spFlags: DISPFlagDefinition, unit: " ++ refText unit ++ ")"
  | subroutineType types => "!DISubroutineType(types: " ++ refText types ++ ")"
  | location line column scope =>
    "!DILocation(line: " ++ Text.decimal line ++ ", column: " ++ Text.decimal column ++
      ", scope: " ++ refText scope ++ ")"

/-- The line of a record. -/
def Record.text (record : Record) : String :=
  refText record.index ++ " = " ++ record.entry.text

end Codegen.Ir
