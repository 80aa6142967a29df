import Codegen.Program

/-!
# Sizes and alignments

Pointers and references have 8 bytes.  The fields of a struct follow each other at offsets rounded
up to their alignment, and the size of the struct is rounded up to its largest alignment; an empty
struct has one byte.  A tagged union is a tag of 8 bytes and storage for its largest member,
aligned like its most aligned member.

Sizes are words of 64 bits: a sum or product that is too large for one loses what is beyond it.

Layouts are computed once per definition and kept in a table.  A definition that contains itself
by value counts as empty inside itself.
-/

namespace Codegen

/-- What a word of 64 bits keeps of a number. -/
def word (n : Nat) : Nat := n % UInt64.size

/-- Size and alignment in bytes. -/
structure Layout where
  size : Nat
  align : Nat
  deriving DecidableEq, Inhabited

/-- The layout of a tagged union with that of its storage. -/
structure UnionLayout where
  layout : Layout
  /-- Size of the largest member, rounded up to the alignment of the storage. -/
  storage : Nat := 0
  /-- The first of the most aligned members, which stands for the storage when it is declared. -/
  widest : Option Ty := none
  /-- Size of that member. -/
  widestSize : Nat := 0
  deriving Inhabited

/-- The least multiple of the alignment that is not below the offset. -/
def alignUp (offset align : Nat) : Nat :=
  (offset + (max align 1 - 1)) / max align 1 * max align 1

/-- The layout of a built-in type. -/
def primitiveLayout? (name : String) : Option Layout :=
  if name ∈ ["bool", "i8", "u8", "void"] then some ⟨1, 1⟩
  else if name ∈ ["i16", "u16"] then some ⟨2, 2⟩
  else if name ∈ ["i32", "u32", "f32"] then some ⟨4, 4⟩
  else if name ∈ ["i64", "u64", "f64"] then some ⟨8, 8⟩
  else none

/-- The layouts of structs and tagged unions, by full path. -/
structure LayoutTable where
  structs : Dict Layout := ∅
  unions : Dict UnionLayout := ∅

/-- The definitions of a program by full path; the last of several with one path counts. -/
structure Definitions where
  symbols : SymbolTable
  structs : Dict Aggregate
  unions : Dict Aggregate
  /-- What is kept of a size that has been computed. -/
  fit : Nat → Nat

namespace Definitions

/-- The definitions of a program; sizes are words unless they are counted in another way. -/
def ofContext (context : Context) (symbols : SymbolTable) (fit : Nat → Nat := word) :
    Definitions where
  symbols := symbols
  structs := .ofList (context.structs.map fun a => (a.fullPath, a))
  unions := .ofList (context.unions.map fun a => (a.fullPath, a))
  fit := fit

end Definitions

/-- A computation that may look layouts up in the table and add to it. -/
abbrev Measure (α : Type) := LayoutTable → α × LayoutTable

namespace Layout

/-- The layout of a type that is not an array, given the layouts of structs and tagged unions. -/
def ofPlain (defs : Definitions) (struct : String → Measure Layout)
    (union : String → Measure UnionLayout) (ty : Ty) : Measure Layout := fun table =>
  if ty.isPointer || ty.isReference then (⟨8, 8⟩, table)
  else
    match if ty.path = "" then primitiveLayout? ty.name else none with
    | some layout => (layout, table)
    | none =>
      if ty.isEnum || (defs.symbols.findEnum ty).isSome then (⟨8, 8⟩, table)
      else if defs.structs.contains ty.fullPath then struct ty.fullPath table
      else if defs.unions.contains ty.fullPath then
        let (found, table) := union ty.fullPath table
        (found.layout, table)
      else (⟨0, 1⟩, table)

/-- The layout of a type, given the layouts of structs and tagged unions.  An array repeats its
element. -/
def ofType (defs : Definitions) (struct : String → Measure Layout)
    (union : String → Measure UnionLayout) (ty : Ty) : Measure Layout := fun table =>
  if ty.isArray then
    let (element, table) := ofPlain defs struct union ty.pointee.notArray table
    (⟨defs.fit (element.size * ty.arrayLength), element.align⟩, table)
  else
    ofPlain defs struct union ty table

/-- Size and alignment behind fields that start at offset `size` of something of alignment
`align`. -/
def ofFields (fit : Nat → Nat) (field : Ty → Measure Layout) :
    List Ty → (size align : Nat) → Measure Layout
  | [], size, align => fun table => (⟨size, align⟩, table)
  | ty :: rest, size, align => fun table =>
    let (layout, table) := field ty table
    let offset := fit (alignUp size layout.align)
    ofFields fit field rest (fit (offset + layout.size)) (max align layout.align) table

/-- The layout of a struct whose fields end at `fields`. -/
def close (fit : Nat → Nat) (fields : Layout) : Layout :=
  if fields.size = 0 then ⟨1, 1⟩ else ⟨fit (alignUp fields.size fields.align), fields.align⟩

end Layout

namespace UnionLayout

/-- What is known of a tagged union behind some of its members. -/
structure Storage where
  size : Nat := 0
  align : Nat := 0
  widest : Option Ty := none
  widestSize : Nat := 0

/-- One more member. -/
def Storage.add (storage : Storage) (ty : Ty) (layout : Layout) : Storage :=
  if storage.align < layout.align then
    { size := max storage.size layout.size, align := layout.align, widest := some ty,
      widestSize := layout.size }
  else
    { storage with size := max storage.size layout.size }

/-- The storage for all members. -/
def ofMembers (member : Ty → Measure Layout) : List Ty → Storage → Measure Storage
  | [], storage => fun table => (storage, table)
  | ty :: rest, storage => fun table =>
    let (layout, table) := member ty table
    ofMembers member rest (storage.add ty layout) table

/-- The layout of a tagged union with the given storage. -/
def close (fit : Nat → Nat) (storage : Storage) : UnionLayout :=
  let size := fit (alignUp storage.size storage.align)
  let align := max storage.align 8
  let last := fit (fit (alignUp 8 storage.align) + size)
  { layout := ⟨fit (alignUp last align), align⟩, storage := size, widest := storage.widest,
    widestSize := storage.widestSize }

/-- The layout of a tagged union that is not defined or contains itself. -/
def unknown : UnionLayout := { layout := ⟨8, 8⟩ }

end UnionLayout

mutual

/-- The layout of the struct `key` inside the definitions `visiting`, when at most `fuel` further
definitions can be opened. -/
def structLayout (defs : Definitions) :
    (fuel : Nat) → (visiting : List String) → (key : String) → Measure Layout
  | 0, _, _ => fun table => (⟨0, 1⟩, table)
  | fuel + 1, visiting, key => fun table =>
    match table.structs.get? key, defs.structs.get? key with
    | some layout, _ => (layout, table)
    | none, none => (⟨1, 1⟩, table)
    | none, some definition =>
      if visiting.contains key then (⟨0, 1⟩, table)
      else
        let field := Layout.ofType defs (structLayout defs fuel (key :: visiting))
          (unionLayout defs fuel (key :: visiting))
        let (fields, table) := Layout.ofFields defs.fit field definition.parts 0 1 table
        let layout := fields.close defs.fit
        (layout, { table with structs := table.structs.insert key layout })

/-- The layout of the tagged union `key`, in the same way. -/
def unionLayout (defs : Definitions) :
    (fuel : Nat) → (visiting : List String) → (key : String) → Measure UnionLayout
  | 0, _, _ => fun table => (.unknown, table)
  | fuel + 1, visiting, key => fun table =>
    match table.unions.get? key, defs.unions.get? key with
    | some layout, _ => (layout, table)
    | none, none => (.unknown, table)
    | none, some definition =>
      if visiting.contains key then (.unknown, table)
      else
        let member := Layout.ofType defs (structLayout defs fuel (key :: visiting))
          (unionLayout defs fuel (key :: visiting))
        let (storage, table) := UnionLayout.ofMembers member definition.parts {} table
        let layout := UnionLayout.close defs.fit storage
        (layout, { table with unions := table.unions.insert key layout })

end

namespace LayoutTable

/-- The layouts of all definitions: every struct in order, then every tagged union.  No chain of
open definitions is longer than the number of definitions. -/
def compute (context : Context) (symbols : SymbolTable) (fit : Nat → Nat := word) : LayoutTable :=
  let defs := Definitions.ofContext context symbols fit
  let fuel := context.structs.length + context.unions.length + 1
  let structs := context.structs.foldl
    (fun table a => (structLayout defs fuel [] a.fullPath table).2) {}
  context.unions.foldl (fun table a => (unionLayout defs fuel [] a.fullPath table).2) structs

/-- The layout of a struct type. -/
def struct? (table : LayoutTable) (ty : Ty) : Option Layout := table.structs.get? ty.fullPath

/-- The layout of a tagged union type. -/
def union? (table : LayoutTable) (ty : Ty) : Option UnionLayout := table.unions.get? ty.fullPath

end LayoutTable

end Codegen
