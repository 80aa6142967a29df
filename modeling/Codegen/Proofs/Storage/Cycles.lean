import Codegen.Proofs.Storage.Words

/-!
# Layouts of any definitions

Definitions may contain themselves, have one name or speak of types that nothing defines.  To
measure them ends all the same, and each of them gets a layout of which at least the arithmetic is
right, unless sizes do not fit into words.

The table is computed with a bound on the number of definitions that are open at once.
`StructEnds`, `UnionEnds`, `TypeEnds` and `PartsEnd` are the rules of measuring without this bound:
their derivations are finite, so a measurement with a derivation ends.  The bound is never met,
since the open definitions are distinct (`Definitions.Open`).
-/

namespace Codegen

/-! ## Measuring without a bound -/

namespace Definitions

variable (defs : Definitions)

mutual

/-- To measure the struct `key` inside the definitions `visiting` ends with a layout and a table. -/
inductive StructEnds : (visiting : List String) → (key : String) → (before : LayoutTable) →
    (layout : Layout) → (after : LayoutTable) → Prop where
  | entered {visiting : List String} {key : String} {table : LayoutTable} {layout : Layout}
      (entry : table.structs.get? key = some layout) :
    StructEnds visiting key table layout table
  | undefined {visiting : List String} {key : String} {table : LayoutTable}
      (noEntry : table.structs.get? key = none) (missing : defs.structs.get? key = none) :
    StructEnds visiting key table ⟨1, 1⟩ table
  | inside {visiting : List String} {key : String} {table : LayoutTable} {a : Aggregate}
      (noEntry : table.structs.get? key = none) (found : defs.structs.get? key = some a)
      (already : key ∈ visiting) :
    StructEnds visiting key table ⟨0, 1⟩ table
  | opened {visiting : List String} {key : String} {table after : LayoutTable} {a : Aggregate}
      {fields : List Layout} (noEntry : table.structs.get? key = none)
      (found : defs.structs.get? key = some a) (new : key ∉ visiting)
      (parts : PartsEnd (key :: visiting) a.parts table fields after) :
    StructEnds visiting key table (.ofParts defs.fit fields)
      { after with structs := after.structs.insert key (.ofParts defs.fit fields) }

/-- To measure the tagged union `key` ends, in the same way. -/
inductive UnionEnds : (visiting : List String) → (key : String) → (before : LayoutTable) →
    (layout : UnionLayout) → (after : LayoutTable) → Prop where
  | entered {visiting : List String} {key : String} {table : LayoutTable} {layout : UnionLayout}
      (entry : table.unions.get? key = some layout) :
    UnionEnds visiting key table layout table
  | undefined {visiting : List String} {key : String} {table : LayoutTable}
      (noEntry : table.unions.get? key = none) (missing : defs.unions.get? key = none) :
    UnionEnds visiting key table .unknown table
  | inside {visiting : List String} {key : String} {table : LayoutTable} {a : Aggregate}
      (noEntry : table.unions.get? key = none) (found : defs.unions.get? key = some a)
      (already : key ∈ visiting) :
    UnionEnds visiting key table .unknown table
  | opened {visiting : List String} {key : String} {table after : LayoutTable} {a : Aggregate}
      {members : List Layout} (noEntry : table.unions.get? key = none)
      (found : defs.unions.get? key = some a) (new : key ∉ visiting)
      (parts : PartsEnd (key :: visiting) a.parts table members after) :
    UnionEnds visiting key table (.ofParts defs.fit a.parts members)
      { after with unions := after.unions.insert key (.ofParts defs.fit a.parts members) }

/-- To measure a type ends: structs and tagged unions are measured, other types are known. -/
inductive TypeEnds : (visiting : List String) → (ty : Ty) → (before : LayoutTable) →
    (layout : Layout) → (after : LayoutTable) → Prop where
  | fixed {visiting : List String} {ty : Ty} {table : LayoutTable} {layout : Layout}
      (base : (defs.base ty.stored).fixed? = some layout) :
    TypeEnds visiting ty table (ty.storing defs.fit layout) table
  | struct {visiting : List String} {ty : Ty} {key : String} {table after : LayoutTable}
      {layout : Layout} (base : defs.base ty.stored = .struct key)
      (ends : StructEnds visiting key table layout after) :
    TypeEnds visiting ty table (ty.storing defs.fit layout) after
  | union {visiting : List String} {ty : Ty} {key : String} {table after : LayoutTable}
      {layout : UnionLayout} (base : defs.base ty.stored = .union key)
      (ends : UnionEnds visiting key table layout after) :
    TypeEnds visiting ty table (ty.storing defs.fit layout.layout) after

/-- To measure types in order ends. -/
inductive PartsEnd : (visiting : List String) → (tys : List Ty) → (before : LayoutTable) →
    (layouts : List Layout) → (after : LayoutTable) → Prop where
  | nil {visiting : List String} {table : LayoutTable} : PartsEnd visiting [] table [] table
  | cons {visiting : List String} {ty : Ty} {tys : List Ty} {table middle after : LayoutTable}
      {layout : Layout} {layouts : List Layout} (first : TypeEnds visiting ty table layout middle)
      (rest : PartsEnd visiting tys middle layouts after) :
    PartsEnd visiting (ty :: tys) table (layout :: layouts) after

end

variable {defs} {visiting : List String}

theorem typeEnds_ofType {struct : String → Measure Layout} {union : String → Measure UnionLayout}
    (hstruct : ∀ key table,
      defs.StructEnds visiting key table (struct key table).1 (struct key table).2)
    (hunion : ∀ key table,
      defs.UnionEnds visiting key table (union key table).1 (union key table).2)
    (ty : Ty) (table : LayoutTable) :
    defs.TypeEnds visiting ty table (Layout.ofType defs struct union ty table).1
      (Layout.ofType defs struct union ty table).2 := by
  rw [ofType_eq, ofPlain_eq]
  cases hbase : defs.base ty.stored with
  | struct key => exact .struct hbase (hstruct key table)
  | union key => exact .union hbase (hunion key table)
  | pointer | builtin | enum | unknown => exact .fixed (by rw [hbase]; rfl)

theorem partsEnd_all {measure : Ty → Measure Layout}
    (h : ∀ ty table, defs.TypeEnds visiting ty table (measure ty table).1 (measure ty table).2)
    (tys : List Ty) (table : LayoutTable) :
    defs.PartsEnd visiting tys table (Measure.all measure tys table).1
      (Measure.all measure tys table).2 := by
  induction tys generalizing table with
  | nil => exact .nil
  | cons ty tys ih => exact .cons (h ty table) (ih _)

/-- Measuring inside the definitions `visiting` ends before the bound. -/
structure Bounded (defs : Definitions) (fuel : Nat) (visiting : List String) : Prop where
  struct (key : String) (table : LayoutTable) :
    defs.StructEnds visiting key table (structLayout defs fuel visiting key table).1
      (structLayout defs fuel visiting key table).2
  union (key : String) (table : LayoutTable) :
    defs.UnionEnds visiting key table (unionLayout defs fuel visiting key table).1
      (unionLayout defs fuel visiting key table).2

theorem Bounded.partsEnd {fuel : Nat} (h : defs.Bounded fuel visiting) (tys : List Ty)
    (table : LayoutTable) :
    defs.PartsEnd visiting tys table (Measure.all (defs.partLayout fuel visiting) tys table).1
      (Measure.all (defs.partLayout fuel visiting) tys table).2 :=
  partsEnd_all (typeEnds_ofType h.struct h.union) tys table

/-- The bound is never met.  The induction is on the bound: each definition that is opened is one
of the definitions and not open yet. -/
theorem bounded_of_open {keys : List String}
    (hkeys : ∀ key, defs.structs.contains key ∨ defs.unions.contains key → key ∈ keys)
    {fuel : Nat} (hopen : Open defs keys fuel visiting) : defs.Bounded fuel visiting := by
  induction fuel generalizing visiting with
  | zero => exact absurd rfl hopen.fuel_pos
  | succ fuel ih =>
    constructor
    · intro key table
      refine structLayout_cases (fun _ => .entered) .undefined (fun _ => .inside)
        fun a noEntry found new => ?_
      have known : key ∈ keys := hkeys key (.inl (Option.isSome_iff_exists.2 ⟨a, found⟩))
      exact .opened noEntry found new ((ih (hopen.cons new known)).partsEnd a.parts table)
    · intro key table
      refine unionLayout_cases (fun _ => .entered) .undefined (fun _ => .inside)
        fun a noEntry found new => ?_
      have known : key ∈ keys := hkeys key (.inr (Option.isSome_iff_exists.2 ⟨a, found⟩))
      exact .opened noEntry found new ((ih (hopen.cons new known)).partsEnd a.parts table)

end Definitions

/-- Steps for the given names lead from one table to another. -/
inductive LayoutTable.InTurn (step : String → LayoutTable → LayoutTable → Prop) :
    List String → LayoutTable → LayoutTable → Prop where
  | nil (table : LayoutTable) : InTurn step [] table table
  | cons {key : String} {keys : List String} {table middle after : LayoutTable}
      (first : step key table middle) (rest : InTurn step keys middle after) :
    InTurn step (key :: keys) table after

/-- To measure all structs of a program and then all its tagged unions ends with this table. -/
def Definitions.Ends (context : Context) (symbols : SymbolTable) (table : LayoutTable) : Prop :=
  let defs := Definitions.ofContext context symbols
  ∃ middle,
    LayoutTable.InTurn
      (fun key before after => ∃ layout, defs.StructEnds [] key before layout after)
      (context.structs.map Aggregate.fullPath) {} middle ∧
    LayoutTable.InTurn
      (fun key before after => ∃ layout, defs.UnionEnds [] key before layout after)
      (context.unions.map Aggregate.fullPath) middle table

namespace LayoutTable

theorem inTurn_foldl {α : Type} {step : String → LayoutTable → LayoutTable → Prop}
    {measure : String → Measure α} (h : ∀ key table, step key table (measure key table).2)
    (as : List Aggregate) (table : LayoutTable) :
    InTurn step (as.map Aggregate.fullPath) table
      (as.foldl (fun table a => (measure a.fullPath table).2) table) := by
  induction as generalizing table with
  | nil => exact .nil table
  | cons a as ih => exact .cons (h a.fullPath table) (ih _)

theorem ends_compute (context : Context) (symbols : SymbolTable) :
    Definitions.Ends context symbols (compute context symbols) := by
  obtain ⟨struct, union⟩ := Definitions.bounded_of_open Definitions.mem_names
    (Definitions.open_ofContext context symbols word)
  exact ⟨_, inTurn_foldl (fun key table => ⟨_, struct key table⟩) _ _,
    inTurn_foldl (fun key table => ⟨_, union key table⟩) _ _⟩

end LayoutTable

/-! ## Well-formed layouts -/

/-- A size in whole steps of an alignment. -/
structure Layout.Aligned (layout : Layout) : Prop where
  align : layout.align ∈ alignments
  whole : layout.align ∣ layout.size

/-- A size in whole steps of an alignment, at least one of them. -/
structure Layout.WellFormed (layout : Layout) : Prop extends layout.Aligned where
  positive : 0 < layout.size

/-- The layout of a tagged union: as aligned as the tag, and the member that stands for the storage
leaves a remainder of it, which is filled up. -/
structure UnionLayout.WellFormed (layout : UnionLayout) : Prop
    extends wellFormed : layout.layout.WellFormed where
  tag : layout.layout.align = 8
  filled : layout.widestSize ≤ layout.storage

theorem Layout.aligned_ofParts {fields : List Layout}
    (h : ∀ field ∈ fields, field.align ∈ alignments) : (ofParts word fields).Aligned := by
  have align : (behind word fields 0 1).align ∈ alignments := align_behind_mem h 0 (by decide)
  unfold ofParts close
  split
  · exact ⟨by decide, by decide⟩
  · obtain ⟨⟨-, whole⟩, -⟩ :=
      isLeast_alignUp (behind word fields 0 1).size (pos_of_mem_alignments align)
    exact ⟨align, dvd_word align whole⟩

theorem Layout.size_ofParts_pos (fields : List Layout) : 0 < (ofParts id fields).size := by
  unfold ofParts close
  split
  · decide
  · rename_i nonzero
    exact (Nat.pos_of_ne_zero nonzero).trans_le (le_alignUp _ _)

namespace UnionLayout

variable {tys : List Ty} {layouts : List Layout}

theorem aligned_ofParts (h : ∀ layout ∈ layouts, layout.align ∈ alignments) :
    (ofParts word tys layouts).layout.Aligned := by
  have tag : (ofParts word tys layouts).layout.align = 8 := align_ofParts h
  have align : (ofParts word tys layouts).layout.align ∈ alignments := by
    rw [tag]
    decide
  exact ⟨align, dvd_word align (isLeast_alignUp _ (pos_of_mem_alignments align)).1.2⟩

/-- The member that stands for the storage fits into it. -/
theorem Storage.widestSize_addAll (tys : List Ty) (layouts : List Layout) :
    (({} : Storage).addAll tys layouts).widestSize ≤ (({} : Storage).addAll tys layouts).size := by
  refine addAll_induction (P := fun storage _ => storage.widestSize ≤ storage.size) le_rfl
    (fun h ty layout => ?_) tys layouts
  unfold Storage.add
  split
  · exact le_max_right _ _
  · exact le_max_of_le_left h

/-- With exact sizes there is room for the tag and for the member that stands for the storage. -/
theorem room_ofParts (tys : List Ty) (layouts : List Layout) :
    8 ≤ (ofParts id tys layouts).layout.size ∧
      (ofParts id tys layouts).widestSize ≤ (ofParts id tys layouts).storage := by
  obtain ⟨stored, whole⟩ := sums_le_close (({} : Storage).addAll tys layouts)
  have tag := le_alignUp 8 (({} : Storage).addAll tys layouts).align
  exact ⟨tag.trans ((Nat.le_add_right _ _).trans whole),
    (Storage.widestSize_addAll tys layouts).trans stored⟩

end UnionLayout

theorem Definitions.Lays.widest_ofParts {defs : Definitions} {tys : List Ty}
    {layouts : List Layout} (h : defs.Lays tys layouts) :
    (UnionLayout.ofParts defs.fit tys layouts).widest.isSome ↔ tys ≠ [] := by
  refine ⟨?_, fun members => Option.isSome_iff_exists.2 (h.exists_widest members)⟩
  rintro some rfl
  cases h
  cases some

/-! ## The table of a program -/

/-- What is defined under a name is the last definition of that name. -/
theorem Definitions.exists_last_of_get? {as : List Aggregate} {a : Aggregate} {key : String}
    (h : (Dict.ofList (as.map fun a => (a.fullPath, a))).get? key = some a) :
    ∃ front rest, as = front ++ a :: rest ∧ a.fullPath = key ∧
      key ∉ rest.map Aggregate.fullPath := by
  obtain ⟨front, rest, split, last⟩ := Dict.exists_last_of_get?_ofList h
  obtain ⟨front, behind, rfl, rfl, hbehind⟩ := List.map_eq_append_iff.1 split
  obtain ⟨b, rest, rfl, hb, rfl⟩ := List.map_eq_cons_iff.1 hbehind
  obtain ⟨rfl, rfl⟩ := Prod.mk.inj hb
  rw [List.map_map] at last
  exact ⟨front, rest, rfl, rfl, last⟩

/-- Of any definitions, also of those that contain themselves, are defined twice or have parts that
nothing defines, the layouts are found in finitely many steps.  Every definition has one, the
alignments are those of built-in types, and sizes are whole.  In a tagged union some member stands
for the storage just if the last definition of that name has members.  If no exact size is beyond a
word, no size is zero, and there is room for the member that stands for the storage. -/
theorem layouts_are_total_and_well_formed (context : Context) (symbols : SymbolTable) :
    let table := LayoutTable.compute context symbols
    Definitions.Ends context symbols table ∧
    (∀ s ∈ context.structs, ∃ layout, table.struct? s.type = some layout) ∧
    (∀ u ∈ context.unions, ∃ layout, table.union? u.type = some layout) ∧
    (∀ key layout, table.structs.get? key = some layout → layout.Aligned) ∧
    (∀ key layout, table.unions.get? key = some layout →
      layout.layout.Aligned ∧ layout.layout.align = 8 ∧
      ∃ front u rest, context.unions = front ++ u :: rest ∧ u.fullPath = key ∧
        key ∉ rest.map Aggregate.fullPath ∧ (layout.widest.isSome ↔ u.parts ≠ [])) ∧
    ((LayoutTable.compute context symbols id).InWords →
      (∀ key layout, table.structs.get? key = some layout → layout.WellFormed) ∧
      ∀ key layout, table.unions.get? key = some layout → layout.WellFormed) := by
  intro table
  obtain ⟨right, structs, unions⟩ := LayoutTable.compute_right context symbols word
  have alignedStruct (key : String) (layout : Layout)
      (entry : table.structs.get? key = some layout) : layout.Aligned := by
    obtain ⟨a, fields, -, lays, rfl⟩ := right.structs entry
    exact Layout.aligned_ofParts lays.align_mem
  have alignedUnion (key : String) (layout : UnionLayout)
      (entry : table.unions.get? key = some layout) :
      layout.layout.Aligned ∧ layout.layout.align = 8 := by
    obtain ⟨u, members, -, lays, rfl⟩ := right.unions entry
    exact ⟨UnionLayout.aligned_ofParts lays.align_mem, UnionLayout.align_ofParts lays.align_mem⟩
  refine ⟨LayoutTable.ends_compute context symbols,
    fun s hs => Option.isSome_iff_exists.1 (structs s hs),
    fun u hu => Option.isSome_iff_exists.1 (unions u hu), alignedStruct,
    fun key layout entry => ?_, fun inWords => ?_⟩
  · obtain ⟨u, members, found, lays, hlayout⟩ := right.unions entry
    obtain ⟨front, rest, split, hkey, last⟩ := Definitions.exists_last_of_get? found
    obtain ⟨aligned, tag⟩ := alignedUnion key layout entry
    exact ⟨aligned, tag, front, u, rest, split, hkey, last, hlayout ▸ lays.widest_ofParts⟩
  · obtain ⟨exactRight, -, -⟩ := LayoutTable.compute_right context symbols id
    have same : table = LayoutTable.compute context symbols id := LayoutTable.compute_word inWords
    refine ⟨fun key layout entry => ?_, fun key layout entry => ?_⟩
    · obtain ⟨a, fields, -, -, hlayout⟩ := exactRight.structs (same ▸ entry)
      exact { alignedStruct key layout entry with
        positive := hlayout ▸ Layout.size_ofParts_pos fields }
    · obtain ⟨u, members, -, -, hlayout⟩ := exactRight.unions (same ▸ entry)
      obtain ⟨aligned, tag⟩ := alignedUnion key layout entry
      obtain ⟨positive, filled⟩ := UnionLayout.room_ofParts u.parts members
      exact { aligned with
        positive := hlayout ▸ (Nat.succ_pos 7).trans_le positive
        tag := tag
        filled := hlayout ▸ filled }

namespace Sample

/-- An array of two rings. -/
def twoRings : Ty := { name := "ring", path := "m", depth := 1, isArray := true, arrayLength := 2 }

/-- A struct and a tagged union that contain each other, a struct that contains itself, a part that
nothing defines and names that are defined twice. -/
def knotted : Context where
  structs :=
    [ { name := "ring", path := "m", parts := [.u8, .named "link" "m"] },
      { name := "self", path := "m", parts := [.i32, .named "self" "m", .named "lost" "m"] },
      { name := "ring", path := "m", parts := [.i32, .named "link" "m", .bool] } ]
  unions :=
    [ { name := "link", path := "m", parts := [.bool] },
      { name := "none", path := "m", parts := [.u8] },
      { name := "link", path := "m", parts := [.u8, twoRings, .f64] },
      { name := "none", path := "m" } ]

end Sample

theorem knotted_layouts_are_well_formed :
    let table := LayoutTable.compute Sample.knotted {}
    Definitions.Ends Sample.knotted {} table ∧
    (Definitions.ofContext Sample.knotted {}).Contains "m::ring" "m::link" ∧
    (Definitions.ofContext Sample.knotted {}).Contains "m::link" "m::ring" ∧
    (LayoutTable.compute Sample.knotted {} id).InWords ∧
    (table.struct? (.named "ring" "m") = some ⟨32, 8⟩ ∧ Layout.WellFormed ⟨32, 8⟩) ∧
    (∃ layout, table.union? (.named "link" "m") = some layout ∧ layout.WellFormed ∧
      layout.widest.isSome) ∧
    ∃ layout, table.union? (.named "none" "m") = some layout ∧ layout.WellFormed ∧
      ¬ layout.widest.isSome := by
  intro table
  have inWords : (LayoutTable.compute Sample.knotted {} id).InWords :=
    LayoutTable.inWords_of_entries (by decide +kernel) (by decide +kernel)
  obtain ⟨ends, -, -, -, -, sound⟩ := layouts_are_total_and_well_formed Sample.knotted {}
  obtain ⟨wellFormed, wellFormedUnion⟩ := sound inWords
  have ring : table.struct? (.named "ring" "m") = some ⟨32, 8⟩ := by decide +kernel
  have link : (table.union? (.named "link" "m")).map (·.widest.isSome) = some true := by
    decide +kernel
  have bare : (table.union? (.named "none" "m")).map (·.widest.isSome) = some false := by
    decide +kernel
  obtain ⟨linkLayout, linkEntry, widest⟩ := Option.map_eq_some_iff.1 link
  obtain ⟨bareLayout, bareEntry, noWidest⟩ := Option.map_eq_some_iff.1 bare
  refine ⟨ends, ?_, ?_, inWords, ⟨ring, wellFormed _ _ ring⟩, ?_, ?_⟩
  · exact ⟨_, .inl rfl, .named "link" "m", List.mem_cons_of_mem _ List.mem_cons_self,
      by decide +kernel⟩
  · exact ⟨_, .inr rfl, Sample.twoRings, List.mem_cons_of_mem _ List.mem_cons_self,
      by decide +kernel⟩
  · exact ⟨linkLayout, linkEntry, wellFormedUnion _ _ linkEntry, widest⟩
  · exact ⟨bareLayout, bareEntry, wellFormedUnion _ _ bareEntry, by simp [noWidest]⟩

end Codegen
