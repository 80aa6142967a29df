import Codegen.Proofs.Storage.Layouts
import Mathlib.Data.List.Perm.Subperm

/-!
# What the layout table says

The table is filled while definitions are opened inside each other.  A measurement only adds to it
(`grows_layouts`), and every entry is a layout by its definition, whatever order the definitions are
opened in; every definition has an entry (`compute_right`).
-/

namespace Codegen

open Relation (TransGen)

/-! ## One step of measuring -/

/-- The layouts of types, in order. -/
def Measure.all (measure : Ty → Measure Layout) : List Ty → Measure (List Layout)
  | [] => fun table => ([], table)
  | ty :: tys => fun table =>
    let (layout, table) := measure ty table
    let (layouts, table) := all measure tys table
    (layout :: layouts, table)

theorem Layout.ofFields_eq (fit : Nat → Nat) (measure : Ty → Measure Layout) (tys : List Ty)
    (size align : Nat) (table : LayoutTable) :
    ofFields fit measure tys size align table =
      (behind fit (Measure.all measure tys table).1 size align,
        (Measure.all measure tys table).2) := by
  induction tys generalizing size align table with
  | nil => rfl
  | cons ty tys ih => exact ih _ _ _

theorem UnionLayout.ofMembers_eq (measure : Ty → Measure Layout) (tys : List Ty)
    (storage : Storage) (table : LayoutTable) :
    ofMembers measure tys storage table =
      (storage.addAll tys (Measure.all measure tys table).1,
        (Measure.all measure tys table).2) := by
  induction tys generalizing storage table with
  | nil => rfl
  | cons ty tys ih => exact ih _ _

/-- A struct with fields of the given layouts gets its entry. -/
def LayoutTable.enterStruct (fit : Nat → Nat) (key : String)
    (fields : List Layout × LayoutTable) : Layout × LayoutTable :=
  let layout := Layout.ofParts fit fields.1
  (layout, { fields.2 with structs := fields.2.structs.insert key layout })

/-- A tagged union with members of the given layouts gets its entry. -/
def LayoutTable.enterUnion (fit : Nat → Nat) (key : String) (tys : List Ty)
    (members : List Layout × LayoutTable) : UnionLayout × LayoutTable :=
  let layout := UnionLayout.ofParts fit tys members.1
  (layout, { members.2 with unions := members.2.unions.insert key layout })

namespace Definitions

open LayoutTable (enterStruct enterUnion)

/-- The layout of a part while the definitions `visiting` are open. -/
def partLayout (defs : Definitions) (fuel : Nat) (visiting : List String) : Ty → Measure Layout :=
  Layout.ofType defs (structLayout defs fuel visiting) (unionLayout defs fuel visiting)

/-- A struct is looked up, or its fields are measured and it gets an entry. -/
theorem structLayout_eq (defs : Definitions) (fuel : Nat) (visiting : List String) (key : String)
    (table : LayoutTable) :
    structLayout defs (fuel + 1) visiting key table =
      match table.structs.get? key, defs.structs.get? key with
      | some layout, _ => (layout, table)
      | none, none => (⟨1, 1⟩, table)
      | none, some a =>
        if visiting.contains key then (⟨0, 1⟩, table)
        else
          enterStruct defs.fit key
            (Measure.all (defs.partLayout fuel (key :: visiting)) a.parts table) := by
  rw [structLayout]
  simp only [Layout.ofFields_eq]
  rfl

/-- So is a tagged union. -/
theorem unionLayout_eq (defs : Definitions) (fuel : Nat) (visiting : List String) (key : String)
    (table : LayoutTable) :
    unionLayout defs (fuel + 1) visiting key table =
      match table.unions.get? key, defs.unions.get? key with
      | some layout, _ => (layout, table)
      | none, none => (.unknown, table)
      | none, some a =>
        if visiting.contains key then (.unknown, table)
        else
          enterUnion defs.fit key a.parts
            (Measure.all (defs.partLayout fuel (key :: visiting)) a.parts table) := by
  rw [unionLayout]
  simp only [UnionLayout.ofMembers_eq]
  rfl

section Steps

variable {defs : Definitions} {fuel : Nat} {visiting : List String} {key : String}
  {table : LayoutTable}

/-- The four ways in which a struct is measured. -/
theorem structLayout_cases {P : Layout → LayoutTable → Prop}
    (entered : ∀ layout, table.structs.get? key = some layout → P layout table)
    (undefined : table.structs.get? key = none → defs.structs.get? key = none → P ⟨1, 1⟩ table)
    (inside : ∀ a, table.structs.get? key = none → defs.structs.get? key = some a →
      key ∈ visiting → P ⟨0, 1⟩ table)
    (opened : ∀ a, table.structs.get? key = none → defs.structs.get? key = some a →
      key ∉ visiting →
      let entered := enterStruct defs.fit key
        (Measure.all (defs.partLayout fuel (key :: visiting)) a.parts table)
      P entered.1 entered.2) :
    P (structLayout defs (fuel + 1) visiting key table).1
      (structLayout defs (fuel + 1) visiting key table).2 := by
  rw [structLayout_eq]
  cases noEntry : table.structs.get? key with
  | some layout => exact entered layout noEntry
  | none =>
    cases found : defs.structs.get? key with
    | none => exact undefined noEntry found
    | some a =>
      dsimp only
      split
      · rename_i already
        exact inside a noEntry found (List.contains_iff_mem.1 already)
      · rename_i new
        exact opened a noEntry found (mt List.contains_iff_mem.2 new)

/-- The four ways in which a tagged union is measured. -/
theorem unionLayout_cases {P : UnionLayout → LayoutTable → Prop}
    (entered : ∀ layout, table.unions.get? key = some layout → P layout table)
    (undefined : table.unions.get? key = none → defs.unions.get? key = none → P .unknown table)
    (inside : ∀ a, table.unions.get? key = none → defs.unions.get? key = some a →
      key ∈ visiting → P .unknown table)
    (opened : ∀ a, table.unions.get? key = none → defs.unions.get? key = some a →
      key ∉ visiting →
      let entered := enterUnion defs.fit key a.parts
        (Measure.all (defs.partLayout fuel (key :: visiting)) a.parts table)
      P entered.1 entered.2) :
    P (unionLayout defs (fuel + 1) visiting key table).1
      (unionLayout defs (fuel + 1) visiting key table).2 := by
  rw [unionLayout_eq]
  cases noEntry : table.unions.get? key with
  | some layout => exact entered layout noEntry
  | none =>
    cases found : defs.unions.get? key with
    | none => exact undefined noEntry found
    | some a =>
      dsimp only
      split
      · rename_i already
        exact inside a noEntry found (List.contains_iff_mem.1 already)
      · rename_i new
        exact opened a noEntry found (mt List.contains_iff_mem.2 new)

end Steps

section Types

variable {defs : Definitions} {struct : String → Measure Layout}
  {union : String → Measure UnionLayout} {ty : Ty}

/-- A type is measured by what it stores. -/
theorem ofType_eq (table : LayoutTable) :
    Layout.ofType defs struct union ty table =
      (ty.storing defs.fit (Layout.ofPlain defs struct union ty.stored table).1,
        (Layout.ofPlain defs struct union ty.stored table).2) := by
  unfold Layout.ofType Ty.storing Ty.stored
  split <;> rfl

/-- How a type that is not an array is measured. -/
theorem ofPlain_eq (table : LayoutTable) :
    Layout.ofPlain defs struct union ty table =
      match defs.base ty with
      | .struct key => struct key table
      | .union key => ((union key table).1.layout, (union key table).2)
      | base => (base.fixed?.getD ⟨0, 1⟩, table) := by
  unfold Layout.ofPlain base
  split
  · rfl
  · generalize (if ty.path = "" then primitiveLayout? ty.name else none) = builtin
    cases builtin with
    | some layout => rfl
    | none =>
      dsimp only
      split
      · rfl
      · split
        · rfl
        · split <;> rfl

end Types

end Definitions

/-! ## The table grows -/

namespace LayoutTable

/-- Entries stay as they are, and no definition that is open gets one. -/
structure Grows (visiting : List String) (table after : LayoutTable) : Prop where
  structs {key : String} {layout : Layout} (h : table.structs.get? key = some layout) :
    after.structs.get? key = some layout
  unions {key : String} {layout : UnionLayout} (h : table.unions.get? key = some layout) :
    after.unions.get? key = some layout
  openStructs {key : String} (h : key ∈ visiting) (noEntry : table.structs.get? key = none) :
    after.structs.get? key = none
  openUnions {key : String} (h : key ∈ visiting) (noEntry : table.unions.get? key = none) :
    after.unions.get? key = none

variable {table after : LayoutTable} {visiting : List String} {key : String}

theorem Grows.refl (visiting : List String) (table : LayoutTable) : table.Grows visiting table :=
  ⟨id, id, fun _ => id, fun _ => id⟩

theorem Grows.trans {a b c : LayoutTable} (h : a.Grows visiting b) (h' : b.Grows visiting c) :
    a.Grows visiting c where
  structs entry := h'.structs (h.structs entry)
  unions entry := h'.unions (h.unions entry)
  openStructs hkey noEntry := h'.openStructs hkey (h.openStructs hkey noEntry)
  openUnions hkey noEntry := h'.openUnions hkey (h.openUnions hkey noEntry)

/-- A struct gets its entry when it is closed. -/
theorem Grows.insertStruct (h : table.Grows (key :: visiting) after) (new : key ∉ visiting)
    (noEntry : table.structs.get? key = none) (layout : Layout) :
    table.Grows visiting { after with structs := after.structs.insert key layout } where
  structs {key'} _ entry := by
    have other : key ≠ key' := by
      rintro rfl
      rw [noEntry] at entry
      cases entry
    rw [Dict.get?_insert, if_neg other, h.structs entry]
  unions := h.unions
  openStructs {key'} hkey noEntry' := by
    have other : key ≠ key' := fun same => new (same ▸ hkey)
    rw [Dict.get?_insert, if_neg other, h.openStructs (List.mem_cons_of_mem _ hkey) noEntry']
  openUnions hkey := h.openUnions (List.mem_cons_of_mem _ hkey)

/-- So does a tagged union. -/
theorem Grows.insertUnion (h : table.Grows (key :: visiting) after) (new : key ∉ visiting)
    (noEntry : table.unions.get? key = none) (layout : UnionLayout) :
    table.Grows visiting { after with unions := after.unions.insert key layout } where
  structs := h.structs
  unions {key'} _ entry := by
    have other : key ≠ key' := by
      rintro rfl
      rw [noEntry] at entry
      cases entry
    rw [Dict.get?_insert, if_neg other, h.unions entry]
  openStructs hkey := h.openStructs (List.mem_cons_of_mem _ hkey)
  openUnions {key'} hkey noEntry' := by
    have other : key ≠ key' := fun same => new (same ▸ hkey)
    rw [Dict.get?_insert, if_neg other, h.openUnions (List.mem_cons_of_mem _ hkey) noEntry']

theorem Grows.contains_struct (h : table.Grows visiting after)
    (entered : table.structs.contains key) : after.structs.contains key := by
  obtain ⟨layout, entry⟩ := Option.isSome_iff_exists.1 entered
  exact Option.isSome_iff_exists.2 ⟨layout, h.structs entry⟩

theorem Grows.contains_union (h : table.Grows visiting after)
    (entered : table.unions.contains key) : after.unions.contains key := by
  obtain ⟨layout, entry⟩ := Option.isSome_iff_exists.1 entered
  exact Option.isSome_iff_exists.2 ⟨layout, h.unions entry⟩

end LayoutTable

/-- A measurement inside the open definitions only adds to the table. -/
def Measure.Grows {α : Type} (visiting : List String) (step : Measure α) : Prop :=
  ∀ table : LayoutTable, table.Grows visiting (step table).2

theorem Measure.grows_all {measure : Ty → Measure Layout} {visiting : List String}
    (h : ∀ ty, (measure ty).Grows visiting) (tys : List Ty) : (all measure tys).Grows visiting := by
  induction tys with
  | nil => exact fun table => .refl visiting table
  | cons ty tys ih => exact fun table => (h ty table).trans (ih _)

namespace Definitions

open Codegen.Measure (Grows)

variable {defs : Definitions}

theorem grows_ofType {struct : String → Measure Layout} {union : String → Measure UnionLayout}
    {visiting : List String} (hstruct : ∀ key, Grows visiting (struct key))
    (hunion : ∀ key, Grows visiting (union key)) (ty : Ty) :
    Grows visiting (Layout.ofType defs struct union ty) := by
  intro table
  rw [ofType_eq, ofPlain_eq]
  cases defs.base ty.stored with
  | struct key => exact hstruct key table
  | union key => exact hunion key table
  | pointer | builtin | enum | unknown => exact .refl visiting table

/-- Measuring only adds to the table.  The induction is on the fuel; a definition gets its entry
when its parts are measured, and they cannot have entered it, since it was open. -/
theorem grows_layouts (defs : Definitions) (fuel : Nat) (visiting : List String) (key : String) :
    Grows visiting (structLayout defs fuel visiting key) ∧
      Grows visiting (unionLayout defs fuel visiting key) := by
  induction fuel generalizing visiting key with
  | zero => exact ⟨fun table => .refl visiting table, fun table => .refl visiting table⟩
  | succ fuel ih =>
    have parts : ∀ ty, Grows (key :: visiting) (defs.partLayout fuel (key :: visiting) ty) :=
      grows_ofType (fun inner => (ih (key :: visiting) inner).1)
        fun inner => (ih (key :: visiting) inner).2
    constructor
    · refine fun table => structLayout_cases (P := fun _ after => table.Grows visiting after)
        (fun _ _ => .refl visiting table) (fun _ _ => .refl visiting table)
        (fun _ _ _ _ => .refl visiting table) fun a noEntry _ new => ?_
      exact (Measure.grows_all parts a.parts table).insertStruct new noEntry _
    · refine fun table => unionLayout_cases (P := fun _ after => table.Grows visiting after)
        (fun _ _ => .refl visiting table) (fun _ _ => .refl visiting table)
        (fun _ _ _ _ => .refl visiting table) fun a noEntry _ new => ?_
      exact (Measure.grows_all parts a.parts table).insertUnion new noEntry _

theorem grows_partLayout (defs : Definitions) (fuel : Nat) (visiting : List String) (ty : Ty) :
    Grows visiting (defs.partLayout fuel visiting ty) :=
  grows_ofType (fun key => (grows_layouts defs fuel visiting key).1)
    (fun key => (grows_layouts defs fuel visiting key).2) ty

/-- One definition after the other. -/
theorem grows_foldl {α : Type} {measure : String → Measure α}
    (grows : ∀ key, Grows [] (measure key)) (as : List Aggregate) (table : LayoutTable) :
    table.Grows [] (as.foldl (fun table a => (measure a.fullPath table).2) table) := by
  induction as generalizing table with
  | nil => exact .refl [] table
  | cons a as ih => exact (grows a.fullPath table).trans (ih _)

end Definitions

/-! ## The table is right -/

namespace LayoutTable

/-- Every entry is the layout of its definition. -/
structure Right (defs : Definitions) (table : LayoutTable) : Prop where
  structs {key : String} {layout : Layout} (h : table.structs.get? key = some layout) :
    defs.StructLays key layout
  unions {key : String} {layout : UnionLayout} (h : table.unions.get? key = some layout) :
    defs.UnionLays key layout

variable {defs : Definitions} {table : LayoutTable} {key : String}

theorem Right.insertStruct {layout : Layout} (right : table.Right defs)
    (h : defs.StructLays key layout) :
    Right defs { table with structs := table.structs.insert key layout } where
  structs found := by
    rw [Dict.get?_insert] at found
    split at found
    · rename_i hkey
      obtain rfl := Option.some.inj found
      exact hkey ▸ h
    · exact right.structs found
  unions := right.unions

theorem Right.insertUnion {layout : UnionLayout} (right : table.Right defs)
    (h : defs.UnionLays key layout) :
    Right defs { table with unions := table.unions.insert key layout } where
  structs := right.structs
  unions found := by
    rw [Dict.get?_insert] at found
    split at found
    · rename_i hkey
      obtain rfl := Option.some.inj found
      exact hkey ▸ h
    · exact right.unions found

end LayoutTable

/-- A measurement keeps the table right and has a result as wanted. -/
def Measure.Ensures {α : Type} (defs : Definitions) (step : Measure α) (post : α → Prop) : Prop :=
  ∀ table, table.Right defs → (step table).2.Right defs ∧ post (step table).1

namespace Definitions

open Codegen.Measure (Grows Ensures)

variable {defs : Definitions}

/-- What is asked of the measurement of a struct. -/
def StructAnswer (defs : Definitions) (key : String) (layout : Layout) : Prop :=
  defs.StructLays key layout ∨ TransGen defs.Contains key key ∧ layout = ⟨0, 1⟩

/-- What is asked of the measurement of a tagged union. -/
def UnionAnswer (defs : Definitions) (key : String) (layout : UnionLayout) : Prop :=
  defs.UnionLays key layout ∨ TransGen defs.Contains key key ∧ layout = .unknown

/-- Only defined structs are opened. -/
theorem contains_of_base_struct {ty : Ty} {key : String} (h : defs.base ty = .struct key) :
    defs.structs.contains key := by
  have classified := defs.classified ty
  rw [h] at classified
  cases classified with
  | struct _ _ _ found => exact found

/-- Only defined tagged unions are opened. -/
theorem contains_of_base_union {ty : Ty} {key : String} (h : defs.base ty = .union key) :
    defs.unions.contains key := by
  have classified := defs.classified ty
  rw [h] at classified
  cases classified with
  | union _ _ _ found => exact found

theorem ensures_ofType {struct : String → Measure Layout} {union : String → Measure UnionLayout}
    {ty : Ty}
    (hstruct : ∀ {key}, (defs.base ty.stored) = .struct key →
      Ensures defs (struct key) (defs.StructAnswer key))
    (hunion : ∀ {key}, (defs.base ty.stored) = .union key →
      Ensures defs (union key) (defs.UnionAnswer key)) :
    Ensures defs (Layout.ofType defs struct union ty) fun layout => defs.Lays [ty] [layout] := by
  intro table right
  rw [ofType_eq, ofPlain_eq]
  cases hbase : defs.base ty.stored with
  | struct key =>
    obtain ⟨right', ⟨a, fields, found, inner, hlayout⟩ | ⟨cycle, hlayout⟩⟩ :=
      hstruct hbase table right
    · refine ⟨right', ?_⟩
      rw [hlayout]
      exact .struct hbase found inner .nil
    · refine ⟨right', ?_⟩
      rw [hlayout]
      exact .structInside hbase cycle .nil
  | union key =>
    obtain ⟨right', ⟨a, members, found, inner, hlayout⟩ | ⟨cycle, hlayout⟩⟩ :=
      hunion hbase table right
    · refine ⟨right', ?_⟩
      dsimp only
      rw [hlayout]
      exact .union hbase found inner .nil
    · refine ⟨right', ?_⟩
      dsimp only
      rw [hlayout]
      exact .unionInside hbase cycle .nil
  | pointer | builtin | enum | unknown =>
    exact ⟨right, .fixed (by rw [hbase]; rfl) .nil⟩

theorem ensures_all {measure : Ty → Measure Layout} {tys : List Ty}
    (h : ∀ ty ∈ tys, Ensures defs (measure ty) fun layout => defs.Lays [ty] [layout]) :
    Ensures defs (Measure.all measure tys) fun layouts => defs.Lays tys layouts := by
  induction tys with
  | nil => exact fun table right => ⟨right, .nil⟩
  | cons ty tys ih =>
    obtain ⟨hty, htys⟩ := List.forall_mem_cons.1 h
    intro table right
    obtain ⟨right, first⟩ := hty table right
    obtain ⟨right, rest⟩ := ih htys _ right
    exact ⟨right, first.cons rest⟩

/-- The definitions that are open: each once, and few enough for the fuel that is left. -/
structure Open (defs : Definitions) (keys : List String) (fuel : Nat) (visiting : List String) :
    Prop where
  distinct : visiting.Nodup
  known : visiting ⊆ keys
  enough : keys.length < fuel + visiting.length

theorem Open.fuel_pos {keys visiting : List String} {fuel : Nat}
    (h : Open defs keys fuel visiting) : fuel ≠ 0 := by
  have fits : visiting.length ≤ keys.length := (h.distinct.subperm h.known).length_le
  have enough := h.enough
  omega

theorem Open.cons {keys visiting : List String} {fuel : Nat} {key : String}
    (h : Open defs keys (fuel + 1) visiting) (hnew : key ∉ visiting) (hkey : key ∈ keys) :
    Open defs keys fuel (key :: visiting) where
  distinct := List.nodup_cons.2 ⟨hnew, h.distinct⟩
  known := List.cons_subset.2 ⟨hkey, h.known⟩
  enough := by
    have enough := h.enough
    rw [List.length_cons]
    omega

/-- What contains a definition transitively contains what this one contains. -/
theorem transGen_of_open {visiting : List String} {key inner : String}
    (inside : ∀ outer ∈ visiting, TransGen defs.Contains outer key)
    (h : defs.Contains key inner) :
    ∀ outer ∈ key :: visiting, TransGen defs.Contains outer inner :=
  List.forall_mem_cons.2 ⟨.single h, fun outer houter => (inside outer houter).tail h⟩

section Step

variable {fuel : Nat} {visiting : List String} {key : String}

/-- The parts of a definition are measured right while these definitions are open. -/
def PartsEnsured (defs : Definitions) (fuel : Nat) (visiting : List String) (a : Aggregate) :
    Prop :=
  ∀ ty ∈ a.parts, Ensures defs (defs.partLayout fuel visiting ty)
    fun layout => defs.Lays [ty] [layout]

theorem ensures_structLayout (defined : defs.structs.contains key)
    (cycle : key ∈ visiting → TransGen defs.Contains key key)
    (parts : ∀ a, defs.structs.get? key = some a → key ∉ visiting →
      defs.PartsEnsured fuel (key :: visiting) a) :
    Ensures defs (structLayout defs (fuel + 1) visiting key) (defs.StructAnswer key) := by
  intro table right
  refine structLayout_cases
    (P := fun layout after => after.Right defs ∧ defs.StructAnswer key layout)
    (fun layout entry => ⟨right, .inl (right.structs entry)⟩) (fun _ missing => ?_)
    (fun a _ _ already => ⟨right, .inr ⟨cycle already, rfl⟩⟩) fun a _ found new => ?_
  · rw [Dict.contains, missing] at defined
    cases defined
  · obtain ⟨right, lays⟩ := ensures_all (parts a found new) table right
    have answer : defs.StructLays key _ := ⟨a, _, found, lays, rfl⟩
    exact ⟨right.insertStruct answer, .inl answer⟩

theorem ensures_unionLayout (defined : defs.unions.contains key)
    (cycle : key ∈ visiting → TransGen defs.Contains key key)
    (parts : ∀ a, defs.unions.get? key = some a → key ∉ visiting →
      defs.PartsEnsured fuel (key :: visiting) a) :
    Ensures defs (unionLayout defs (fuel + 1) visiting key) (defs.UnionAnswer key) := by
  intro table right
  refine unionLayout_cases
    (P := fun layout after => after.Right defs ∧ defs.UnionAnswer key layout)
    (fun layout entry => ⟨right, .inl (right.unions entry)⟩) (fun _ missing => ?_)
    (fun a _ _ already => ⟨right, .inr ⟨cycle already, rfl⟩⟩) fun a _ found new => ?_
  · rw [Dict.contains, missing] at defined
    cases defined
  · obtain ⟨right, lays⟩ := ensures_all (parts a found new) table right
    have answer : defs.UnionLays key _ := ⟨a, _, found, lays, rfl⟩
    exact ⟨right.insertUnion answer, .inl answer⟩

end Step

/-- Structs and tagged unions are measured by their definitions.  The induction is on the fuel: the
open definitions are distinct, so it never runs out, and a definition that is open already contains
itself. -/
theorem ensures_layouts {keys : List String}
    (hkeys : ∀ key, defs.structs.contains key ∨ defs.unions.contains key → key ∈ keys) :
    ∀ (fuel : Nat) (visiting : List String), Open defs keys fuel visiting → ∀ key : String,
      (∀ outer ∈ visiting, TransGen defs.Contains outer key) →
      (defs.structs.contains key →
        Ensures defs (structLayout defs fuel visiting key) (defs.StructAnswer key)) ∧
      (defs.unions.contains key →
        Ensures defs (unionLayout defs fuel visiting key) (defs.UnionAnswer key)) := by
  intro fuel
  induction fuel with
  | zero => exact fun visiting hopen => absurd rfl hopen.fuel_pos
  | succ fuel ih =>
    intro visiting hopen key inside
    have cycle (h : key ∈ visiting) : TransGen defs.Contains key key := inside key h
    have parts {a : Aggregate}
        (found : defs.structs.get? key = some a ∨ defs.unions.get? key = some a)
        (new : key ∉ visiting) : defs.PartsEnsured fuel (key :: visiting) a := by
      intro ty hty
      have known : key ∈ keys := hkeys key (found.imp (fun h => Option.isSome_iff_exists.2 ⟨a, h⟩)
        fun h => Option.isSome_iff_exists.2 ⟨a, h⟩)
      have step {inner : String} (h : (defs.base ty.stored).key? = some inner) :=
        ih _ (hopen.cons new known) inner (transGen_of_open inside ⟨a, found, ty, hty, h⟩)
      refine ensures_ofType (fun {inner} hbase => ?_) fun {inner} hbase => ?_
      · exact (step (by rw [hbase]; rfl)).1 (contains_of_base_struct hbase)
      · exact (step (by rw [hbase]; rfl)).2 (contains_of_base_union hbase)
    exact ⟨fun defined => ensures_structLayout defined cycle fun a found => parts (.inl found),
      fun defined => ensures_unionLayout defined cycle fun a found => parts (.inr found)⟩

theorem contains_structLayout {fuel : Nat} {key : String} (defined : defs.structs.contains key)
    (table : LayoutTable) : (structLayout defs (fuel + 1) [] key table).2.structs.contains key := by
  refine structLayout_cases (P := fun _ after => after.structs.contains key)
    (fun layout entry => Option.isSome_iff_exists.2 ⟨layout, entry⟩) (fun _ missing => ?_)
    (fun _ _ _ already => absurd already List.not_mem_nil)
    fun _ _ _ _ => (Dict.contains_insert ..).2 (.inl rfl)
  rw [Dict.contains, missing] at defined
  cases defined

theorem contains_unionLayout {fuel : Nat} {key : String} (defined : defs.unions.contains key)
    (table : LayoutTable) : (unionLayout defs (fuel + 1) [] key table).2.unions.contains key := by
  refine unionLayout_cases (P := fun _ after => after.unions.contains key)
    (fun layout entry => Option.isSome_iff_exists.2 ⟨layout, entry⟩) (fun _ missing => ?_)
    (fun _ _ _ already => absurd already List.not_mem_nil)
    fun _ _ _ _ => (Dict.contains_insert ..).2 (.inl rfl)
  rw [Dict.contains, missing] at defined
  cases defined

/-- One definition after the other, each with an entry. -/
theorem right_foldl {α : Type} {measure : String → Measure α} {post : String → α → Prop}
    {as : List Aggregate} (entered : LayoutTable → String → Prop)
    (grows : ∀ key, Grows [] (measure key))
    (ensures : ∀ a ∈ as, Ensures defs (measure a.fullPath) (post a.fullPath))
    (enters : ∀ a ∈ as, ∀ table, entered (measure a.fullPath table).2 a.fullPath)
    (stays : ∀ {table after key}, table.Grows [] after → entered table key → entered after key)
    {table : LayoutTable} (right : table.Right defs) :
    let final := as.foldl (fun table a => (measure a.fullPath table).2) table
    final.Right defs ∧ ∀ a ∈ as, entered final a.fullPath := by
  induction as generalizing table with
  | nil => exact ⟨right, nofun⟩
  | cons a as ih =>
    obtain ⟨ensuresHead, ensuresTail⟩ := List.forall_mem_cons.1 ensures
    obtain ⟨entersHead, entersTail⟩ := List.forall_mem_cons.1 enters
    obtain ⟨right, rest⟩ := ih ensuresTail entersTail (ensuresHead table right).1
    have first := stays (grows_foldl grows as _) (entersHead table)
    exact ⟨right, List.forall_mem_cons.2 ⟨first, rest⟩⟩

end Definitions

/-- The names of all definitions. -/
def Definitions.names (context : Context) : List String :=
  context.structs.map Aggregate.fullPath ++ context.unions.map Aggregate.fullPath

theorem Definitions.mem_names {context : Context} {symbols : SymbolTable} {fit : Nat → Nat}
    (key : String)
    (h : (ofContext context symbols fit).structs.contains key ∨
      (ofContext context symbols fit).unions.contains key) : key ∈ names context :=
  List.mem_append.2 (h.imp contains_iff.1 contains_iff.1)

/-- At the start nothing is open, and there is fuel for one more than all definitions. -/
theorem Definitions.open_ofContext (context : Context) (symbols : SymbolTable) (fit : Nat → Nat) :
    Open (.ofContext context symbols fit) (names context)
      (context.structs.length + context.unions.length + 1) [] :=
  ⟨.nil, List.nil_subset _, by simp [names]⟩

namespace LayoutTable

variable (context : Context) (symbols : SymbolTable) (fit : Nat → Nat)

/-- The table of a program is right, and every definition has an entry. -/
theorem compute_right :
    (compute context symbols fit).Right (.ofContext context symbols fit) ∧
      (∀ a ∈ context.structs, (compute context symbols fit).structs.contains a.fullPath) ∧
      ∀ a ∈ context.unions, (compute context symbols fit).unions.contains a.fullPath := by
  have measured (key : String) := Definitions.ensures_layouts Definitions.mem_names _ _
    (Definitions.open_ofContext context symbols fit) key nofun
  have grows := Definitions.grows_layouts (.ofContext context symbols fit)
    (context.structs.length + context.unions.length + 1) []
  have empty : Right (.ofContext context symbols fit) {} := ⟨nofun, nofun⟩
  have defined {as : List Aggregate} (a : Aggregate) (h : a ∈ as) :=
    Definitions.contains_iff.2 (List.mem_map_of_mem (f := Aggregate.fullPath) h)
  obtain ⟨right, hstructs⟩ := Definitions.right_foldl
    (fun table key => table.structs.contains key) (fun key => (grows key).1)
    (fun a h => (measured a.fullPath).1 (defined a h))
    (fun a h => Definitions.contains_structLayout (defined a h))
    (fun further => further.contains_struct) empty
  obtain ⟨right, hunions⟩ := Definitions.right_foldl
    (fun table key => table.unions.contains key) (fun key => (grows key).2)
    (fun a h => (measured a.fullPath).2 (defined a h))
    (fun a h => Definitions.contains_unionLayout (defined a h))
    (fun further => further.contains_union) right
  have further := Definitions.grows_foldl (fun key => (grows key).2) context.unions
  exact ⟨right, fun a h => (further _).contains_struct (hstructs a h), hunions⟩

/-- The table is right, and every definition has an entry. -/
structure Complete (defs : Definitions) (table : LayoutTable) : Prop extends table.Right defs where
  enteredStruct {key : String} (h : defs.structs.contains key) : table.structs.contains key
  enteredUnion {key : String} (h : defs.unions.contains key) : table.unions.contains key

theorem complete_compute :
    (compute context symbols fit).Complete (.ofContext context symbols fit) := by
  obtain ⟨right, structs, unions⟩ := compute_right context symbols fit
  refine ⟨right, fun {key} h => ?_, fun {key} h => ?_⟩
  · obtain ⟨a, ha, rfl⟩ := List.mem_map.1 (Definitions.contains_iff.1 h)
    exact structs a ha
  · obtain ⟨a, ha, rfl⟩ := List.mem_map.1 (Definitions.contains_iff.1 h)
    exact unions a ha

end LayoutTable

/-! ## Definitions without cycles -/

namespace LayoutTable.Right

variable {defs : Definitions} {table : LayoutTable} {key : String} {a : Aggregate}

/-- The entry of a struct is the only layout of its definition. -/
theorem get?_structs (right : table.Right defs) (acyclic : ∀ key, ¬ TransGen defs.Contains key key)
    (entered : table.structs.contains key) (found : defs.structs.get? key = some a)
    {fields : List Layout} (lays : defs.Lays a.parts fields) :
    table.structs.get? key = some (.ofParts defs.fit fields) := by
  obtain ⟨layout, entry⟩ := Option.isSome_iff_exists.1 entered
  obtain ⟨b, fields', found', lays', rfl⟩ := right.structs entry
  obtain rfl := Option.some.inj (found.symm.trans found')
  rw [entry, lays.unique acyclic lays']

/-- The entry of a tagged union is the only layout of its definition. -/
theorem get?_unions (right : table.Right defs) (acyclic : ∀ key, ¬ TransGen defs.Contains key key)
    (entered : table.unions.contains key) (found : defs.unions.get? key = some a)
    {members : List Layout} (lays : defs.Lays a.parts members) :
    table.unions.get? key = some (.ofParts defs.fit a.parts members) := by
  obtain ⟨layout, entry⟩ := Option.isSome_iff_exists.1 entered
  obtain ⟨b, members', found', lays', rfl⟩ := right.unions entry
  obtain rfl := Option.some.inj (found.symm.trans found')
  rw [entry, lays.unique acyclic lays']

end LayoutTable.Right

/-- There are no cycles if everything has a higher rank than what it contains. -/
theorem Definitions.acyclic_of_rank {context : Context} {symbols : SymbolTable}
    (rank : String → Nat)
    (h : ∀ a ∈ context.structs ++ context.unions, ∀ ty ∈ a.parts,
      ((Definitions.ofContext context symbols).base ty.stored).key?.all
        fun inner => rank inner < rank a.fullPath) (key : String) :
    ¬ TransGen (Definitions.ofContext context symbols).Contains key key := by
  have falls {outer inner : String}
      (contains : (Definitions.ofContext context symbols).Contains outer inner) :
      rank inner < rank outer := by
    obtain ⟨a, found, ty, hty, base⟩ := contains
    have ranked (ha : a ∈ context.structs ++ context.unions) : rank inner < rank a.fullPath := by
      have := h a ha ty hty
      rw [base] at this
      simpa using this
    rcases found with found | found
    · obtain ⟨ha, rfl⟩ := mem_of_get? found
      exact ranked (List.mem_append_left _ ha)
    · obtain ⟨ha, rfl⟩ := mem_of_get? found
      exact ranked (List.mem_append_right _ ha)
  have fallsFar {outer inner : String}
      (path : TransGen (Definitions.ofContext context symbols).Contains outer inner) :
      rank inner < rank outer := by
    induction path with
    | single contains => exact falls contains
    | tail _ contains ih => exact (falls contains).trans ih
  exact fun cycle => Nat.lt_irrefl _ (fallsFar cycle)

end Codegen
