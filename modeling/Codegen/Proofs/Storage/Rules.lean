import Codegen.Proofs.Storage.Words
import Mathlib.Data.List.Perm.Basic
import Mathlib.Data.List.Perm.Lattice

/-!
# The rules of layouts

The layouts of structs and tagged unions said by their rules: where fields are placed, how far they
are rounded up, which member stands for the storage.  The entries of the layout table follow these
rules, where the layout of a part is looked up in the same table, as long as the size by the rules
is below `2 ^ 64`.

This needs definitions that do not contain themselves.  Then no stand-in for an open definition ever
gets into a layout, so that the entries do not depend on the order of the definitions.
-/

namespace Codegen

open Relation (TransGen)

/-! ## Structs -/

namespace Layout

/-- Fields of the given layouts lie one behind the other from `start` to `stop`: each begins at the
first multiple of its alignment that is not in front of the end of the one before. -/
inductive Placed : (start : Nat) → (fields : List Layout) → (stop : Nat) → Prop where
  | nil (start : Nat) : Placed start [] start
  | cons {start offset stop : Nat} {field : Layout} {fields : List Layout}
      (first : IsLeast {n | start ≤ n ∧ field.align ∣ n} offset)
      (rest : Placed (offset + field.size) fields stop) :
    Placed start (field :: fields) stop

/-- The layout of a struct with fields of the given layouts: their end is rounded up to the largest
alignment.  A struct without a byte counts as one byte. -/
inductive OfStruct (fields : List Layout) : Layout → Prop where
  | empty (placed : Placed 0 fields 0) : OfStruct fields ⟨1, 1⟩
  | filled {stop size align : Nat} (placed : Placed 0 fields stop) (nonzero : stop ≠ 0)
      (largest : IsGreatest {a | a ∈ 1 :: fields.map Layout.align} align)
      (rounded : IsLeast {n | stop ≤ n ∧ align ∣ n} size) :
    OfStruct fields ⟨size, align⟩

variable {fields : List Layout}

theorem Placed.unique {start stop stop' : Nat} (h : Placed start fields stop)
    (h' : Placed start fields stop') : stop = stop' := by
  induction h with
  | nil => cases h'; rfl
  | cons first _ ih =>
    cases h' with
    | cons first' rest' =>
      obtain rfl := first.unique first'
      exact ih rest'

/-- The rules leave one layout for a struct. -/
theorem OfStruct.unique {layout layout' : Layout} (h : OfStruct fields layout)
    (h' : OfStruct fields layout') : layout = layout' := by
  cases h with
  | empty placed =>
    cases h' with
    | empty => rfl
    | filled placed' nonzero => exact absurd (placed'.unique placed) nonzero
  | filled placed nonzero largest rounded =>
    cases h' with
    | empty placed' => exact absurd (placed.unique placed') nonzero
    | filled placed' _ largest' rounded' =>
      obtain rfl := placed.unique placed'
      obtain rfl := largest.unique largest'
      rw [rounded.unique rounded']

theorem placed_behind (positive : ∀ field ∈ fields, 0 < field.align) (start align : Nat) :
    Placed start fields (behind id fields start align).size := by
  induction fields generalizing start align with
  | nil => exact .nil start
  | cons field fields ih =>
    obtain ⟨hfield, hfields⟩ := List.forall_mem_cons.1 positive
    exact .cons (isLeast_alignUp start hfield) (ih hfields _ _)

theorem isGreatest_align_behind (fields : List Layout) (start align : Nat) :
    IsGreatest {a | a ∈ align :: fields.map Layout.align} (behind id fields start align).align := by
  induction fields generalizing start align with
  | nil => simp [behind]
  | cons field fields ih =>
    obtain ⟨among, above⟩ := ih (alignUp start field.align + field.size) (max align field.align)
    refine ⟨?_, fun a ha => ?_⟩
    · rcases List.mem_cons.1 among with h | h
      · rcases max_choice align field.align with hmax | hmax
        · exact List.mem_cons.2 (.inl (h.trans hmax))
        · exact List.mem_cons_of_mem _ (List.mem_cons.2 (.inl (h.trans hmax)))
      · exact List.mem_cons_of_mem _ (List.mem_cons_of_mem _ h)
    · have larger := above List.mem_cons_self
      rcases List.mem_cons.1 ha with rfl | ha
      · exact (le_max_left _ _).trans larger
      · rcases List.mem_cons.1 ha with rfl | ha
        · exact (le_max_right _ _).trans larger
        · exact above (List.mem_cons_of_mem _ ha)

theorem ofStruct_ofParts (positive : ∀ field ∈ fields, 0 < field.align) :
    OfStruct fields (ofParts id fields) := by
  have placed := placed_behind positive 0 1
  have largest := isGreatest_align_behind fields 0 1
  have one : 1 ≤ (behind id fields 0 1).align := largest.2 List.mem_cons_self
  unfold ofParts close
  split
  · rename_i none
    rw [none] at placed
    exact .empty placed
  · rename_i some
    exact .filled placed some largest (isLeast_alignUp _ one)

end Layout

/-! ## Tagged unions -/

namespace UnionLayout

/-- The layout of a tagged union with the given members: a tag of 8 bytes and storage for the
largest member, which is rounded up to the largest alignment.  The first of the most aligned members
stands for the storage. -/
structure OfUnion (members : List (Ty × Layout)) (layout : UnionLayout) : Prop where
  align : layout.layout.align = 8
  size : IsLeast {n | 8 + layout.storage ≤ n ∧ 8 ∣ n} layout.layout.size
  empty (bare : members = []) : layout.storage = 0 ∧ layout.widest = none
  storage (nonempty : members ≠ []) : ∃ size align,
    IsGreatest {s | s ∈ members.map fun member => member.2.size} size ∧
    IsGreatest {a | a ∈ members.map fun member => member.2.align} align ∧
    IsLeast {n | size ≤ n ∧ align ∣ n} layout.storage
  widest (nonempty : members ≠ []) : ∃ before ty member after,
    members = before ++ (ty, member) :: after ∧
    layout.widest = some ty ∧ layout.widestSize = member.size ∧
    (∀ other ∈ before, other.2.align < member.align) ∧
    ∀ other ∈ after, other.2.align ≤ member.align

namespace Storage

/-- The storage is just as large as its largest member, and the first of the most aligned members
stands for it. -/
structure Fits (storage : Storage) (members : List (Ty × Layout)) : Prop
    extends storage.Covers members where
  largest : storage.size = 0 ∨ ∃ member ∈ members, member.2.size = storage.size
  first {ty : Ty} (h : storage.widest = some ty) : ∃ before after,
    members = before ++ (ty, ⟨storage.widestSize, storage.align⟩) :: after ∧
    ∀ other ∈ before, other.2.align < storage.align

variable {storage : Storage} {members : List (Ty × Layout)}

theorem Fits.add (h : storage.Fits members) (ty : Ty) (layout : Layout) :
    (storage.add ty layout).Fits (members ++ [(ty, layout)]) := by
  have largest : max storage.size layout.size = 0 ∨
      ∃ member ∈ members ++ [(ty, layout)], member.2.size = max storage.size layout.size := by
    rcases max_choice storage.size layout.size with hmax | hmax
    · rw [hmax]
      exact h.largest.imp_right fun ⟨member, hmember, hsize⟩ =>
        ⟨member, List.mem_append_left _ hmember, hsize⟩
    · rw [hmax]
      exact .inr ⟨_, List.mem_append_right _ (List.mem_singleton_self _), rfl⟩
  refine { h.toCovers.add ty layout with largest := ?_, first := fun {widest} hwidest => ?_ }
  · unfold Storage.add
    split <;> exact largest
  · unfold Storage.add at hwidest ⊢
    split at hwidest
    · rename_i wider
      obtain rfl := Option.some.inj hwidest
      rw [if_pos wider]
      exact ⟨members, [], rfl, fun other hother => (h.align hother).trans_lt wider⟩
    · rename_i narrow
      obtain ⟨before, after, rfl, hbefore⟩ := h.first hwidest
      rw [if_neg narrow]
      exact ⟨before, after ++ [(ty, layout)], by simp, hbefore⟩

theorem fits_addAll (tys : List Ty) (layouts : List Layout) :
    (({} : Storage).addAll tys layouts).Fits (tys.zip layouts) :=
  addAll_induction ⟨⟨nofun, nofun, fun _ => rfl, nofun⟩, .inl rfl, nofun⟩ (fun h => h.add) tys
    layouts

theorem Fits.isGreatest_size (h : storage.Fits members) (nonempty : members ≠ []) :
    IsGreatest {s | s ∈ members.map fun member => member.2.size} storage.size := by
  refine ⟨?_, fun s hs => ?_⟩
  · rcases h.largest with zero | ⟨member, hmember, hsize⟩
    · obtain ⟨first, rest, rfl⟩ := List.exists_cons_of_ne_nil nonempty
      have first := h.size (List.mem_cons_self (a := first))
      exact List.mem_map.2 ⟨_, List.mem_cons_self, by omega⟩
    · exact List.mem_map.2 ⟨member, hmember, hsize⟩
  · obtain ⟨member, hmember, rfl⟩ := List.mem_map.1 hs
    exact h.size hmember

/-- Members that have alignments, and storage for them. -/
theorem Fits.widest_of_pos (h : storage.Fits members)
    (positive : ∀ member ∈ members, 0 < member.2.align) (nonempty : members ≠ []) :
    ∃ before ty after, storage.widest = some ty ∧
      members = before ++ (ty, ⟨storage.widestSize, storage.align⟩) :: after ∧
      (∀ other ∈ before, other.2.align < storage.align) ∧
      IsGreatest {a | a ∈ members.map fun member => member.2.align} storage.align := by
  obtain ⟨ty, hwidest⟩ := h.exists_widest positive nonempty
  obtain ⟨before, after, hmembers, hbefore⟩ := h.first hwidest
  refine ⟨before, ty, after, hwidest, hmembers, hbefore,
    List.mem_map.2 ⟨_, h.widest hwidest, rfl⟩, fun a ha => ?_⟩
  obtain ⟨member, hmember, rfl⟩ := List.mem_map.1 ha
  exact h.align hmember

theorem Fits.bare (h : storage.Fits []) : storage.size = 0 ∧ storage.widest = none := by
  refine ⟨h.largest.resolve_right nofun, Option.eq_none_iff_forall_ne_some.2 fun ty hty => ?_⟩
  cases h.widest hty

end Storage

theorem ofUnion_close {storage : Storage} {members : List (Ty × Layout)}
    (fits : storage.Fits members) (aligned : ∀ member ∈ members, member.2.align ∈ alignments)
    (small : storage.align ∈ 0 :: alignments) : OfUnion members (close id storage) := by
  have tag : max storage.align 8 = 8 ∧ alignUp 8 storage.align = 8 := by
    generalize storage.align = align at small
    revert align
    decide
  have positive := fun member hmember => pos_of_mem_alignments (aligned member hmember)
  refine ⟨tag.1, ?_, ?_, fun nonempty => ?_, fun nonempty => ?_⟩
  · change IsLeast _ (alignUp (alignUp 8 storage.align + _) (max storage.align 8))
    rw [tag.1, tag.2]
    exact isLeast_alignUp _ (by decide)
  · rintro rfl
    obtain ⟨size, widest⟩ := fits.bare
    refine ⟨?_, widest⟩
    change alignUp storage.size storage.align = 0
    rw [size, alignUp_zero]
  · obtain ⟨_, _, _, -, hmembers, -, greatest⟩ := fits.widest_of_pos positive nonempty
    have align : 0 < storage.align :=
      positive _ (hmembers ▸ List.mem_append_right _ List.mem_cons_self)
    exact ⟨_, _, fits.isGreatest_size nonempty, greatest, isLeast_alignUp _ align⟩
  · obtain ⟨before, ty, after, hwidest, hmembers, hbefore, greatest⟩ :=
      fits.widest_of_pos positive nonempty
    refine ⟨before, ty, _, after, hmembers, hwidest, rfl, hbefore, fun other hother => ?_⟩
    refine fits.align ?_
    rw [hmembers]
    exact List.mem_append_right _ (List.mem_cons_of_mem _ hother)

theorem ofUnion_ofParts (tys : List Ty) {layouts : List Layout}
    (aligned : ∀ layout ∈ layouts, layout.align ∈ alignments) :
    OfUnion (tys.zip layouts) (ofParts id tys layouts) :=
  ofUnion_close (Storage.fits_addAll tys layouts)
    (fun _ hmember => aligned _ (List.of_mem_zip hmember).2) (Storage.align_addAll aligned)

end UnionLayout

/-! ## The table -/

/-- The layout of a type, by the entries of the table.  An array is as large as its elements. -/
def LayoutTable.layout? (table : LayoutTable) (defs : Definitions) (ty : Ty) : Option Layout :=
  let stored :=
    match defs.base ty.stored with
    | .struct key => table.structs.get? key
    | .union key => (table.unions.get? key).map UnionLayout.layout
    | base => base.fixed?
  stored.map (ty.storing id)

/-- The layout of a type in words, when `exact` is its layout. -/
structure Layout.Wraps (exact layout : Layout) : Prop where
  align : layout.align = exact.align
  small (h : exact.size < UInt64.size) : layout = exact

namespace Layout.Wraps

theorem storing (ty : Ty) (layout : Layout) :
    Wraps (ty.storing id layout) (ty.storing word layout) :=
  ⟨by rw [Ty.align_storing, Ty.align_storing], Ty.storing_word⟩

variable {exacts layouts : List Layout} (h : List.Forall₂ Wraps exacts layouts)
include h

theorem eq_of_small (small : ∀ exact ∈ exacts, exact.size < UInt64.size) : layouts = exacts := by
  induction h with
  | nil => rfl
  | cons first _ ih =>
    obtain ⟨smallFirst, smallRest⟩ := List.forall_mem_cons.1 small
    rw [first.small smallFirst, ih smallRest]

theorem align_mem (aligned : ∀ layout ∈ layouts, layout.align ∈ alignments) :
    ∀ exact ∈ exacts, exact.align ∈ alignments := by
  induction h with
  | nil => exact List.forall_mem_nil _
  | cons first _ ih =>
    obtain ⟨alignedFirst, alignedRest⟩ := List.forall_mem_cons.1 aligned
    exact List.forall_mem_cons.2 ⟨first.align ▸ alignedFirst, ih alignedRest⟩

/-- A struct follows the rules if its size by the rules is small enough. -/
theorem ofStruct (aligned : ∀ layout ∈ layouts, layout.align ∈ alignments) :
    ∃ exact, OfStruct exacts exact ∧ (exact.size < UInt64.size → ofParts word layouts = exact) := by
  have positive := fun exact hexact => pos_of_mem_alignments (align_mem h aligned exact hexact)
  refine ⟨ofParts id exacts, ofStruct_ofParts positive, fun small => ?_⟩
  rw [eq_of_small h fun exact hexact => (size_le_ofParts hexact).trans_lt small]
  exact ofParts_word small

/-- So does a tagged union. -/
theorem ofUnion {tys : List Ty} (length : tys.length = layouts.length)
    (aligned : ∀ layout ∈ layouts, layout.align ∈ alignments) :
    ∃ exact, UnionLayout.OfUnion (tys.zip exacts) exact ∧
      (exact.layout.size < UInt64.size → UnionLayout.ofParts word tys layouts = exact) := by
  refine ⟨.ofParts id tys exacts, UnionLayout.ofUnion_ofParts tys (align_mem h aligned),
    fun small => ?_⟩
  rw [eq_of_small h fun exact hexact =>
    (UnionLayout.size_le_ofParts (length.trans h.length_eq.symm) hexact).trans_lt small]
  exact UnionLayout.ofParts_word small

end Layout.Wraps

namespace LayoutTable

variable {defs : Definitions} {table : LayoutTable}

/-- In definitions without cycles, the layouts of types in words are those of the table. -/
theorem Complete.exists_layout? (complete : table.Complete defs) (words : defs.fit = word)
    (acyclic : ∀ key, ¬ TransGen defs.Contains key key) {tys : List Ty} {layouts : List Layout}
    (lays : defs.Lays tys layouts) :
    ∃ exacts, tys.map (table.layout? defs) = exacts.map some ∧
      List.Forall₂ Layout.Wraps exacts layouts := by
  have further {ty : Ty} {tys : List Ty} {layout : Layout} {layouts : List Layout}
      (first : table.layout? defs ty = some (ty.storing id layout))
      (rest : ∃ exacts, tys.map (table.layout? defs) = exacts.map some ∧
        List.Forall₂ Layout.Wraps exacts layouts) :
      ∃ exacts, (ty :: tys).map (table.layout? defs) = exacts.map some ∧
        List.Forall₂ Layout.Wraps exacts (ty.storing defs.fit layout :: layouts) := by
    obtain ⟨exacts, found, wraps⟩ := rest
    refine ⟨ty.storing id layout :: exacts, ?_, .cons (words ▸ .storing ty layout) wraps⟩
    rw [List.map_cons, List.map_cons, first, found]
  induction lays with
  | nil => exact ⟨[], rfl, .nil⟩
  | @fixed ty layout tys layouts base _ ih =>
    refine further ?_ ih
    unfold layout?
    cases hbase : defs.base ty.stored with
    | struct | union => rw [hbase] at base; cases base
    | pointer | builtin | enum | unknown =>
      rw [hbase] at base
      simp only [base, Option.map_some]
  | @struct ty key a fields tys layouts base found inner _ _ ih =>
    have entered := complete.enteredStruct (Option.isSome_iff_exists.2 ⟨a, found⟩)
    have entry := complete.get?_structs acyclic entered found inner
    exact further (by simp only [layout?, base, entry, Option.map_some]) ih
  | @union ty key a members tys layouts base found inner _ _ ih =>
    have entered := complete.enteredUnion (Option.isSome_iff_exists.2 ⟨a, found⟩)
    have entry := complete.get?_unions acyclic entered found inner
    exact further (by simp only [layout?, base, entry, Option.map_some]) ih
  | structInside _ cycle | unionInside _ cycle => exact absurd cycle (acyclic _)

/-- Only definitions have entries. -/
theorem Right.defined_struct (right : table.Right defs) {key : String}
    (h : table.structs.contains key) : defs.structs.contains key := by
  obtain ⟨layout, entry⟩ := Option.isSome_iff_exists.1 h
  obtain ⟨a, -, found, -⟩ := right.structs entry
  exact Option.isSome_iff_exists.2 ⟨a, found⟩

theorem Right.defined_union (right : table.Right defs) {key : String}
    (h : table.unions.contains key) : defs.unions.contains key := by
  obtain ⟨layout, entry⟩ := Option.isSome_iff_exists.1 h
  obtain ⟨a, -, found, -⟩ := right.unions entry
  exact Option.isSome_iff_exists.2 ⟨a, found⟩

/-- Definitions without cycles have one table. -/
theorem Complete.unique (acyclic : ∀ key, ¬ TransGen defs.Contains key key)
    (complete : table.Complete defs) {table' : LayoutTable} (complete' : table'.Complete defs) :
    table = table' := by
  have structs : table.structs = table'.structs := by
    refine Dict.eq_of_get? (fun entry => ?_) fun bound => complete.enteredStruct ?_
    · obtain ⟨a, fields, found, lays, rfl⟩ := complete.structs entry
      have entered := complete'.enteredStruct (Option.isSome_iff_exists.2 ⟨a, found⟩)
      exact complete'.get?_structs acyclic entered found lays
    · exact complete'.defined_struct bound
  have unions : table.unions = table'.unions := by
    refine Dict.eq_of_get? (fun entry => ?_) fun bound => complete.enteredUnion ?_
    · obtain ⟨a, members, found, lays, rfl⟩ := complete.unions entry
      have entered := complete'.enteredUnion (Option.isSome_iff_exists.2 ⟨a, found⟩)
      exact complete'.get?_unions acyclic entered found lays
    · exact complete'.defined_union bound
  cases table
  cases table'
  cases structs
  cases unions
  rfl

end LayoutTable

/-- Of definitions with distinct names the order does not matter. -/
theorem Definitions.dict_perm {as bs : List Aggregate} (perm : as.Perm bs)
    (distinct : (bs.map Aggregate.fullPath).Nodup) :
    Dict.ofList (as.map fun a => (a.fullPath, a)) =
      Dict.ofList (bs.map fun a => (a.fullPath, a)) := by
  have distinct' : (as.map Aggregate.fullPath).Nodup := (perm.map _).nodup_iff.2 distinct
  refine Dict.ext_get? fun key => Option.ext fun a => ?_
  rw [get?_eq_some_iff distinct, get?_eq_some_iff distinct', perm.mem_iff]

theorem Definitions.ofContext_perm {context : Context} (symbols : SymbolTable)
    (distinctStructs : (context.structs.map Aggregate.fullPath).Nodup)
    (distinctUnions : (context.unions.map Aggregate.fullPath).Nodup)
    {structs unions : List Aggregate} (hstructs : structs.Perm context.structs)
    (hunions : unions.Perm context.unions) :
    Definitions.ofContext { context with structs, unions } symbols =
      .ofContext context symbols := by
  unfold ofContext
  rw [dict_perm hstructs distinctStructs, dict_perm hunions distinctUnions]

namespace Sample

/-- An array of three pairs. -/
def threePairs : Ty where
  name := "pair"
  path := "m"
  depth := 1
  isArray := true
  arrayLength := 3

/-- A tagged union of a byte, a struct and a number; the struct holds pairs that are defined behind
it. -/
def shuffled : Context where
  structs :=
    [ { name := "outer", path := "m", parts := [.u8, .named "pair" "m", threePairs] },
      { name := "pair", path := "m", parts := [.i32, .bool] } ]
  unions := [{ name := "choice", path := "m", parts := [.u8, .named "outer" "m", .f64] }]

/-- An array whose bytes cannot be counted in a word. -/
def hugeArray : Ty where
  name := "i64"
  depth := 1
  isArray := true
  arrayLength := 2305843009213693952

/-- A struct of nothing but such an array. -/
def huge : Context where
  structs := [{ name := "huge", path := "m", parts := [hugeArray] }]

end Sample

end Codegen
