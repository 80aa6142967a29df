import Codegen.Layout
import Codegen.Proofs.Lookup
import Mathlib.Logic.Relation
import Mathlib.Order.Bounds.Basic
import Mathlib.Order.MinMax

/-!
# Layouts without a table

The layout table is filled while definitions are opened inside each other.  `Lays` gives the same
layouts without it: the layout of a definition comes from the layouts of its parts, and a definition
inside itself counts as empty.  All this holds of any way to count sizes.
-/

namespace Codegen

open Relation (TransGen)

/-! ## Rounding up -/

theorem le_alignUp (offset align : Nat) : offset ≤ alignUp offset align := by
  have reached := Nat.lt_div_mul_add (a := offset + (max align 1 - 1)) (b := max align 1) (by omega)
  unfold alignUp
  omega

theorem alignUp_one (offset : Nat) : alignUp offset 1 = offset := by
  simp [alignUp]

theorem alignUp_zero (align : Nat) : alignUp 0 align = 0 := by
  have small : (0 + (max align 1 - 1)) / max align 1 = 0 := Nat.div_eq_of_lt (by omega)
  rw [alignUp, small, Nat.zero_mul]

/-- The least multiple of the alignment that is not below the offset. -/
theorem isLeast_alignUp (offset : Nat) {align : Nat} (h : 0 < align) :
    IsLeast {n | offset ≤ n ∧ align ∣ n} (alignUp offset align) := by
  have one : max align 1 = align := max_eq_left h
  refine ⟨⟨le_alignUp offset align, ?_⟩, ?_⟩
  · rw [alignUp, one]
    exact Nat.dvd_mul_left align _
  · rintro n ⟨hn, k, rfl⟩
    have quotient : (offset + (align - 1)) / align ≤ k := by
      rw [← Nat.lt_succ_iff, Nat.div_lt_iff_lt_mul h, Nat.succ_mul, Nat.mul_comm k]
      omega
    rw [alignUp, one, Nat.mul_comm align]
    exact Nat.mul_le_mul_right align quotient

/-! ## Looking up definitions -/

namespace Definitions

variable {as : List Aggregate} {a : Aggregate} {key : String}

theorem mem_of_get? (h : (Dict.ofList (as.map fun a => (a.fullPath, a))).get? key = some a) :
    a ∈ as ∧ a.fullPath = key := by
  obtain ⟨b, hb, same⟩ := List.mem_map.1 (Dict.mem_of_get?_ofList h)
  obtain ⟨rfl, rfl⟩ := Prod.mk.inj same
  exact ⟨hb, rfl⟩

theorem get?_of_mem (distinct : (as.map Aggregate.fullPath).Nodup) (h : a ∈ as) :
    (Dict.ofList (as.map fun a => (a.fullPath, a))).get? a.fullPath = some a :=
  Dict.get?_ofList (by rwa [List.map_map])
    (List.mem_map_of_mem (f := fun a : Aggregate => (a.fullPath, a)) h)

theorem get?_eq_some_iff (distinct : (as.map Aggregate.fullPath).Nodup) :
    (Dict.ofList (as.map fun a => (a.fullPath, a))).get? key = some a ↔
      a ∈ as ∧ a.fullPath = key :=
  ⟨mem_of_get?, fun ⟨ha, hkey⟩ => hkey ▸ get?_of_mem distinct ha⟩

theorem contains_iff : (Dict.ofList (as.map fun a => (a.fullPath, a))).contains key ↔
    key ∈ as.map Aggregate.fullPath := by
  rw [Dict.contains_ofList, List.map_map]
  rfl

end Definitions

/-! ## What a type is, as far as its layout goes -/

/-- A type that is not an array, seen from its layout. -/
inductive Base where
  | pointer
  | builtin (name : String) (layout : Layout)
  | enum
  | struct (key : String)
  | union (key : String)
  /-- Nothing that is defined. -/
  | unknown
  deriving DecidableEq

namespace Base

/-- The layout, if no definition has to be opened for it. -/
def fixed? : Base → Option Layout
  | pointer | enum => some ⟨8, 8⟩
  | builtin _ layout => some layout
  | unknown => some ⟨0, 1⟩
  | struct _ | union _ => none

/-- The definition that has to be opened. -/
def key? : Base → Option String
  | struct key | union key => some key
  | _ => none

end Base

/-- What a type that is not an array is. -/
def Definitions.base (defs : Definitions) (ty : Ty) : Base :=
  if ty.isPointer || ty.isReference then .pointer
  else
    match if ty.path = "" then primitiveLayout? ty.name else none with
    | some layout => .builtin ty.name layout
    | none =>
      if ty.isEnum || (defs.symbols.findEnum ty).isSome then .enum
      else if defs.structs.contains ty.fullPath then .struct ty.fullPath
      else if defs.unions.contains ty.fullPath then .union ty.fullPath
      else .unknown

namespace Definitions

/-- What is known of a type that is not an array, for each of the cases. -/
inductive Classified (defs : Definitions) (ty : Ty) : Base → Prop where
  | pointer (levels : ty.isPointer ∨ ty.isReference) : Classified defs ty .pointer
  | builtin {layout : Layout} (bare : ¬ (ty.isPointer ∨ ty.isReference)) (path : ty.path = "")
      (size : primitiveLayout? ty.name = some layout) :
    Classified defs ty (.builtin ty.name layout)
  | enum (bare : ¬ (ty.isPointer ∨ ty.isReference))
      (named : ty.path = "" → primitiveLayout? ty.name = none)
      (declared : ty.isEnum ∨ (defs.symbols.findEnum ty).isSome) : Classified defs ty .enum
  | struct (bare : ¬ (ty.isPointer ∨ ty.isReference))
      (named : ty.path = "" → primitiveLayout? ty.name = none) (noEnum : ¬ ty.isEnum)
      (found : defs.structs.contains ty.fullPath) : Classified defs ty (.struct ty.fullPath)
  | union (bare : ¬ (ty.isPointer ∨ ty.isReference))
      (named : ty.path = "" → primitiveLayout? ty.name = none) (noEnum : ¬ ty.isEnum)
      (found : defs.unions.contains ty.fullPath) : Classified defs ty (.union ty.fullPath)
  | unknown : Classified defs ty .unknown

theorem classified (defs : Definitions) (ty : Ty) : defs.Classified ty (defs.base ty) := by
  unfold base
  split
  · rename_i levels
    exact .pointer (by simpa using levels)
  · rename_i bare
    replace bare : ¬ (ty.isPointer ∨ ty.isReference) := by simpa using bare
    split
    · rename_i layout size
      obtain ⟨path, size⟩ := Option.ite_none_right_eq_some.1 size
      exact .builtin bare path size
    · rename_i noBuiltin
      have named (h : ty.path = "") : primitiveLayout? ty.name = none := by
        rwa [if_pos h] at noBuiltin
      split
      · rename_i declared
        exact .enum bare named (by simpa using declared)
      · rename_i undeclared
        have noEnum : ¬ ty.isEnum := fun h => undeclared (by simp [h])
        split
        · exact .struct bare named noEnum ‹_›
        · split
          · exact .union bare named noEnum ‹_›
          · exact .unknown

end Definitions

namespace Ty

/-- What a type stores: itself, or the element of an array. -/
def stored (ty : Ty) : Ty := if ty.isArray then ty.pointee.notArray else ty

/-- The layout of a type that stores something of the given layout. -/
def storing (ty : Ty) (fit : Nat → Nat) (layout : Layout) : Layout :=
  if ty.isArray then ⟨fit (layout.size * ty.arrayLength), layout.align⟩ else layout

theorem align_storing (ty : Ty) (fit : Nat → Nat) (layout : Layout) :
    (ty.storing fit layout).align = layout.align := by
  unfold storing
  split <;> rfl

end Ty

/-! ## Layouts without a table -/

/-- Size and alignment behind fields of the given layouts. -/
def Layout.behind (fit : Nat → Nat) : List Layout → (size align : Nat) → Layout
  | [], size, align => ⟨size, align⟩
  | field :: rest, size, align =>
    behind fit rest (fit (fit (alignUp size field.align) + field.size)) (max align field.align)

/-- The layout of a struct with fields of the given layouts. -/
def Layout.ofParts (fit : Nat → Nat) (fields : List Layout) : Layout :=
  (Layout.behind fit fields 0 1).close fit

namespace UnionLayout

/-- The storage with further members. -/
def Storage.addAll (storage : Storage) : List Ty → List Layout → Storage
  | ty :: tys, layout :: layouts => (storage.add ty layout).addAll tys layouts
  | _, _ => storage

/-- The layout of a tagged union with the given members. -/
def ofParts (fit : Nat → Nat) (members : List Ty) (layouts : List Layout) : UnionLayout :=
  close fit (({} : Storage).addAll members layouts)

end UnionLayout

/-! ## The storage of a tagged union -/

namespace UnionLayout.Storage

/-- The storage has room for the members and is aligned for them; one of the most aligned members
stands for it. -/
structure Covers (storage : Storage) (members : List (Ty × Layout)) : Prop where
  size {member : Ty × Layout} (h : member ∈ members) : member.2.size ≤ storage.size
  align {member : Ty × Layout} (h : member ∈ members) : member.2.align ≤ storage.align
  none (h : storage.widest = none) : storage.align = 0
  widest {ty : Ty} (h : storage.widest = some ty) :
    (ty, (⟨storage.widestSize, storage.align⟩ : Layout)) ∈ members

variable {storage : Storage} {members : List (Ty × Layout)}

theorem Covers.add (h : storage.Covers members) (ty : Ty) (layout : Layout) :
    (storage.add ty layout).Covers (members ++ [(ty, layout)]) := by
  have inFront {member : Ty × Layout} (hm : member ∈ members) :
      member ∈ members ++ [(ty, layout)] := List.mem_append_left _ hm
  unfold Storage.add
  split
  · rename_i wider
    refine ⟨fun hm => ?_, fun hm => ?_, nofun, fun hty => ?_⟩
    · rcases List.mem_append.1 hm with hm | hm
      · exact le_max_of_le_left (h.size hm)
      · exact List.mem_singleton.1 hm ▸ le_max_right _ _
    · rcases List.mem_append.1 hm with hm | hm
      · exact (h.align hm).trans wider.le
      · exact List.mem_singleton.1 hm ▸ le_rfl
    · obtain rfl := Option.some.inj hty
      exact List.mem_append_right _ (List.mem_singleton_self _)
  · rename_i narrow
    refine ⟨fun hm => ?_, fun hm => ?_, h.none, fun hty => inFront (h.widest hty)⟩
    · rcases List.mem_append.1 hm with hm | hm
      · exact le_max_of_le_left (h.size hm)
      · exact List.mem_singleton.1 hm ▸ le_max_right _ _
    · rcases List.mem_append.1 hm with hm | hm
      · exact h.align hm
      · exact List.mem_singleton.1 hm ▸ Nat.le_of_not_lt narrow

/-- What holds of no members and is kept by one more member holds of all members. -/
theorem addAll_induction {P : Storage → List (Ty × Layout) → Prop} (start : P {} [])
    (step : ∀ {storage members}, P storage members → ∀ ty layout,
      P (storage.add ty layout) (members ++ [(ty, layout)]))
    (tys : List Ty) (layouts : List Layout) :
    P (({} : Storage).addAll tys layouts) (tys.zip layouts) := by
  have further {storage : Storage} {members : List (Ty × Layout)} (h : P storage members) :
      P (storage.addAll tys layouts) (members ++ tys.zip layouts) := by
    induction tys generalizing storage members layouts with
    | nil => simpa [Storage.addAll] using h
    | cons ty tys ih =>
      cases layouts with
      | nil => simpa [Storage.addAll] using h
      | cons layout layouts =>
        have rest := ih layouts (step h ty layout)
        rwa [List.append_assoc] at rest
  exact further start

theorem covers_addAll (tys : List Ty) (layouts : List Layout) :
    (({} : Storage).addAll tys layouts).Covers (tys.zip layouts) :=
  addAll_induction ⟨nofun, nofun, fun _ => rfl, nofun⟩ (fun h => h.add) tys layouts

/-- If every member has an alignment, one of them stands for the storage. -/
theorem Covers.exists_widest (h : storage.Covers members)
    (positive : ∀ member ∈ members, 0 < member.2.align) (nonempty : members ≠ []) :
    ∃ widest, storage.widest = some widest := by
  refine Option.ne_none_iff_exists'.1 fun none => ?_
  obtain ⟨first, rest, rfl⟩ := List.exists_cons_of_ne_nil nonempty
  have zero := h.none none
  have bounded := h.align (List.mem_cons_self (a := first))
  have aligned := positive first List.mem_cons_self
  omega

end UnionLayout.Storage

/-! ## Alignments -/

/-- The alignments of layouts. -/
def alignments : List Nat := [1, 2, 4, 8]

theorem max_mem_alignments {a b : Nat} (ha : a ∈ alignments) (hb : b ∈ alignments) :
    max a b ∈ alignments := by
  rcases max_choice a b with h | h
  · rwa [h]
  · rwa [h]

theorem pos_of_mem_alignments {align : Nat} (h : align ∈ alignments) : 0 < align := by
  revert align
  decide

namespace Layout

variable {fit : Nat → Nat} {fields : List Layout}
  (h : ∀ field ∈ fields, field.align ∈ alignments)
include h

theorem align_behind_mem (size : Nat) {align : Nat} (halign : align ∈ alignments) :
    (behind fit fields size align).align ∈ alignments := by
  induction fields generalizing size align with
  | nil => exact halign
  | cons field rest ih =>
    obtain ⟨hfield, hrest⟩ := List.forall_mem_cons.1 h
    exact ih hrest _ (max_mem_alignments halign hfield)

theorem align_ofParts_mem : (ofParts fit fields).align ∈ alignments := by
  unfold ofParts close
  split
  · decide
  · exact align_behind_mem h 0 (by decide)

end Layout

/-- The members of a tagged union are no more aligned than its tag. -/
theorem UnionLayout.Storage.align_addAll {tys : List Ty} {layouts : List Layout}
    (h : ∀ layout ∈ layouts, layout.align ∈ alignments) :
    (({} : Storage).addAll tys layouts).align ∈ 0 :: alignments := by
  have covers := covers_addAll tys layouts
  cases hwidest : (({} : Storage).addAll tys layouts).widest with
  | none => exact List.mem_cons.2 (.inl (covers.none hwidest))
  | some ty =>
    have member := (List.of_mem_zip (covers.widest hwidest)).2
    exact List.mem_cons_of_mem 0 (h _ member)

theorem UnionLayout.align_ofParts {fit : Nat → Nat} {tys : List Ty} {layouts : List Layout}
    (h : ∀ layout ∈ layouts, layout.align ∈ alignments) :
    (UnionLayout.ofParts fit tys layouts).layout.align = 8 := by
  have small (align : Nat) (h : align ∈ 0 :: alignments) : max align 8 = 8 := by
    revert align
    decide
  exact small _ (Storage.align_addAll h)

/-! ## Layouts by definition -/

namespace Definitions

variable (defs : Definitions)

/-- One definition has a part that stores the other. -/
def Contains (outer inner : String) : Prop :=
  ∃ a, (defs.structs.get? outer = some a ∨ defs.unions.get? outer = some a) ∧
    ∃ ty ∈ a.parts, (defs.base ty.stored).key? = some inner

/-- The layouts of types, in order.  A definition that contains itself may also count as empty,
which it does inside itself. -/
inductive Lays : List Ty → List Layout → Prop where
  | nil : Lays [] []
  | fixed {ty : Ty} {layout : Layout} {tys : List Ty} {layouts : List Layout}
      (base : (defs.base ty.stored).fixed? = some layout) (rest : Lays tys layouts) :
    Lays (ty :: tys) (ty.storing defs.fit layout :: layouts)
  | struct {ty : Ty} {key : String} {a : Aggregate} {fields : List Layout} {tys : List Ty}
      {layouts : List Layout} (base : defs.base ty.stored = .struct key)
      (found : defs.structs.get? key = some a) (inner : Lays a.parts fields)
      (rest : Lays tys layouts) :
    Lays (ty :: tys) (ty.storing defs.fit (.ofParts defs.fit fields) :: layouts)
  | union {ty : Ty} {key : String} {a : Aggregate} {members : List Layout} {tys : List Ty}
      {layouts : List Layout} (base : defs.base ty.stored = .union key)
      (found : defs.unions.get? key = some a) (inner : Lays a.parts members)
      (rest : Lays tys layouts) :
    Lays (ty :: tys)
      (ty.storing defs.fit (UnionLayout.ofParts defs.fit a.parts members).layout :: layouts)
  | structInside {ty : Ty} {key : String} {tys : List Ty} {layouts : List Layout}
      (base : defs.base ty.stored = .struct key) (cycle : TransGen defs.Contains key key)
      (rest : Lays tys layouts) :
    Lays (ty :: tys) (ty.storing defs.fit ⟨0, 1⟩ :: layouts)
  | unionInside {ty : Ty} {key : String} {tys : List Ty} {layouts : List Layout}
      (base : defs.base ty.stored = .union key) (cycle : TransGen defs.Contains key key)
      (rest : Lays tys layouts) :
    Lays (ty :: tys) (ty.storing defs.fit ⟨8, 8⟩ :: layouts)

/-- The layout of a struct, by its definition. -/
def StructLays (key : String) (layout : Layout) : Prop :=
  ∃ a fields, defs.structs.get? key = some a ∧ defs.Lays a.parts fields ∧
    layout = .ofParts defs.fit fields

/-- The layout of a tagged union, by its definition. -/
def UnionLays (key : String) (layout : UnionLayout) : Prop :=
  ∃ a members, defs.unions.get? key = some a ∧ defs.Lays a.parts members ∧
    layout = .ofParts defs.fit a.parts members

variable {defs} {ty : Ty} {tys : List Ty} {layout : Layout} {layouts : List Layout}

theorem Lays.cons (first : defs.Lays [ty] [layout]) (rest : defs.Lays tys layouts) :
    defs.Lays (ty :: tys) (layout :: layouts) := by
  cases first with
  | fixed base _ => exact .fixed base rest
  | struct base found inner _ => exact .struct base found inner rest
  | union base found inner _ => exact .union base found inner rest
  | structInside base cycle _ => exact .structInside base cycle rest
  | unionInside base cycle _ => exact .unionInside base cycle rest

theorem Lays.length_eq (h : defs.Lays tys layouts) : tys.length = layouts.length := by
  induction h with
  | nil => rfl
  | fixed _ _ ih | struct _ _ _ _ _ ih | union _ _ _ _ _ ih | structInside _ _ _ ih
  | unionInside _ _ _ ih => exact congrArg (· + 1) ih

theorem primitiveLayout?_align {name : String} (h : primitiveLayout? name = some layout) :
    layout.align ∈ alignments := by
  unfold primitiveLayout? at h
  grind [alignments]

theorem fixed?_base_align (h : (defs.base ty).fixed? = some layout) :
    layout.align ∈ alignments := by
  have classified := defs.classified ty
  generalize defs.base ty = base at h classified
  cases classified with
  | builtin _ _ size =>
    obtain rfl := Option.some.inj h
    exact primitiveLayout?_align size
  | pointer | enum | unknown =>
    obtain rfl := Option.some.inj h
    decide
  | struct | union => cases h

theorem Lays.align_mem (h : defs.Lays tys layouts) :
    ∀ layout ∈ layouts, layout.align ∈ alignments := by
  induction h with
  | nil => exact List.forall_mem_nil _
  | fixed base _ ih =>
    refine List.forall_mem_cons.2 ⟨?_, ih⟩
    rw [Ty.align_storing]
    exact fixed?_base_align base
  | struct _ _ _ _ ihInner ih =>
    refine List.forall_mem_cons.2 ⟨?_, ih⟩
    rw [Ty.align_storing]
    exact Layout.align_ofParts_mem ihInner
  | union _ _ _ _ ihInner ih =>
    refine List.forall_mem_cons.2 ⟨?_, ih⟩
    rw [Ty.align_storing, UnionLayout.align_ofParts ihInner]
    decide
  | structInside _ _ _ ih | unionInside _ _ _ ih =>
    refine List.forall_mem_cons.2 ⟨?_, ih⟩
    rw [Ty.align_storing]
    decide

/-- Every layout has an alignment. -/
theorem Lays.align_pos (h : defs.Lays tys layouts) : ∀ layout ∈ layouts, 0 < layout.align :=
  fun layout hlayout => pos_of_mem_alignments (h.align_mem layout hlayout)

/-- In definitions without cycles a type has one layout. -/
theorem Lays.unique (acyclic : ∀ key, ¬ TransGen defs.Contains key key)
    (h : defs.Lays tys layouts) {layouts' : List Layout} (h' : defs.Lays tys layouts') :
    layouts = layouts' := by
  induction h generalizing layouts' with
  | nil => cases h'; rfl
  | fixed base _ ih =>
    cases h' with
    | fixed base' rest' =>
      obtain rfl := Option.some.inj (base.symm.trans base')
      rw [ih rest']
    | struct base' | union base' => rw [base'] at base; cases base
    | structInside _ cycle | unionInside _ cycle => exact absurd cycle (acyclic _)
  | struct base found _ _ ihInner ih =>
    cases h' with
    | fixed base' => rw [base] at base'; cases base'
    | struct base' found' inner' rest' =>
      obtain rfl := Base.struct.inj (base.symm.trans base')
      obtain rfl := Option.some.inj (found.symm.trans found')
      rw [ihInner inner', ih rest']
    | union base' => rw [base] at base'; cases base'
    | structInside _ cycle | unionInside _ cycle => exact absurd cycle (acyclic _)
  | union base found _ _ ihInner ih =>
    cases h' with
    | fixed base' => rw [base] at base'; cases base'
    | struct base' => rw [base] at base'; cases base'
    | union base' found' inner' rest' =>
      obtain rfl := Base.union.inj (base.symm.trans base')
      obtain rfl := Option.some.inj (found.symm.trans found')
      rw [ihInner inner', ih rest']
    | structInside _ cycle | unionInside _ cycle => exact absurd cycle (acyclic _)
  | structInside _ cycle | unionInside _ cycle => exact absurd cycle (acyclic _)

end Definitions

/-- Some member stands for the storage of a tagged union with members. -/
theorem Definitions.Lays.exists_widest {defs : Definitions} {tys : List Ty}
    {layouts : List Layout} (h : defs.Lays tys layouts) (members : tys ≠ []) :
    ∃ widest, (({} : UnionLayout.Storage).addAll tys layouts).widest = some widest := by
  refine (UnionLayout.Storage.covers_addAll tys layouts).exists_widest
    (fun member hmember => h.align_pos _ (List.of_mem_zip hmember).2) fun none => members ?_
  rw [← List.map_fst_zip h.length_eq.le, none, List.map_nil]

end Codegen
