import Codegen.Lowering.Module
import Codegen.Proofs.Operands
import Codegen.Proofs.Storage.Payload
import Codegen.Proofs.Storage.Words
import Mathlib.Algebra.GroupWithZero.Nat

/-!
# Room for every member

What the declared types of a module occupy in memory is computed here from the declarations alone:
numbers and pointers have their natural sizes, an array repeats its element, and a struct has its
fields in order, each aligned, and is padded at its end.  A struct without a byte in its fields
occupies nothing then, while the layout table counts one byte for it, and the table counts in words.
Without such structs and with sizes that fit into words both agree (`occupy_of_lays`), and the
storage that a tagged union declares holds each of its members.
-/

namespace Codegen

open Relation (TransGen ReflTransGen)

/-! ## Declared types -/

/-- A printed type, read as a type. -/
inductive Form where
  | int (bits : Nat)
  | float
  | double
  | pointer (target : String)
  | array (length : Nat) (element : Form)
  | struct (key : String)
  | union (key : String)
  /-- A type without values, or one that nothing declares. -/
  | other (text : String)
  deriving DecidableEq

namespace Form

/-- The printed type. -/
def text : Form → String
  | int bits => "i" ++ Text.decimal bits
  | float => "float"
  | double => "double"
  | pointer target => target ++ "*"
  | array length element => "[" ++ Text.decimal length ++ " x " ++ element.text ++ "]"
  | struct key => "%struct." ++ Text.mangle key
  | union key => "%tagged_union." ++ Text.mangle key
  | other text => text

/-- What numbers and pointers occupy: their own size, at multiples of it. -/
def natural? : Form → Option Layout
  | int bits => if bits ∈ [1, 8, 16, 32, 64] then some ⟨(bits + 7) / 8, (bits + 7) / 8⟩ else none
  | float => some ⟨4, 4⟩
  | double | pointer _ => some ⟨8, 8⟩
  | array .. | struct _ | union _ | other _ => none

/-- The printed form of a built-in type. -/
def ofBuiltin (name : String) : Form :=
  if name ∈ ["i64", "u64"] then int 64
  else if name ∈ ["i32", "u32"] then int 32
  else if name ∈ ["i16", "u16"] then int 16
  else if name ∈ ["i8", "u8"] then int 8
  else if name = "f64" then double
  else if name = "f32" then float
  else if name = "bool" then int 1
  else other name

end Form

/-- What fields of the given layouts occupy as a struct: one behind the other, each at a multiple of
its alignment, up to a multiple of the largest one. -/
def Layout.record (fields : List Layout) : Layout :=
  let last := Layout.behind id fields 0 1
  ⟨alignUp last.size last.align, last.align⟩

/-- Declared structs, and declared tagged unions without their tag. -/
structure Declarations where
  structs : String → Option (List Form)
  unions : String → Option (List Form)

/-- What types occupy, in order. -/
inductive Declarations.Occupy (decls : Declarations) : List Form → List Layout → Prop where
  | nil : decls.Occupy [] []
  | natural {form : Form} {layout : Layout} {forms : List Form} {layouts : List Layout}
      (size : form.natural? = some layout) (rest : decls.Occupy forms layouts) :
    decls.Occupy (form :: forms) (layout :: layouts)
  | array {length : Nat} {element : Form} {layout : Layout} {forms : List Form}
      {layouts : List Layout} (inner : decls.Occupy [element] [layout])
      (rest : decls.Occupy forms layouts) :
    decls.Occupy (.array length element :: forms)
      (⟨layout.size * length, layout.align⟩ :: layouts)
  | struct {key : String} {parts : List Form} {fields : List Layout} {forms : List Form}
      {layouts : List Layout} (declared : decls.structs key = some parts)
      (inner : decls.Occupy parts fields) (rest : decls.Occupy forms layouts) :
    decls.Occupy (.struct key :: forms) (.record fields :: layouts)
  | union {key : String} {parts : List Form} {fields : List Layout} {forms : List Form}
      {layouts : List Layout} (declared : decls.unions key = some parts)
      (inner : decls.Occupy (.int 64 :: parts) fields) (rest : decls.Occupy forms layouts) :
    decls.Occupy (.union key :: forms) (.record fields :: layouts)

namespace Declarations

variable {decls : Declarations} {form : Form} {forms : List Form} {layout : Layout}
  {layouts : List Layout}

theorem Occupy.cons (first : decls.Occupy [form] [layout]) (rest : decls.Occupy forms layouts) :
    decls.Occupy (form :: forms) (layout :: layouts) := by
  cases first with
  | natural size _ => exact .natural size rest
  | array inner _ => exact .array inner rest
  | struct declared inner _ => exact .struct declared inner rest
  | union declared inner _ => exact .union declared inner rest

theorem Occupy.of_mem (h : decls.Occupy forms layouts) (hmem : (form, layout) ∈ forms.zip layouts) :
    decls.Occupy [form] [layout] := by
  induction h with
  | nil => cases hmem
  | natural size _ ih =>
    rcases List.mem_cons.1 hmem with hmem | hmem
    · cases hmem
      exact .natural size .nil
    · exact ih hmem
  | array inner _ _ ih =>
    rcases List.mem_cons.1 hmem with hmem | hmem
    · cases hmem
      exact .array inner .nil
    · exact ih hmem
  | struct declared inner _ _ ih =>
    rcases List.mem_cons.1 hmem with hmem | hmem
    · cases hmem
      exact .struct declared inner .nil
    · exact ih hmem
  | union declared inner _ _ ih =>
    rcases List.mem_cons.1 hmem with hmem | hmem
    · cases hmem
      exact .union declared inner .nil
    · exact ih hmem

/-- What a type occupies follows from the declarations. -/
theorem Occupy.unique (h : decls.Occupy forms layouts) {layouts' : List Layout}
    (h' : decls.Occupy forms layouts') : layouts = layouts' := by
  induction h generalizing layouts' with
  | nil => cases h'; rfl
  | natural size _ ih =>
    cases h' with
    | natural size' rest' =>
      obtain rfl := Option.some.inj (size.symm.trans size')
      rw [ih rest']
    | array | struct | union => cases size
  | array _ _ ihInner ih =>
    cases h' with
    | natural size' => cases size'
    | array inner' rest' =>
      have same := ihInner inner'
      rw [List.singleton_inj] at same
      rw [same, ih rest']
  | struct declared _ _ ihInner ih =>
    cases h' with
    | natural size' => cases size'
    | struct declared' inner' rest' =>
      obtain rfl := Option.some.inj (declared.symm.trans declared')
      rw [ihInner inner', ih rest']
  | union declared _ _ ihInner ih =>
    cases h' with
    | natural size' => cases size'
    | union declared' inner' rest' =>
      obtain rfl := Option.some.inj (declared.symm.trans declared')
      rw [ihInner inner', ih rest']

end Declarations

/-! ## The declarations of a program -/

/-- Whether there are values of the type. -/
def Base.hasValues : Base → Bool
  | builtin name _ => name ≠ "void"
  | unknown => false
  | pointer | enum | struct _ | union _ => true

namespace Definitions

variable (defs : Definitions) (types : TypeMap)

/-- The printed type of a type that is not an array. -/
def plainForm (ty : Ty) : Form :=
  match defs.base ty with
  | .pointer =>
    let levels := TypeMap.levels ty
    .pointer (TypeMap.pointable (types.baseName ty) levels ++ Text.stars (levels - 1))
  | .builtin name _ => .ofBuiltin name
  | .enum => .int 64
  | .struct key => .struct key
  | .union key => .union key
  | .unknown => .other (types.map ty)

/-- The printed type of a field or member. -/
def form (ty : Ty) : Form :=
  if ty.isArray then .array ty.arrayLength (defs.plainForm types (TypeMap.element ty))
  else defs.plainForm types ty

/-- The parts that a tagged union declares behind its tag. -/
def payload (layout : UnionLayout) : List Form :=
  match layout.widest with
  | none => []
  | some widest =>
    defs.form types widest ::
      if layout.widestSize < layout.storage then
        [.array (layout.storage - layout.widestSize) (.int 8)]
      else []

/-- The declared types of a program. -/
def declarations (layouts : LayoutTable) : Declarations where
  structs key := (defs.structs.get? key).map fun a => a.parts.map (defs.form types)
  unions key := (layouts.unions.get? key).map (defs.payload types)

/-- A type that can be stored: a number, a truth value, a pointer, an enum, a struct, a tagged
union, or an array of these that is no reference. -/
def Storable (ty : Ty) : Prop :=
  (ty.isArray → ¬ ty.isReference) ∧ (defs.base ty.stored).hasValues

instance (ty : Ty) : Decidable (defs.Storable ty) := inferInstanceAs (Decidable (_ ∧ _))

end Definitions

/-- The symbols name the structs, tagged unions and enums of the definitions as such. -/
structure TypeMap.Describes (types : TypeMap) (defs : Definitions) : Prop where
  struct {key : String} (h : defs.structs.contains key) : types.kinds.get? key = some .struct
  union {key : String} (h : defs.unions.contains key) : types.kinds.get? key = some .union
  enum {ty : Ty} (h : (defs.symbols.findEnum ty).isSome) :
    types.kinds.get? ty.fullPath = some .enum

/-! ## Printed types are read right -/

namespace Form

theorem text_int8 : (int 8).text = "i8" := by decide +kernel

theorem text_int64 : (int 64).text = "i64" := by decide +kernel

theorem text_ofBuiltin {name base : String} (h : basicType? name = some base) :
    (ofBuiltin name).text = base := by
  have int1 : (int 1).text = "i1" := by decide +kernel
  have int16 : (int 16).text = "i16" := by decide +kernel
  have int32 : (int 32).text = "i32" := by decide +kernel
  unfold basicType? at h
  grind [ofBuiltin, text, text_int8, text_int64]

theorem natural?_ofBuiltin {name : String} {layout : Layout}
    (h : primitiveLayout? name = some layout) (hvoid : name ≠ "void") :
    (ofBuiltin name).natural? = some layout := by
  unfold primitiveLayout? at h
  grind [ofBuiltin, natural?]

end Form

namespace TypeMap

variable {types : TypeMap} {defs : Definitions} {ty : Ty}

theorem basicType?_eq_none {name : String} :
    basicType? name = none ↔ primitiveLayout? name = none := by
  unfold basicType? primitiveLayout?
  grind

/-- A type without pointer levels is printed by its base. -/
theorem map_of_bare (h : ¬ (ty.isPointer ∨ ty.isReference)) : types.map ty = types.baseName ty := by
  have none : levels ty = 0 := by
    simp only [Ty.isPointer, decide_eq_true_eq, not_or] at h
    rw [levels, if_neg h.2]
    omega
  rw [map, none]
  simp [pointable, Text.stars]

/-- A type with pointer levels is printed as a pointer. -/
theorem map_of_levels (h : ty.isPointer ∨ ty.isReference) :
    types.map ty =
      pointable (types.baseName ty) (levels ty) ++ Text.stars (levels ty - 1) ++ "*" := by
  have some : 0 < levels ty := by
    simp only [Ty.isPointer, decide_eq_true_eq] at h
    unfold levels
    rcases h with h | h
    · omega
    · rw [if_pos h]
      omega
  rw [map, String.append_assoc, ← Text.stars_succ, Nat.sub_add_cancel some]

/-- A named type without pointer levels is printed by its declaration. -/
theorem baseName_of_named (h : ty.path = "" → primitiveLayout? ty.name = none) :
    types.baseName ty = if ty.isEnum then "i64" else types.declaredName ty := by
  unfold baseName
  split
  · rename_i base hbase
    obtain ⟨path, hbase⟩ := Option.ite_none_right_eq_some.1 hbase
    rw [basicType?_eq_none.2 (h path)] at hbase
    cases hbase
  · rfl

end TypeMap

namespace Definitions

variable {defs : Definitions} {types : TypeMap} {ty : Ty}

theorem text_plainForm (described : types.Describes defs) :
    (defs.plainForm types ty).text = types.map ty := by
  have classified := defs.classified ty
  unfold plainForm
  generalize defs.base ty = base at classified
  cases classified with
  | pointer levels => exact (TypeMap.map_of_levels levels).symm
  | builtin bare path size =>
    have hbase : ∃ base, basicType? ty.name = some base := by
      rw [← Option.isSome_iff_exists, ← Option.ne_none_iff_isSome, Ne,
        TypeMap.basicType?_eq_none, size]
      nofun
    obtain ⟨base, hbase⟩ := hbase
    have printed : types.baseName ty = base := by
      rw [TypeMap.baseName, if_pos path, hbase]
    rw [TypeMap.map_of_bare bare, printed]
    exact Form.text_ofBuiltin hbase
  | enum bare named declared =>
    refine Form.text_int64.trans ?_
    rw [TypeMap.map_of_bare bare, TypeMap.baseName_of_named named]
    split
    · rfl
    · rename_i noEnum
      rw [TypeMap.declaredName, described.enum (declared.resolve_left noEnum)]
  | struct bare named noEnum found =>
    rw [TypeMap.map_of_bare bare, TypeMap.baseName_of_named named, if_neg noEnum,
      TypeMap.declaredName, described.struct found]
    rfl
  | union bare named noEnum found =>
    rw [TypeMap.map_of_bare bare, TypeMap.baseName_of_named named, if_neg noEnum,
      TypeMap.declaredName, described.union found]
    rfl
  | unknown => rfl

theorem text_form (described : types.Describes defs) (ty : Ty) :
    (defs.form types ty).text = types.mapStored ty := by
  unfold form TypeMap.mapStored
  split
  · rw [Form.text, text_plainForm described]
    rfl
  · exact text_plainForm described

/-- The parts of a declared tagged union are printed as they are declared. -/
theorem text_payload (described : types.Describes defs) (layout : UnionLayout) :
    (defs.payload types layout).map Form.text = Lowering.unionParts types layout := by
  unfold payload Lowering.unionParts
  cases layout.widest with
  | none => rfl
  | some widest =>
    dsimp only
    rw [List.map_cons, text_form described]
    split
    · rw [List.map_singleton, Form.text, Form.text_int8, String.append_assoc, String.append_assoc]
      rfl
    · rfl

/-! ## Types occupy what the table says -/

theorem form_eq (h : defs.Storable ty) :
    defs.form types ty =
      if ty.isArray then .array ty.arrayLength (defs.plainForm types ty.stored)
      else defs.plainForm types ty.stored := by
  unfold form Ty.stored
  split
  · rename_i harray
    have element : TypeMap.element ty = ty.pointee.notArray := by
      have noReference : ty.isReference = false := by simpa using h.1 harray
      simp only [TypeMap.element, Ty.pointee, Ty.notArray, Ty.notReference, noReference]
    rw [element]
  · rfl

variable {decls : Declarations}

theorem occupy_storing (h : defs.Storable ty) {layout : Layout}
    (stored : decls.Occupy [defs.plainForm types ty.stored] [layout]) :
    decls.Occupy [defs.form types ty] [ty.storing id layout] := by
  rw [form_eq h, Ty.storing]
  split
  · exact .array stored .nil
  · exact stored

theorem natural?_plainForm (h : defs.Storable ty) {layout : Layout}
    (fixed : (defs.base ty.stored).fixed? = some layout) :
    (defs.plainForm types ty.stored).natural? = some layout := by
  obtain ⟨-, stored⟩ := h
  have classified := defs.classified ty.stored
  unfold plainForm
  generalize defs.base ty.stored = base at classified stored fixed
  cases classified with
  | builtin _ _ size =>
    rw [← Option.some.inj fixed]
    exact Form.natural?_ofBuiltin size (by simpa [Base.hasValues] using stored)
  | pointer | enum =>
    rw [← Option.some.inj fixed]
    rfl
  | struct | union => cases fixed
  | unknown => cases stored

theorem occupy_of_mem {tys : List Ty} {layouts : List Layout}
    (h : decls.Occupy (tys.map (defs.form types)) layouts) {layout : Layout}
    (hmem : (ty, layout) ∈ tys.zip layouts) : decls.Occupy [defs.form types ty] [layout] := by
  refine h.of_mem ?_
  rw [List.zip_map_left]
  exact List.mem_map.2 ⟨_, hmem, rfl⟩

/-- A tagged union occupies its tag and its storage, and the storage is the size of its parts. -/
theorem occupy_payload {tys : List Ty} {layouts : List Layout} (lays : defs.Lays tys layouts)
    (h : decls.Occupy (tys.map (defs.form types)) layouts) :
    ∃ room, decls.Occupy (defs.payload types (.ofParts id tys layouts)) room ∧
      (room.map Layout.size).sum = (UnionLayout.ofParts id tys layouts).storage ∧
      Layout.record (⟨8, 8⟩ :: room) = (UnionLayout.ofParts id tys layouts).layout := by
  by_cases members : tys = []
  · subst members
    cases lays
    exact ⟨[], .nil, by decide, by decide⟩
  · obtain ⟨widest, hwidest⟩ := lays.exists_widest members
    have covers := UnionLayout.Storage.covers_addAll tys layouts
    have parts : UnionLayout.ofParts id tys layouts =
      .close id (({} : UnionLayout.Storage).addAll tys layouts) := rfl
    generalize ({} : UnionLayout.Storage).addAll tys layouts = storage at *
    have hmem := covers.widest hwidest
    have first := occupy_of_mem h hmem
    have fits : storage.widestSize ≤ alignUp storage.size storage.align :=
      (covers.size hmem).trans (le_alignUp _ _)
    have align : max (max 1 8) storage.align = max storage.align 8 := by omega
    rw [parts, payload]
    simp only [UnionLayout.close, hwidest, id]
    generalize alignUp storage.size storage.align = size at *
    split
    · rename_i filled
      have byte : decls.Occupy [.int 8] [⟨1, 1⟩] := .natural rfl .nil
      have filler : decls.Occupy [.array (size - storage.widestSize) (.int 8)]
        [⟨1 * (size - storage.widestSize), 1⟩] := .array byte .nil
      refine ⟨_, first.cons filler, ?_, ?_⟩
      · simp only [List.map_cons, List.map_nil, List.sum_cons, List.sum_nil]
        omega
      · have whole : alignUp 8 storage.align + storage.widestSize +
            1 * (size - storage.widestSize) = alignUp 8 storage.align + size := by omega
        have larger : max (max storage.align 8) 1 = max storage.align 8 := by omega
        simp only [Layout.record, Layout.behind, alignUp_zero, alignUp_one, align, larger,
          Nat.zero_add, whole, id]
    · rename_i full
      refine ⟨_, first, ?_, ?_⟩
      · simp only [List.map_cons, List.map_nil, List.sum_cons, List.sum_nil]
        omega
      · have whole : storage.widestSize = size := by omega
        simp only [Layout.record, Layout.behind, alignUp_zero, align, Nat.zero_add, whole, id]

/-- Definitions without cycles, with parts that can be stored, and their table with exact sizes. -/
structure Settled (defs : Definitions) (table : LayoutTable) : Prop where
  exact : defs.fit = id
  right : table.Right defs
  entered {key : String} (h : defs.unions.contains key) : table.unions.contains key
  acyclic (key : String) : ¬ TransGen defs.Contains key key
  storable {key : String} {a : Aggregate}
    (h : defs.structs.get? key = some a ∨ defs.unions.get? key = some a) :
    ∀ ty ∈ a.parts, defs.Storable ty

/-- The entry of a tagged union is the only layout of its definition. -/
theorem Settled.get?_unions {table : LayoutTable} (settled : defs.Settled table) {key : String}
    {a : Aggregate} (found : defs.unions.get? key = some a) {members : List Layout}
    (lays : defs.Lays a.parts members) :
    table.unions.get? key = some (.ofParts id a.parts members) := by
  rw [← settled.exact]
  exact settled.right.get?_unions settled.acyclic
    (settled.entered (Option.isSome_iff_exists.2 ⟨a, found⟩)) found lays

/-- No struct inside the definition occupies nothing. -/
def Solid (defs : Definitions) (decls : Declarations) (key : String) : Prop :=
  ∀ inner layout, ReflTransGen defs.Contains key inner →
    decls.Occupy [.struct inner] [layout] → layout.size ≠ 0

theorem Solid.inside {key inner : String} (h : defs.Solid decls key)
    (contains : defs.Contains key inner) : defs.Solid decls inner :=
  fun innermost layout path => h innermost layout (path.head contains)

/-- A type that can be stored, with no struct inside that occupies nothing. -/
structure Firm (defs : Definitions) (decls : Declarations) (ty : Ty) : Prop where
  storable : defs.Storable ty
  solid {key : String} (h : (defs.base ty.stored).key? = some key) : defs.Solid decls key

theorem Solid.firm {table : LayoutTable} {key : String} {a : Aggregate}
    (h : defs.Solid decls key) (settled : defs.Settled table)
    (found : defs.structs.get? key = some a ∨ defs.unions.get? key = some a) :
    ∀ ty ∈ a.parts, defs.Firm decls ty := fun ty hty =>
  { storable := settled.storable found ty hty
    solid := fun inner => h.inside ⟨a, found, ty, hty, inner⟩ }

/-- In definitions without cycles and without structs that occupy nothing, types occupy what the
table says.  The induction follows the layouts; a struct with a byte in it is laid out as it is
declared, and a tagged union is declared by its entry in the table. -/
theorem occupy_of_lays {table : LayoutTable} (settled : defs.Settled table) {tys : List Ty}
    {layouts : List Layout} (lays : defs.Lays tys layouts)
    (parts : ∀ ty ∈ tys, defs.Firm (defs.declarations types table) ty) :
    (defs.declarations types table).Occupy (tys.map (defs.form types)) layouts := by
  induction lays with
  | nil => exact .nil
  | fixed base _ ih =>
    obtain ⟨firm, rest⟩ := List.forall_mem_cons.1 parts
    rw [settled.exact]
    refine (occupy_storing firm.storable ?_).cons (ih rest)
    exact .natural (natural?_plainForm firm.storable base) .nil
  | @struct ty key a fields tys layouts base found _ _ ihInner ih =>
    obtain ⟨firm, rest⟩ := List.forall_mem_cons.1 parts
    have solid : defs.Solid (defs.declarations types table) key := firm.solid (by rw [base]; rfl)
    have declared : (defs.declarations types table).structs key =
        some (a.parts.map (defs.form types)) := by
      simp only [declarations, found, Option.map_some]
    have whole : (defs.declarations types table).Occupy [.struct key] [.record fields] :=
      .struct declared (ihInner (solid.firm settled (.inl found))) .nil
    have some : (Layout.behind id fields 0 1).size ≠ 0 := by
      intro none
      refine solid key _ .refl whole ?_
      rw [Layout.record, none, alignUp_zero]
    have same : Layout.ofParts id fields = .record fields := if_neg some
    have form : defs.plainForm types ty.stored = .struct key := by rw [plainForm, base]
    rw [settled.exact, same]
    exact (occupy_storing firm.storable (form ▸ whole)).cons (ih rest)
  | @union ty key a members tys layouts base found inner _ ihInner ih =>
    obtain ⟨firm, rest⟩ := List.forall_mem_cons.1 parts
    have solid : defs.Solid (defs.declarations types table) key := firm.solid (by rw [base]; rfl)
    obtain ⟨room, hroom, -, hlayout⟩ :=
      occupy_payload inner (ihInner (solid.firm settled (.inr found)))
    have declared : (defs.declarations types table).unions key =
        some (defs.payload types (.ofParts id a.parts members)) := by
      simp only [declarations, settled.get?_unions found inner, Option.map_some]
    have tag : (defs.declarations types table).Occupy [.int 64] [⟨8, 8⟩] := .natural rfl .nil
    have whole : (defs.declarations types table).Occupy [.union key] [.record (⟨8, 8⟩ :: room)] :=
      .union declared (tag.cons hroom) .nil
    have form : defs.plainForm types ty.stored = .union key := by rw [plainForm, base]
    rw [settled.exact, ← hlayout]
    exact (occupy_storing firm.storable (form ▸ whole)).cons (ih rest)
  | structInside _ cycle | unionInside _ cycle => exact absurd cycle (settled.acyclic _)

end Definitions

theorem Definitions.settled_compute {context : Context} {symbols : SymbolTable}
    (acyclic : ∀ key, ¬ TransGen (Definitions.ofContext context symbols id).Contains key key)
    (storable : ∀ a ∈ context.structs ++ context.unions, ∀ ty ∈ a.parts,
      (Definitions.ofContext context symbols id).Storable ty) :
    (Definitions.ofContext context symbols id).Settled (.compute context symbols id) := by
  obtain ⟨right, -, entered⟩ := LayoutTable.compute_right context symbols id
  refine ⟨rfl, right, fun {key} h => ?_, acyclic, fun {key a} h => storable a ?_⟩
  · obtain ⟨a, found⟩ := Option.isSome_iff_exists.1 h
    obtain ⟨ha, rfl⟩ := mem_of_get? found
    exact entered a ha
  · rcases h with found | found
    · exact List.mem_append_left _ (mem_of_get? found).1
    · exact List.mem_append_right _ (mem_of_get? found).1

/-- The storage that a tagged union declares behind its tag is at least as large as each of its
members, both as large as the declared types make them, if no struct inside the tagged union
occupies nothing and no exact size is beyond a word. -/
theorem declared_storage_holds_every_member {context : Context} {symbols : SymbolTable}
    (distinct : ((context.structs ++ context.unions).map Aggregate.fullPath).Nodup)
    (acyclic : ∀ key, ¬ TransGen (Definitions.ofContext context symbols).Contains key key)
    (storable : ∀ a ∈ context.structs ++ context.unions, ∀ ty ∈ a.parts,
      (Definitions.ofContext context symbols).Storable ty)
    (described : (TypeMap.ofSymbols symbols).Describes (.ofContext context symbols))
    {a : Aggregate} (ha : a ∈ context.unions)
    (solid : (Definitions.ofContext context symbols).Solid
      ((Definitions.ofContext context symbols).declarations (.ofSymbols symbols)
        (.compute context symbols)) a.fullPath)
    (inWords : (LayoutTable.compute context symbols id).InWords) :
    let defs := Definitions.ofContext context symbols
    let types := TypeMap.ofSymbols symbols
    let layouts := LayoutTable.compute context symbols
    let decls := defs.declarations types layouts
    (∀ s ∈ context.structs, ∃ parts, decls.structs s.fullPath = some parts ∧
      (Lowering.structDecl types layouts s).parts = parts.map Form.text) ∧
    (∀ u ∈ context.unions, ∃ decl parts, Lowering.unionDecl? types layouts u = some decl ∧
      decls.unions u.fullPath = some parts ∧ decl.parts = parts.map Form.text) ∧
    ∃ payload room, decls.unions a.fullPath = some payload ∧ decls.Occupy payload room ∧
      ∀ ty ∈ a.parts, ∃ layout, (defs.form types ty).text = types.mapStored ty ∧
        decls.Occupy [defs.form types ty] [layout] ∧
        layout.size ≤ (room.map Layout.size).sum := by
  intro defs types layouts decls
  rw [List.map_append] at distinct
  obtain ⟨distinctStructs, distinctUnions, -⟩ := List.nodup_append'.1 distinct
  have same : layouts = .compute context symbols id := LayoutTable.compute_word inWords
  have settled : (Definitions.ofContext context symbols id).Settled layouts :=
    same ▸ Definitions.settled_compute acyclic storable
  refine ⟨fun s hs => ?_, fun u hu => ?_, ?_⟩
  · refine ⟨s.parts.map (defs.form types),
      congrArg (Option.map _) (Definitions.get?_of_mem distinctStructs hs), ?_⟩
    rw [List.map_map]
    exact List.map_congr_left fun ty _ => (Definitions.text_form described ty).symm
  · obtain ⟨layout, entry⟩ := Option.isSome_iff_exists.1
      (settled.entered (Definitions.contains_iff.2 (List.mem_map_of_mem hu)))
    refine ⟨_, defs.payload types layout, congrArg (Option.map _) entry,
      congrArg (Option.map _) entry, ?_⟩
    exact (Definitions.text_payload described layout).symm
  · have found : (Definitions.ofContext context symbols id).unions.get? a.fullPath = some a :=
      Definitions.get?_of_mem distinctUnions ha
    obtain ⟨layout, entry⟩ := Option.isSome_iff_exists.1
      (settled.entered (Option.isSome_iff_exists.2 ⟨a, found⟩))
    obtain ⟨b, members, found', lays, rfl⟩ := settled.right.unions entry
    obtain rfl := Option.some.inj (found.symm.trans found')
    have firm : ∀ ty ∈ a.parts, (Definitions.ofContext context symbols id).Firm decls ty :=
      Definitions.Solid.firm solid settled (.inr found)
    have occupy : decls.Occupy (a.parts.map (defs.form types)) members :=
      Definitions.occupy_of_lays settled lays firm
    obtain ⟨room, hroom, hsum, -⟩ := Definitions.occupy_payload lays occupy
    refine ⟨_, room, congrArg (Option.map _) entry, hroom, fun ty hty => ?_⟩
    obtain ⟨⟨ty, layout⟩, hmem, rfl⟩ : ∃ member ∈ a.parts.zip members, member.1 = ty := by
      rwa [← List.mem_map, List.map_fst_zip lays.length_eq.le]
    refine ⟨layout, Definitions.text_form described ty, Definitions.occupy_of_mem occupy hmem, ?_⟩
    rw [hsum]
    exact ((UnionLayout.Storage.covers_addAll _ _).size hmem).trans (le_alignUp _ _)

theorem TypeMap.describes_ofContext {context : Context} {symbols : SymbolTable} {types : TypeMap}
    (structs : ∀ a ∈ context.structs, types.kinds.get? a.fullPath = some .struct)
    (unions : ∀ a ∈ context.unions, types.kinds.get? a.fullPath = some .union)
    (enums : ∀ m ∈ symbols.modules.entries, ∀ e ∈ m.2.enums.entries,
      types.kinds.get? (Ty.qualify m.1 e.1) = some .enum) :
    types.Describes (.ofContext context symbols) where
  struct h := by
    obtain ⟨a, ha, rfl⟩ := List.mem_map.1 (Definitions.contains_iff.1 h)
    exact structs a ha
  union h := by
    obtain ⟨a, ha, rfl⟩ := List.mem_map.1 (Definitions.contains_iff.1 h)
    exact unions a ha
  enum {ty} h := by
    obtain ⟨e, found⟩ := Option.isSome_iff_exists.1 h
    obtain ⟨m, hm, he⟩ := Option.bind_eq_some_iff.1 found
    exact enums _ (Dict.mem_entries_of_get? hm) _ (Dict.mem_entries_of_get? he)

namespace Sample

/-- A tagged union with a tagged union in it, which holds a pair or bytes. -/
def nested : Context where
  structs := [{ name := "pair", path := "m", parts := [.bool, .i64] }]
  unions :=
    [ { name := "inner", path := "m",
        parts := [.named "pair" "m",
          { name := "u8", depth := 1, isArray := true, arrayLength := 19 }] },
      { name := "outermost", path := "m",
        parts := [.named "color" "m", .named "inner" "m", .constStr] } ]

def nestedSymbols : SymbolTable :=
  SymbolTable.addEnum
    (SymbolTable.addUnion
      (SymbolTable.addUnion (SymbolTable.addStruct {} "m" { name := "pair" }) "m"
        { name := "inner" }) "m" { name := "outermost" }) "m" { name := "color" }

/-- A tagged union of a struct without fields and a byte. -/
def hollow : Context where
  structs := [{ name := "empty", path := "m" }]
  unions := [{ name := "choice", path := "m", parts := [.named "empty" "m", .u8] }]

def hollowSymbols : SymbolTable :=
  SymbolTable.addUnion (SymbolTable.addStruct {} "m" { name := "empty" }) "m" { name := "choice" }

end Sample

theorem nested_storage_holds_every_member :
    let defs := Definitions.ofContext Sample.nested Sample.nestedSymbols
    let types := TypeMap.ofSymbols Sample.nestedSymbols
    let decls := defs.declarations types (.compute Sample.nested Sample.nestedSymbols)
    ∃ payload room, decls.unions "m::outermost" = some payload ∧
      payload.map Form.text = ["i64", "[24 x i8]"] ∧ decls.Occupy payload room ∧
      ∀ ty ∈ [.named "color" "m", .named "inner" "m", .constStr], ∃ layout,
        decls.Occupy [defs.form types ty] [layout] ∧
          layout.size ≤ (room.map Layout.size).sum := by
  intro defs types decls
  have acyclic : ∀ key, ¬ TransGen defs.Contains key key :=
    Definitions.acyclic_of_rank String.length (by decide +kernel)
  have described : types.Describes defs :=
    TypeMap.describes_ofContext (by decide +kernel) (by decide +kernel) (by decide +kernel)
  have pair : decls.Occupy [.struct "m::pair"] [⟨16, 8⟩] := by
    have declared : decls.structs "m::pair" = some [.int 1, .int 64] := by decide +kernel
    have fields : decls.Occupy [.int 1, .int 64] [⟨1, 1⟩, ⟨8, 8⟩] :=
      .natural rfl (.natural rfl .nil)
    exact .struct declared fields .nil
  have solid : defs.Solid decls "m::outermost" := by
    intro inner layout _ occupy
    have key : inner = "m::pair" := by
      cases occupy with
      | natural size => cases size
      | struct declared =>
        obtain ⟨a, found, -⟩ := Option.map_eq_some_iff.1 declared
        obtain ⟨ha, rfl⟩ := Definitions.mem_of_get? found
        rw [List.mem_singleton.1 ha]
        decide
    subst key
    obtain rfl := List.singleton_inj.1 (occupy.unique pair)
    decide
  have inWords : (LayoutTable.compute Sample.nested Sample.nestedSymbols id).InWords :=
    LayoutTable.inWords_of_entries (by decide +kernel) (by decide +kernel)
  obtain ⟨-, -, payload, room, declared, hroom, holds⟩ :=
    declared_storage_holds_every_member (by decide +kernel) acyclic (by decide +kernel) described
      (List.mem_cons_of_mem _ (List.mem_singleton_self _)) solid inWords
  refine ⟨payload, room, declared, ?_, hroom, fun ty hty => ?_⟩
  · have texts : (decls.unions "m::outermost").map (List.map Form.text) =
        some ["i64", "[24 x i8]"] := by decide +kernel
    exact Option.some.inj ((congrArg (Option.map (List.map Form.text)) declared).symm.trans texts)
  · obtain ⟨layout, -, stored, fits⟩ := holds ty hty
    exact ⟨layout, stored, fits⟩

/-- A struct without fields occupies nothing, and the part declared for it has no room for a
byte. -/
theorem exists_storage_without_room :
    let defs := Definitions.ofContext Sample.hollow Sample.hollowSymbols
    let types := TypeMap.ofSymbols Sample.hollowSymbols
    let decls := defs.declarations types (.compute Sample.hollow Sample.hollowSymbols)
    ((Sample.hollow.structs ++ Sample.hollow.unions).map Aggregate.fullPath).Nodup ∧
      (∀ key, ¬ TransGen defs.Contains key key) ∧
      (∀ a ∈ Sample.hollow.structs ++ Sample.hollow.unions, ∀ ty ∈ a.parts, defs.Storable ty) ∧
      types.Describes defs ∧
      ∃ a ∈ Sample.hollow.unions, ∃ payload room, decls.unions a.fullPath = some payload ∧
        payload.map Form.text = ["%struct.m.empty"] ∧ decls.Occupy payload room ∧
        ∃ ty ∈ a.parts, ∃ layout, decls.Occupy [defs.form types ty] [layout] ∧
          (room.map Layout.size).sum < layout.size := by
  intro defs types decls
  have acyclic : ∀ key, ¬ TransGen defs.Contains key key :=
    Definitions.acyclic_of_rank String.length (by decide +kernel)
  have described : types.Describes defs :=
    TypeMap.describes_ofContext (by decide +kernel) (by decide +kernel) (by decide +kernel)
  have payload : decls.unions "m::choice" = some [.struct "m::empty"] := by decide +kernel
  have empty : decls.structs "m::empty" = some [] := by decide +kernel
  have byte : decls.Occupy [defs.form types .u8] [⟨1, 1⟩] := by
    have form : defs.form types .u8 = .int 8 := by decide +kernel
    rw [form]
    exact .natural rfl .nil
  exact ⟨by decide +kernel, acyclic, by decide +kernel, described, _, List.mem_singleton_self _, _,
    [⟨0, 1⟩], payload, by decide, .struct empty .nil .nil, .u8, by simp, ⟨1, 1⟩, byte, by decide⟩

end Codegen
