import Codegen.Proofs.Emitted
import Codegen.Proofs.Lookup

/-!
# What functions look up, at other places

Printed types, layouts and parameter lists do not depend on places.  So what a function of a
program looks up differs, in the same program at other places, only by the places of symbols and by
the number of its debug record: `environments_relocate`.
-/

namespace Codegen

namespace Dict

variable {α β : Type} (f : α → β)

theorem contains_mapValues (d : Dict α) (key : String) :
    (d.mapValues f).contains key = d.contains key := by
  rw [contains, contains, get?_mapValues, Option.isSome_map]

theorem mapValues_insert (d : Dict α) (key : String) (value : α) :
    (d.insert key value).mapValues f = (d.mapValues f).insert key (f value) := by
  have inserted (entries : List (String × α)) :
      (insertEntry key value entries).map (fun entry => (entry.1, f entry.2)) =
        insertEntry key (f value) (entries.map fun entry => (entry.1, f entry.2)) := by
    induction entries with
    | nil => rfl
    | cons entry rest ih =>
      rw [List.map_cons, insertEntry, insertEntry]
      split
      · rfl
      · split
        · rfl
        · rw [List.map_cons, ih]
  exact ext (inserted d.entries)

theorem mapValues_ofList (entries : List (String × α)) :
    (ofList entries).mapValues f = ofList (entries.map fun entry => (entry.1, f entry.2)) := by
  induction entries using List.reverseRecOn with
  | nil => rfl
  | append_singleton entries entry ih =>
    rw [ofList_concat, mapValues_insert, ih, List.map_append, List.map_singleton, ofList_concat]

end Dict

variable (r : Relocation)

/-! ## Printed types -/

theorem TypeMap.ofSymbols_relocate (symbols : SymbolTable) :
    TypeMap.ofSymbols (symbols.relocate r) = .ofSymbols symbols := by
  rw [ofSymbols, ofSymbols, SymbolTable.relocate, Dict.entries_mapValues, List.flatMap_map]
  simp only [ModuleSymbols.relocate, Dict.keys_mapValues]

/-! ## Layouts -/

/-- The definitions at other places. -/
def Definitions.relocate (defs : Definitions) : Definitions where
  symbols := defs.symbols.relocate r
  structs := defs.structs.mapValues (Aggregate.relocate r)
  unions := defs.unions.mapValues (Aggregate.relocate r)
  fit := defs.fit

theorem Definitions.ofContext_relocate (context : Context) (symbols : SymbolTable) :
    Definitions.ofContext (context.relocate r) (symbols.relocate r) =
      (Definitions.ofContext context symbols).relocate r := by
  rw [relocate, ofContext, ofContext, Dict.mapValues_ofList, Dict.mapValues_ofList,
    Context.relocate]
  simp only [List.map_map]
  rfl

section Measures

variable (defs : Definitions) (struct : String → Measure Layout)
  (union : String → Measure UnionLayout)

theorem Layout.ofPlain_relocate (ty : Ty) :
    ofPlain (defs.relocate r) struct union ty = ofPlain defs struct union ty := by
  unfold ofPlain Definitions.relocate
  simp only [SymbolTable.findEnum_relocate, Option.isSome_map, Dict.contains_mapValues]

theorem Layout.ofType_relocate :
    ofType (defs.relocate r) struct union = ofType defs struct union := by
  funext ty
  unfold ofType
  simp only [ofPlain_relocate]
  rfl

end Measures

/-- Layouts do not depend on the places of definitions. -/
theorem layouts_relocate (defs : Definitions) (fuel : Nat) :
    structLayout (defs.relocate r) fuel = structLayout defs fuel ∧
      unionLayout (defs.relocate r) fuel = unionLayout defs fuel := by
  induction fuel with
  | zero => exact ⟨rfl, rfl⟩
  | succ fuel ih =>
    obtain ⟨structs, unions⟩ := ih
    constructor
    · funext visiting key table
      have found : (defs.relocate r).structs.get? key =
        (defs.structs.get? key).map (Aggregate.relocate r) := Dict.get?_mapValues ..
      rw [structLayout, structLayout, structs, unions, Layout.ofType_relocate, found]
      beta_reduce
      cases table.structs.get? key with
      | some layout => rfl
      | none => cases defs.structs.get? key <;> rfl
    · funext visiting key table
      have found : (defs.relocate r).unions.get? key =
        (defs.unions.get? key).map (Aggregate.relocate r) := Dict.get?_mapValues ..
      rw [unionLayout, unionLayout, structs, unions, Layout.ofType_relocate, found]
      beta_reduce
      cases table.unions.get? key with
      | some layout => rfl
      | none => cases defs.unions.get? key <;> rfl

theorem LayoutTable.compute_relocate (context : Context) (symbols : SymbolTable) :
    LayoutTable.compute (context.relocate r) (symbols.relocate r) = .compute context symbols := by
  unfold compute
  simp only [Definitions.ofContext_relocate, (layouts_relocate r _ _).1, (layouts_relocate r _ _).2]
  simp only [Context.relocate, List.length_map, List.foldl_map]
  rfl

namespace Lowering

theorem variadicSignatures_relocate (types : TypeMap) (context : Context) :
    variadicSignatures types (context.relocate r) = variadicSignatures types context := by
  unfold variadicSignatures Context.relocate
  rw [← List.map_append, List.filter_map, List.map_map]
  rfl

/-- What a function looks up at another place. -/
theorem environments_relocate (context : Context) (symbols : SymbolTable)
    (config config' : Config) (f : Func) :
    environments (context.relocate r) (symbols.relocate r) config' (f.relocate r) =
      (environments context symbols config f).relocate r
        ((recordModule (context.relocate r) (symbols.relocate r) config' {}).1.get? f.name) := by
  rw [environments, environment, TypeMap.ofSymbols_relocate, LayoutTable.compute_relocate,
    variadicSignatures_relocate]
  rfl

end Lowering

end Codegen
