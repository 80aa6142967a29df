import Codegen.Proofs.Storage.Table

/-!
# Sizes in words

Sizes are computed in words, so a sum or a product may lose what is beyond 64 bits.  The same
layouts with exact sizes are those that count with `id`.  An exact layout below `2 ^ 64` is the
layout in words (`Layout.ofParts_word`, `UnionLayout.ofParts_word`), and the two tables are equal
just if every exact entry is below it (`compute_eq_exact_iff`): all that is added up inside a
definition is at most as large as its entry.
-/

namespace Codegen

theorem word_lt (n : Nat) : word n < UInt64.size := Nat.mod_lt n (by decide)

theorem word_of_lt {n : Nat} (h : n < UInt64.size) : word n = n := Nat.mod_eq_of_lt h

/-- What is aligned stays so: alignments divide the number of words. -/
theorem dvd_word {align n : Nat} (halign : align ∈ alignments) (h : align ∣ n) :
    align ∣ word n := by
  have modulus : ∀ align ∈ alignments, align ∣ UInt64.size := by decide
  exact (Nat.dvd_mod_iff (modulus align halign)).2 h

/-! ## Layouts of known parts -/

theorem Ty.storing_word {ty : Ty} {layout : Layout}
    (h : (ty.storing id layout).size < UInt64.size) :
    ty.storing word layout = ty.storing id layout := by
  unfold storing at h ⊢
  split
  · rename_i array
    rw [if_pos array] at h
    exact congrArg (Layout.mk · layout.align) (word_of_lt h)
  · rfl

namespace Layout

variable {fields : List Layout} {field : Layout}

theorem le_size_behind (fields : List Layout) (size align : Nat) :
    size ≤ (behind id fields size align).size := by
  induction fields generalizing size align with
  | nil => exact le_rfl
  | cons field fields ih =>
    exact (le_alignUp size field.align).trans ((Nat.le_add_right _ _).trans (ih _ _))

theorem size_le_behind (h : field ∈ fields) (size align : Nat) :
    field.size ≤ (behind id fields size align).size := by
  induction fields generalizing size align with
  | nil => cases h
  | cons first fields ih =>
    rcases List.mem_cons.1 h with rfl | h
    · exact (Nat.le_add_left _ _).trans (le_size_behind fields _ _)
    · exact ih h _ _

theorem behind_word {size align : Nat} (h : (behind id fields size align).size < UInt64.size) :
    behind word fields size align = behind id fields size align := by
  induction fields generalizing size align with
  | nil => rfl
  | cons field fields ih =>
    have last : alignUp size field.align + field.size < UInt64.size :=
      (le_size_behind fields _ _).trans_lt h
    have offset : alignUp size field.align < UInt64.size := (Nat.le_add_right _ _).trans_lt last
    rw [behind, behind, word_of_lt offset, word_of_lt last]
    exact ih h

theorem size_le_close (fields : Layout) : fields.size ≤ (fields.close id).size := by
  unfold close
  split
  · omega
  · exact le_alignUp _ _

theorem close_word {fields : Layout} (h : (fields.close id).size < UInt64.size) :
    fields.close word = fields.close id := by
  unfold close at h ⊢
  split
  · rfl
  · rename_i some
    rw [if_neg some] at h
    exact congrArg (Layout.mk · fields.align) (word_of_lt h)

theorem size_ofParts_lt (fields : List Layout) : (ofParts word fields).size < UInt64.size := by
  unfold ofParts close
  split
  · decide
  · exact word_lt _

theorem size_le_ofParts (h : field ∈ fields) : field.size ≤ (ofParts id fields).size :=
  (size_le_behind h 0 1).trans (size_le_close _)

theorem ofParts_word (h : (ofParts id fields).size < UInt64.size) :
    ofParts word fields = ofParts id fields := by
  have last : (behind id fields 0 1).size < UInt64.size := (size_le_close _).trans_lt h
  rw [ofParts, behind_word last]
  exact close_word h

end Layout

namespace UnionLayout

/-- What is added up in a tagged union is at most as large as the whole. -/
theorem sums_le_close (storage : Storage) :
    storage.size ≤ (close id storage).storage ∧
      alignUp 8 storage.align + (close id storage).storage ≤ (close id storage).layout.size :=
  ⟨le_alignUp _ _, le_alignUp _ _⟩

theorem close_word {storage : Storage} (h : (close id storage).layout.size < UInt64.size) :
    close word storage = close id storage := by
  have last : alignUp 8 storage.align + alignUp storage.size storage.align < UInt64.size :=
    (sums_le_close storage).2.trans_lt h
  have tag : alignUp 8 storage.align < UInt64.size := (Nat.le_add_right _ _).trans_lt last
  have stored : alignUp storage.size storage.align < UInt64.size :=
    (Nat.le_add_left _ _).trans_lt last
  simp only [close, id] at h
  simp only [close, word_of_lt tag, word_of_lt stored, word_of_lt last, word_of_lt h, id]

theorem size_le_ofParts {tys : List Ty} {layouts : List Layout} (h : tys.length = layouts.length)
    {layout : Layout} (hlayout : layout ∈ layouts) :
    layout.size ≤ (ofParts id tys layouts).layout.size := by
  obtain ⟨⟨ty, layout⟩, hmem, rfl⟩ : ∃ member ∈ tys.zip layouts, member.2 = layout := by
    rwa [← List.mem_map, List.map_snd_zip h.ge]
  have stored := (Storage.covers_addAll tys layouts).size hmem
  obtain ⟨storage, whole⟩ := sums_le_close (({} : Storage).addAll tys layouts)
  exact stored.trans (storage.trans ((Nat.le_add_left _ _).trans whole))

theorem ofParts_word {tys : List Ty} {layouts : List Layout}
    (h : (ofParts id tys layouts).layout.size < UInt64.size) :
    ofParts word tys layouts = ofParts id tys layouts :=
  close_word h

end UnionLayout

/-! ## The table -/

namespace LayoutTable

/-- Every entry has a size that a word can hold. -/
structure InWords (table : LayoutTable) : Prop where
  structs {key : String} {layout : Layout} (h : table.structs.get? key = some layout) :
    layout.size < UInt64.size
  unions {key : String} {layout : UnionLayout} (h : table.unions.get? key = some layout) :
    layout.layout.size < UInt64.size

variable {table after : LayoutTable} {visiting : List String} {key : String}

theorem inWords_of_entries
    (structs : ∀ entry ∈ table.structs.entries, entry.2.size < UInt64.size)
    (unions : ∀ entry ∈ table.unions.entries, entry.2.layout.size < UInt64.size) : table.InWords :=
  ⟨fun entry => structs _ (Dict.mem_entries_of_get? entry),
    fun entry => unions _ (Dict.mem_entries_of_get? entry)⟩

theorem InWords.of_grows (h : after.InWords) (grows : table.Grows visiting after) :
    table.InWords :=
  ⟨fun entry => h.structs (grows.structs entry), fun entry => h.unions (grows.unions entry)⟩

theorem InWords.of_enterStruct {fields : List Layout × LayoutTable}
    (noEntry : fields.2.structs.get? key = none) (h : (enterStruct id key fields).2.InWords) :
    fields.2.InWords ∧ (Layout.ofParts id fields.1).size < UInt64.size := by
  have entries (other : String) : (enterStruct id key fields).2.structs.get? other =
      if key = other then some (Layout.ofParts id fields.1) else fields.2.structs.get? other :=
    Dict.get?_insert ..
  refine ⟨⟨fun {other} _ entry => ?_, h.unions⟩, h.structs ((entries key).trans (if_pos rfl))⟩
  have differs : key ≠ other := by
    rintro rfl
    rw [noEntry] at entry
    cases entry
  exact h.structs ((entries other).trans ((if_neg differs).trans entry))

theorem InWords.of_enterUnion {tys : List Ty} {members : List Layout × LayoutTable}
    (noEntry : members.2.unions.get? key = none) (h : (enterUnion id key tys members).2.InWords) :
    members.2.InWords ∧ (UnionLayout.ofParts id tys members.1).layout.size < UInt64.size := by
  have entries (other : String) : (enterUnion id key tys members).2.unions.get? other =
      if key = other then some (UnionLayout.ofParts id tys members.1)
      else members.2.unions.get? other :=
    Dict.get?_insert ..
  refine ⟨⟨h.structs, fun {other} _ entry => ?_⟩, h.unions ((entries key).trans (if_pos rfl))⟩
  have differs : key ≠ other := by
    rintro rfl
    rw [noEntry] at entry
    cases entry
  exact h.unions ((entries other).trans ((if_neg differs).trans entry))

end LayoutTable

/-! ## Measuring in words and exactly -/

/-- Two measurements have the same result if the second one leaves entries for words. -/
def Measure.Meets {α : Type} (words exact : Measure α) : Prop :=
  ∀ table, (exact table).2.InWords → words table = exact table

theorem Measure.length_all (measure : Ty → Measure Layout) (tys : List Ty) (table : LayoutTable) :
    tys.length = (all measure tys table).1.length := by
  induction tys generalizing table with
  | nil => rfl
  | cons ty tys ih => exact congrArg (· + 1) (ih _)

/-- The same layouts are found in order, as long as all of them fit into words. -/
theorem Measure.all_word {words exact : Ty → Measure Layout} {visiting : List String}
    (grows : ∀ ty, (exact ty).Grows visiting)
    (meets : ∀ ty table, (exact ty table).2.InWords → (exact ty table).1.size < UInt64.size →
      words ty table = exact ty table)
    {tys : List Ty} {table : LayoutTable} (inWords : (all exact tys table).2.InWords)
    (small : ∀ layout ∈ (all exact tys table).1, layout.size < UInt64.size) :
    all words tys table = all exact tys table := by
  induction tys generalizing table with
  | nil => rfl
  | cons ty tys ih =>
    obtain ⟨smallFirst, smallRest⟩ := List.forall_mem_cons.1 small
    have first := meets ty table (inWords.of_grows (grows_all grows tys _)) smallFirst
    rw [all, all]
    simp only [first, ih inWords smallRest]

namespace Definitions

open Codegen.Measure (Meets)
open LayoutTable (enterStruct enterUnion)

variable {context : Context} {symbols : SymbolTable}

variable (context symbols) in
theorem ofType_word {struct struct' : String → Measure Layout}
    {union union' : String → Measure UnionLayout}
    (hstruct : ∀ key, Meets (struct key) (struct' key))
    (hunion : ∀ key, Meets (union key) (union' key)) (ty : Ty) (table : LayoutTable)
    (inWords : (Layout.ofType (.ofContext context symbols id) struct' union' ty table).2.InWords)
    (small : (Layout.ofType (.ofContext context symbols id) struct' union' ty table).1.size <
      UInt64.size) :
    Layout.ofType (.ofContext context symbols) struct union ty table =
      Layout.ofType (.ofContext context symbols id) struct' union' ty table := by
  have plain : Layout.ofPlain (.ofContext context symbols) struct union ty.stored table =
      Layout.ofPlain (.ofContext context symbols id) struct' union' ty.stored table := by
    rw [ofType_eq, ofPlain_eq] at inWords
    have same : (ofContext context symbols).base ty.stored =
        (ofContext context symbols id).base ty.stored := rfl
    rw [ofPlain_eq, ofPlain_eq, same]
    cases hbase : (ofContext context symbols id).base ty.stored with
    | struct key =>
      rw [hbase] at inWords
      exact hstruct key table inWords
    | union key =>
      rw [hbase] at inWords
      dsimp only
      rw [hunion key table inWords]
    | pointer | builtin | enum | unknown => rfl
  rw [ofType_eq] at small
  rw [ofType_eq, ofType_eq, plain]
  exact congrArg (·, _) (Ty.storing_word small)

theorem enterStruct_word {key : String} {words exact : Measure (List Layout)} {table : LayoutTable}
    (noEntry : (exact table).2.structs.get? key = none)
    (same : (exact table).2.InWords → (∀ field ∈ (exact table).1, field.size < UInt64.size) →
      words table = exact table)
    (inWords : (enterStruct id key (exact table)).2.InWords) :
    enterStruct word key (words table) = enterStruct id key (exact table) := by
  obtain ⟨inWords, small⟩ := inWords.of_enterStruct noEntry
  have fields := same inWords fun field hfield => (Layout.size_le_ofParts hfield).trans_lt small
  rw [fields, enterStruct, Layout.ofParts_word small]
  rfl

theorem enterUnion_word {key : String} {tys : List Ty} {words exact : Measure (List Layout)}
    {table : LayoutTable} (noEntry : (exact table).2.unions.get? key = none)
    (length : tys.length = (exact table).1.length)
    (same : (exact table).2.InWords → (∀ member ∈ (exact table).1, member.size < UInt64.size) →
      words table = exact table)
    (inWords : (enterUnion id key tys (exact table)).2.InWords) :
    enterUnion word key tys (words table) = enterUnion id key tys (exact table) := by
  obtain ⟨inWords, small⟩ := inWords.of_enterUnion noEntry
  have members := same inWords fun member hmember =>
    (UnionLayout.size_le_ofParts length hmember).trans_lt small
  rw [members, enterUnion, UnionLayout.ofParts_word small]
  rfl

variable (context symbols) in
/-- Definitions are measured alike in words and exactly.  The induction is on the fuel; the entry
that a definition gets bounds what is added up for it, and the entries of its parts were there
before. -/
theorem layouts_word (fuel : Nat) (visiting : List String) (key : String) :
    Meets (structLayout (.ofContext context symbols) fuel visiting key)
        (structLayout (.ofContext context symbols id) fuel visiting key) ∧
      Meets (unionLayout (.ofContext context symbols) fuel visiting key)
        (unionLayout (.ofContext context symbols id) fuel visiting key) := by
  induction fuel generalizing visiting key with
  | zero => exact ⟨fun _ _ => rfl, fun _ _ => rfl⟩
  | succ fuel ih =>
    have grows := grows_partLayout (.ofContext context symbols id) fuel (key :: visiting)
    have parts := ofType_word context symbols (fun inner => (ih (key :: visiting) inner).1)
      fun inner => (ih (key :: visiting) inner).2
    have unentered (a : Aggregate) (table : LayoutTable) := Measure.grows_all grows a.parts table
    constructor
    · intro table
      refine structLayout_cases (P := fun layout after => after.InWords →
        structLayout (.ofContext context symbols) (fuel + 1) visiting key table = (layout, after))
        (fun layout entry _ => ?_) (fun noEntry missing _ => ?_)
        (fun a noEntry found already _ => ?_) fun a noEntry found new inWords => ?_
      · rw [structLayout_eq, entry]
      · replace missing : (ofContext context symbols).structs.get? key = none := missing
        rw [structLayout_eq, noEntry, missing]
      · replace found : (ofContext context symbols).structs.get? key = some a := found
        rw [structLayout_eq, noEntry, found]
        exact if_pos (List.contains_iff_mem.2 already)
      · replace found : (ofContext context symbols).structs.get? key = some a := found
        rw [structLayout_eq, noEntry, found]
        refine (if_neg (mt List.contains_iff_mem.1 new)).trans ?_
        exact enterStruct_word ((unentered a table).openStructs List.mem_cons_self noEntry)
          (Measure.all_word grows parts) inWords
    · intro table
      refine unionLayout_cases (P := fun layout after => after.InWords →
        unionLayout (.ofContext context symbols) (fuel + 1) visiting key table = (layout, after))
        (fun layout entry _ => ?_) (fun noEntry missing _ => ?_)
        (fun a noEntry found already _ => ?_) fun a noEntry found new inWords => ?_
      · rw [unionLayout_eq, entry]
      · replace missing : (ofContext context symbols).unions.get? key = none := missing
        rw [unionLayout_eq, noEntry, missing]
      · replace found : (ofContext context symbols).unions.get? key = some a := found
        rw [unionLayout_eq, noEntry, found]
        exact if_pos (List.contains_iff_mem.2 already)
      · replace found : (ofContext context symbols).unions.get? key = some a := found
        rw [unionLayout_eq, noEntry, found]
        refine (if_neg (mt List.contains_iff_mem.1 new)).trans ?_
        exact enterUnion_word ((unentered a table).openUnions List.mem_cons_self noEntry)
          (Measure.length_all _ _ _) (Measure.all_word grows parts) inWords

/-- One definition after the other. -/
theorem foldl_word {α : Type} {words exact : String → Measure α}
    (grows : ∀ key, (exact key).Grows []) (meets : ∀ key, Meets (words key) (exact key))
    {as : List Aggregate} {table : LayoutTable}
    (inWords : (as.foldl (fun table a => (exact a.fullPath table).2) table).InWords) :
    as.foldl (fun table a => (words a.fullPath table).2) table =
      as.foldl (fun table a => (exact a.fullPath table).2) table := by
  induction as generalizing table with
  | nil => rfl
  | cons a as ih =>
    have first := meets a.fullPath table (inWords.of_grows (grows_foldl grows as _))
    rw [List.foldl_cons, List.foldl_cons, first]
    exact ih inWords

end Definitions

/-- If all exact sizes are below `2 ^ 64`, they are the sizes. -/
theorem LayoutTable.compute_word {context : Context} {symbols : SymbolTable}
    (inWords : (compute context symbols id).InWords) :
    compute context symbols = compute context symbols id := by
  have grows := Definitions.grows_layouts (.ofContext context symbols id)
    (context.structs.length + context.unions.length + 1) []
  have meets := Definitions.layouts_word context symbols
    (context.structs.length + context.unions.length + 1) []
  have structs := Definitions.foldl_word (fun key => (grows key).1) (fun key => (meets key).1)
    (inWords.of_grows (Definitions.grows_foldl (fun key => (grows key).2) context.unions _))
  have unions := Definitions.foldl_word (fun key => (grows key).2) (fun key => (meets key).2)
    inWords
  unfold compute
  dsimp only
  rw [structs, unions]

/-- Whatever is defined, the sizes in the table are words. -/
theorem LayoutTable.inWords_compute (context : Context) (symbols : SymbolTable) :
    (compute context symbols).InWords := by
  obtain ⟨right, -, -⟩ := compute_right context symbols word
  constructor
  · intro key layout entry
    obtain ⟨a, fields, -, -, rfl⟩ := right.structs entry
    exact Layout.size_ofParts_lt fields
  · intro key layout entry
    obtain ⟨u, members, -, -, rfl⟩ := right.unions entry
    exact word_lt _

theorem LayoutTable.compute_eq_exact_iff {context : Context} {symbols : SymbolTable} :
    compute context symbols = compute context symbols id ↔
      (compute context symbols id).InWords :=
  ⟨fun same => same ▸ inWords_compute context symbols, compute_word⟩

end Codegen
