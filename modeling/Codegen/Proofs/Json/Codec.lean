import Codegen.Program.SymbolCodec
import Codegen.Proofs.Json.Reading
import Codegen.Proofs.Lookup

/-!
# Codecs

A decoder and an encoder belong together when every valid value is read back from what is written
for it, as long as that does not nest too deep, and when nothing but valid values is read.
-/

namespace Codegen.Json

/-- Whether a number is an unsigned integer of 64 bits. -/
def isUInt64 (value : Nat) : Bool := value < 0x1_0000_0000_0000_0000

/-- Whether a number is a signed integer of 64 bits. -/
def isInt64 (value : Int) : Bool := -0x8000_0000_0000_0000 ≤ value ∧ value < 0x8000_0000_0000_0000

/-- A decoder and an encoder for the valid values of a type.  Values are read back where at most
`bound` levels are left, and what is written for them is plain. -/
structure Codec {α : Type} (bound : Nat) (decode : Decoder α) (encode : α → Json)
    (valid : α → Prop) : Prop where
  inverts : ∀ x, valid x → ∀ levels ≤ bound, (encode x).fits levels = true →
    (encode x).plain = true ∧ decode levels (encode x) = some x
  yields : ∀ levels json x, decode levels json = some x → valid x

/-! ## Lists -/

/-- A check that goes through a list. -/
theorem all_iff {α : Type} {one : α → Bool} {all : List α → Bool} (hnil : all [] = true)
    (hcons : ∀ x xs, all (x :: xs) = (one x && all xs)) (xs : List α) :
    all xs = true ↔ ∀ x ∈ xs, one x = true := by
  induction xs with
  | nil => simp [hnil]
  | cons x xs ih => simp [hcons, ih]

/-- An encoder that goes through a list. -/
theorem eq_map {α : Type} {one : α → Json} {all : List α → List Json} (hnil : all [] = [])
    (hcons : ∀ x xs, all (x :: xs) = one x :: all xs) (xs : List α) : all xs = xs.map one := by
  induction xs with
  | nil => exact hnil
  | cons x xs ih => rw [hcons, ih, List.map_cons]

@[simp] theorem plain_str (text : String) : (Json.str text).plain = true := rfl

@[simp] theorem plain_bool (value : Bool) : (Json.bool value).plain = true := rfl

attribute [simp] plainFields

namespace Codec

variable {α β : Type}

/-! ## Scalars -/

section Scalars

variable (bound : Nat)

@[simp] theorem string_str (levels : Nat) (text : String) :
    Decoder.string levels (.str text) = some text := rfl

@[simp] theorem bool_bool (levels : Nat) (value : Bool) :
    Decoder.bool levels (.bool value) = some value := rfl

theorem string : Codec bound .string .str fun _ => True where
  inverts _ _ _ _ _ := ⟨rfl, rfl⟩
  yields _ _ _ _ := trivial

theorem bool : Codec bound .bool .bool fun _ => True where
  inverts _ _ _ _ _ := ⟨rfl, rfl⟩
  yields _ _ _ _ := trivial

theorem of_integer {low high : Int} {levels : Nat} {json : Json} {value : Int}
    (h : Decoder.integer low high levels json = some value) : low ≤ value ∧ value < high := by
  unfold Decoder.integer at h
  split at h
  · split at h
    · cases h
      assumption
    · cases h
  · cases h

theorem int64 : Codec bound .int64 .int (isInt64 · = true) where
  inverts value h levels _ _ := by
    have range : -0x8000_0000_0000_0000 ≤ value ∧ value < 0x8000_0000_0000_0000 :=
      of_decide_eq_true h
    have small : value.natAbs < 0x1_0000_0000_0000_0000 := by omega
    exact ⟨decide_eq_true small, if_pos range⟩
  yields _ _ _ h := decide_eq_true (of_integer h)

theorem uint64 : Codec bound .uint64 .nat (isUInt64 · = true) where
  inverts value h levels _ _ := by
    have small : (value : Int).natAbs < 0x1_0000_0000_0000_0000 := of_decide_eq_true h
    have range : (0 : Int) ≤ value ∧ (value : Int) < 0x1_0000_0000_0000_0000 := by omega
    have read : Decoder.integer 0 0x1_0000_0000_0000_0000 levels (.nat value) =
        some (value : Int) := by
      rw [nat, Decoder.integer, if_pos range]
    exact ⟨decide_eq_true small, Option.map_eq_some_iff.2 ⟨_, read, Int.toNat_natCast value⟩⟩
  yields levels json value h := by
    obtain ⟨i, hi, rfl⟩ := Option.map_eq_some_iff.1 h
    have range := of_integer hi
    exact decide_eq_true (by omega)

theorem uint8 : Codec bound .uint8 (fun byte => .nat byte.toNat) fun _ => True where
  inverts byte _ levels _ _ := by
    have small := byte.toNat_lt
    have range : (0 : Int) ≤ byte.toNat ∧ (byte.toNat : Int) < 256 := by omega
    refine ⟨decide_eq_true (by omega), ?_⟩
    simp [Decoder.uint8, Decoder.integer, nat, range]
  yields _ _ _ _ := trivial

end Scalars

/-! ## Arrays -/

variable {bound : Nat}

theorem fitsItems_iff (levels : Nat) (items : List Json) :
    fitsItems levels items = true ↔ ∀ item ∈ items, item.fits levels = true :=
  all_iff rfl (fun _ _ => rfl) items

theorem plainItems_iff (items : List Json) :
    plainItems items = true ↔ ∀ item ∈ items, item.plain = true :=
  all_iff rfl (fun _ _ => rfl) items

theorem all_map {item : Json → Option α} {encode : α → Json} {xs : List α}
    (h : ∀ x ∈ xs, item (encode x) = some x) : Decoder.all item (xs.map encode) = some xs := by
  induction xs with
  | nil => rfl
  | cons x xs ih =>
    obtain ⟨hx, hxs⟩ := List.forall_mem_cons.1 h
    simp [Decoder.all, hx, ih hxs]

theorem of_all {item : Json → Option α} {valid : α → Prop}
    (hi : ∀ json x, item json = some x → valid x) {items : List Json} {xs : List α}
    (h : Decoder.all item items = some xs) : ∀ x ∈ xs, valid x := by
  induction items generalizing xs with
  | nil =>
    cases h
    exact List.forall_mem_nil _
  | cons json items ih =>
    obtain ⟨x, hx, h⟩ := Option.bind_eq_some_iff.1 h
    obtain ⟨rest, hrest, h⟩ := Option.bind_eq_some_iff.1 h
    cases h
    exact List.forall_mem_cons.2 ⟨hi _ _ hx, ih hrest⟩

/-- An array whose items are written one by one. -/
theorem list {decode : Decoder α} {encode : α → Json} {valid : α → Prop}
    (c : Codec bound decode encode valid) :
    Codec bound (.list decode) (fun xs => .arr (xs.map encode)) fun xs => ∀ x ∈ xs, valid x where
  inverts xs h levels hb hf := by
    cases levels with
    | zero => cases hf
    | succ levels =>
      have fits := (fitsItems_iff levels _).1 hf
      have each {x : α} (hx : x ∈ xs) :=
        c.inverts x (h x hx) levels (by omega) (fits _ (List.mem_map_of_mem hx))
      exact ⟨(plainItems_iff _).2 (List.forall_mem_map.2 fun x hx => (each hx).1),
        all_map fun x hx => (each hx).2⟩
  yields levels json xs h := by
    unfold Decoder.list at h
    split at h
    · exact of_all (fun json x => c.yields _ json x) h
    · cases h

theorem pair {decode : Decoder α} {encode : α → Json} {valid : α → Prop} {decode' : Decoder β}
    {encode' : β → Json} {valid' : β → Prop} (c : Codec bound decode encode valid)
    (c' : Codec bound decode' encode' valid') :
    Codec bound (.pair decode decode') (fun p => .arr [encode p.1, encode' p.2])
      fun p => valid p.1 ∧ valid' p.2 where
  inverts p h levels hb hf := by
    cases levels with
    | zero => cases hf
    | succ levels =>
      simp only [fits, fitsItems, Bool.and_eq_true, and_true] at hf
      obtain ⟨hplain, hdecode⟩ := c.inverts p.1 h.1 levels (by omega) hf.1
      obtain ⟨hplain', hdecode'⟩ := c'.inverts p.2 h.2 levels (by omega) hf.2
      simp [plain, plainItems, hplain, hplain', Decoder.pair, hdecode, hdecode']
  yields levels json p h := by
    unfold Decoder.pair at h
    split at h
    · obtain ⟨x, hx, h⟩ := Option.bind_eq_some_iff.1 h
      obtain ⟨y, hy, h⟩ := Option.bind_eq_some_iff.1 h
      cases h
      exact ⟨c.yields _ _ _ hx, c'.yields _ _ _ hy⟩
    · cases h

/-- A value that may be missing. -/
theorem nullable {decode : Decoder α} {encode : α → Json} {valid : α → Prop}
    (c : Codec bound decode encode valid) (hne : ∀ x, encode x ≠ .null) :
    Codec bound decode.nullable (.ofOption encode) fun o => ∀ x ∈ o, valid x where
  inverts o h levels hb hf := by
    cases o with
    | none => exact ⟨rfl, rfl⟩
    | some x =>
      obtain ⟨hplain, hdecode⟩ := c.inverts x (h x rfl) levels hb hf
      refine ⟨hplain, ?_⟩
      unfold Decoder.nullable
      split
      · next heq => exact absurd heq (hne x)
      · exact Option.map_eq_some_iff.2 ⟨x, hdecode, rfl⟩
  yields levels json o h := by
    unfold Decoder.nullable at h
    split at h
    · cases h
      exact nofun
    · obtain ⟨x, hx, rfl⟩ := Option.map_eq_some_iff.1 h
      rintro _ ⟨⟩
      exact c.yields _ _ _ hx

/-! ## Dictionaries -/

theorem fitsFields_iff (levels : Nat) (fields : List (String × Json)) :
    fitsFields levels fields = true ↔ ∀ field ∈ fields, field.2.fits levels = true :=
  all_iff rfl (fun _ _ => rfl) fields

theorem plainFields_iff (fields : List (String × Json)) :
    plainFields fields = true ↔ ∀ field ∈ fields, field.2.plain = true :=
  all_iff rfl (fun _ _ => rfl) fields

theorem allFields_map {value : Json → Option α} {encode : α → Json} {entries : List (String × α)}
    (h : ∀ entry ∈ entries, value (encode entry.2) = some entry.2) :
    Decoder.allFields value (entries.map fun entry => (entry.1, encode entry.2)) =
      some entries := by
  induction entries with
  | nil => rfl
  | cons entry entries ih =>
    obtain ⟨hentry, hentries⟩ := List.forall_mem_cons.1 h
    simp [Decoder.allFields, hentry, ih hentries]

theorem of_allFields {value : Json → Option α} {valid : α → Prop}
    (hv : ∀ json x, value json = some x → valid x) {fields : List (String × Json)}
    {entries : List (String × α)} (h : Decoder.allFields value fields = some entries) :
    ∀ entry ∈ entries, valid entry.2 := by
  induction fields generalizing entries with
  | nil =>
    cases h
    exact List.forall_mem_nil _
  | cons field fields ih =>
    obtain ⟨x, hx, h⟩ := Option.bind_eq_some_iff.1 h
    obtain ⟨rest, hrest, h⟩ := Option.bind_eq_some_iff.1 h
    cases h
    exact List.forall_mem_cons.2 ⟨hv _ _ hx, ih hrest⟩

theorem dict {decode : Decoder α} {encode : α → Json} {valid : α → Prop}
    (c : Codec bound decode encode valid) :
    Codec bound (.dict decode) (Dict.encode encode)
      fun d => ∀ entry ∈ d.entries, valid entry.2 where
  inverts d h levels hb hf := by
    cases levels with
    | zero => cases hf
    | succ levels =>
      have fits := (fitsFields_iff levels _).1 hf
      have each {entry : String × α} (he : entry ∈ d.entries) :=
        c.inverts entry.2 (h entry he) levels (by omega) (fits _ (List.mem_map_of_mem he))
      refine ⟨(plainFields_iff _).2 (List.forall_mem_map.2 fun entry he => (each he).1), ?_⟩
      rw [Dict.encode, Decoder.dict, allFields_map fun entry he => (each he).2, Option.map_some,
        Dict.ofList_entries]
  yields levels json d h := by
    unfold Decoder.dict at h
    split at h
    · obtain ⟨entries, hentries, rfl⟩ := Option.map_eq_some_iff.1 h
      intro entry he
      exact of_allFields (fun json x => c.yields _ json x) hentries _ (Dict.mem_of_mem_ofList he)
    · cases h

theorem nameSet (bound : Nat) : Codec bound .nameSet NameSet.encode fun _ => True where
  inverts names _ levels hb hf := by
    obtain ⟨hplain, hdecode⟩ := (list (string bound)).inverts (Dict.keys names) (fun _ _ => trivial)
      levels hb hf
    have same : (Dict.keys names).map (fun name => (name, ())) = names.entries :=
      List.map_map.trans (List.map_id names.entries)
    refine ⟨hplain, Option.map_eq_some_iff.2 ⟨_, hdecode, ?_⟩⟩
    rw [NameSet.ofList, same, Dict.ofList_entries]
  yields _ _ _ _ := trivial

/-! ## Records -/

theorem inverts_object {decode : Decoder α} {entries : List (String × Json)} {x : α}
    (h : ∀ levels < bound, fitsFields levels entries = true →
      plainFields entries = true ∧ decode (levels + 1) (.obj entries) = some x) :
    ∀ levels ≤ bound, (Json.obj entries).fits levels = true →
      (Json.obj entries).plain = true ∧ decode levels (.obj entries) = some x
  | 0, _, hf => by cases hf
  | levels + 1, hb, hf => h levels hb hf

section Records

variable {decode : Decoder α} {encode : α → Json} {valid : α → Prop} {fields : Fields}
  {name : String}

theorem of_required (c : Codec bound decode encode valid) {x : α}
    (h : fields.required name decode = some x) : valid x := by
  obtain ⟨found, -, h⟩ := Option.bind_eq_some_iff.1 h
  obtain ⟨json, -, h⟩ := Option.bind_eq_some_iff.1 h
  exact c.yields _ _ _ h

theorem of_withDefault (c : Codec bound decode encode valid) {x absent : α}
    (h : fields.withDefault name decode absent = some x) (ha : valid absent) : valid x := by
  obtain ⟨found, -, h⟩ := Option.bind_eq_some_iff.1 h
  cases found with
  | none =>
    cases h
    exact ha
  | some json => exact c.yields _ _ _ h

theorem of_optional (c : Codec bound decode encode valid) (hne : ∀ x, encode x ≠ .null)
    {o : Option α} (h : fields.optional name decode = some o) : ∀ x ∈ o, valid x :=
  (c.nullable hne).of_withDefault h nofun

end Records

end Codec

namespace Fields

variable {α : Type} {levels : Nat} {decode : Decoder α} {name : String}

@[simp] theorem of?_obj (names : List String) (entries : List (String × Json)) :
    of? names (levels + 1) (.obj entries) = some ⟨levels, entries⟩ := rfl

/-- A field is found under its name, if it is there once. -/
theorem lookup_cons (field : String × Json) (entries : List (String × Json)) (name : String) :
    lookup ⟨levels, field :: entries⟩ name =
      if field.1 = name then
        if name ∈ entries.map Prod.fst then none else some (some field.2)
      else lookup ⟨levels, entries⟩ name := by
  by_cases h : field.1 = name
  · have others : (entries.filter fun entry => entry.1 = name) = [] ↔
        name ∉ entries.map Prod.fst := by
      rw [List.filter_eq_nil_iff, List.mem_map]
      grind
    simp only [lookup, List.filter_cons, h, decide_true, if_true]
    cases hf : entries.filter fun entry => entry.1 = name with
    | nil => rw [if_neg (others.1 hf)]
    | cons entry rest => rw [if_pos (by_contra fun hm => by simp [others.2 hm] at hf)]
  · simp [lookup, h]

@[simp] theorem required_cons (field : String × Json) (entries : List (String × Json)) :
    required ⟨levels, field :: entries⟩ name decode =
      if field.1 = name then
        if name ∈ entries.map Prod.fst then none else decode levels field.2
      else required ⟨levels, entries⟩ name decode := by
  rw [required, lookup_cons]
  split
  · split <;> rfl
  · rfl

@[simp] theorem withDefault_cons (field : String × Json) (entries : List (String × Json))
    (absent : α) :
    withDefault ⟨levels, field :: entries⟩ name decode absent =
      if field.1 = name then
        if name ∈ entries.map Prod.fst then none else decode levels field.2
      else withDefault ⟨levels, entries⟩ name decode absent := by
  rw [withDefault, lookup_cons]
  split
  · split <;> rfl
  · rfl

end Fields

end Codegen.Json
