import Codegen.Dict
import Mathlib.Data.List.Induction
import Mathlib.Data.List.Nodup

/-!
# Looking up in dictionaries

What is found under a key is what was bound to it last.  The entries of a dictionary, taken as a
list, give the dictionary back.
-/

namespace Codegen.Dict

variable {α : Type}

theorem find?_insertEntry (key key' : String) (value : α) (entries : List (String × α)) :
    (insertEntry key value entries).find? (fun entry => entry.1 = key') =
      if key = key' then some (key, value) else entries.find? fun entry => entry.1 = key' := by
  induction entries with
  | nil =>
    unfold insertEntry
    by_cases h : key = key' <;> simp [h]
  | cons entry rest ih =>
    unfold insertEntry
    split
    · by_cases h : key = key' <;> simp [h]
    · split
      · rename_i hkey
        by_cases h : key = key'
        · simp [h]
        · have : entry.1 ≠ key' := hkey ▸ h
          simp [h, this]
      · rename_i hkey
        rw [List.find?_cons, List.find?_cons, ih]
        by_cases he : entry.1 = key'
        · have : key ≠ key' := fun h => hkey (h.trans he.symm)
          simp [he, this]
        · simp [he]

theorem get?_insert (d : Dict α) (key key' : String) (value : α) :
    (d.insert key value).get? key' = if key = key' then some value else d.get? key' := by
  have found := find?_insertEntry key key' value d.entries
  unfold get? insert
  rw [found]
  split <;> rfl

theorem contains_insert (d : Dict α) (key key' : String) (value : α) :
    (d.insert key value).contains key' ↔ key = key' ∨ d.contains key' := by
  rw [contains, get?_insert]
  split
  · simp [*]
  · simp [*, contains]

theorem ofList_concat (entries : List (String × α)) (entry : String × α) :
    ofList (entries ++ [entry]) = (ofList entries).insert entry.1 entry.2 := by
  rw [ofList, List.foldl_append]
  rfl

/-- What is found stands in the list, and its key does not stand behind it. -/
theorem exists_last_of_get?_ofList {entries : List (String × α)} {key : String} {value : α}
    (h : (ofList entries).get? key = some value) :
    ∃ front rest, entries = front ++ (key, value) :: rest ∧ key ∉ rest.map Prod.fst := by
  induction entries using List.reverseRecOn with
  | nil => cases h
  | append_singleton entries entry ih =>
    rw [ofList_concat, get?_insert] at h
    split at h
    · rename_i hkey
      obtain rfl := Option.some.inj h
      obtain rfl := hkey
      exact ⟨entries, [], rfl, List.not_mem_nil⟩
    · rename_i hkey
      obtain ⟨front, rest, rfl, hrest⟩ := ih h
      refine ⟨front, rest ++ [entry], by simp, ?_⟩
      rw [List.map_append, List.mem_append, not_or]
      exact ⟨hrest, fun hmem => hkey (List.mem_singleton.1 hmem).symm⟩

/-- Only what is in the list is found. -/
theorem mem_of_get?_ofList {entries : List (String × α)} {key : String} {value : α}
    (h : (ofList entries).get? key = some value) : (key, value) ∈ entries := by
  obtain ⟨front, rest, rfl, -⟩ := exists_last_of_get?_ofList h
  exact List.mem_append_right _ List.mem_cons_self

/-- Every key of the list is found. -/
theorem exists_get?_ofList {entries : List (String × α)} {key : String}
    (h : key ∈ entries.map Prod.fst) : ∃ value, (ofList entries).get? key = some value := by
  induction entries using List.reverseRecOn with
  | nil => cases h
  | append_singleton entries entry ih =>
    rw [ofList_concat, get?_insert]
    by_cases hkey : entry.1 = key
    · exact ⟨entry.2, if_pos hkey⟩
    · rw [if_neg hkey]
      simp only [List.map_append, List.map_cons, List.map_nil, List.mem_append,
        List.mem_singleton] at h
      exact ih (h.resolve_right fun h => hkey h.symm)

theorem contains_ofList {entries : List (String × α)} {key : String} :
    (ofList entries).contains key ↔ key ∈ entries.map Prod.fst := by
  constructor
  · intro h
    obtain ⟨value, found⟩ := Option.isSome_iff_exists.1 h
    exact List.mem_map.2 ⟨_, mem_of_get?_ofList found, rfl⟩
  · exact fun h => Option.isSome_iff_exists.2 (exists_get?_ofList h)

/-- Of distinct keys each is bound to its value in the list. -/
theorem get?_ofList {entries : List (String × α)} (distinct : (entries.map Prod.fst).Nodup)
    {entry : String × α} (h : entry ∈ entries) :
    (ofList entries).get? entry.1 = some entry.2 := by
  obtain ⟨value, found⟩ := exists_get?_ofList (List.mem_map_of_mem h)
  have same : (entry.1, value) = entry :=
    List.inj_on_of_nodup_map distinct (mem_of_get?_ofList found) h rfl
  rw [found, ← same]

theorem mem_insertEntry {key : String} {value : α} {entries : List (String × α)}
    {entry : String × α} (h : entry ∈ insertEntry key value entries) :
    entry = (key, value) ∨ entry ∈ entries := by
  induction entries with
  | nil => simpa [insertEntry] using h
  | cons first rest ih =>
    unfold insertEntry at h
    split at h
    · simpa using h
    · split at h
      · rcases List.mem_cons.1 h with h | h
        · exact .inl h
        · exact .inr (List.mem_cons_of_mem _ h)
      · rcases List.mem_cons.1 h with h | h
        · exact .inr (h ▸ List.mem_cons_self)
        · exact (ih h).imp_right (List.mem_cons_of_mem _)

/-- Only what is in the list is in the dictionary. -/
theorem mem_of_mem_ofList {entries : List (String × α)} {entry : String × α}
    (h : entry ∈ (ofList entries).entries) : entry ∈ entries := by
  induction entries using List.reverseRecOn with
  | nil => cases h
  | append_singleton entries last ih =>
    rw [ofList_concat] at h
    rcases mem_insertEntry h with h | h
    · exact List.mem_append_right _ (List.mem_singleton.2 h)
    · exact List.mem_append_left _ (ih h)

/-! ## Entries in order -/

theorem insertEntry_concat {key : String} {value : α} {entries : List (String × α)}
    (h : ∀ entry ∈ entries, entry.1 < key) :
    insertEntry key value entries = entries ++ [(key, value)] := by
  induction entries with
  | nil => rfl
  | cons entry rest ih =>
    obtain ⟨hentry, hrest⟩ := List.forall_mem_cons.1 h
    have hne : key ≠ entry.1 := fun heq => String.lt_irrefl _ (heq ▸ hentry)
    rw [insertEntry, if_neg (String.lt_asymm hentry), if_neg hne, ih hrest, List.cons_append]

theorem entries_ofList {entries : List (String × α)}
    (h : entries.Pairwise fun a b => a.1 < b.1) : (ofList entries).entries = entries := by
  induction entries using List.reverseRecOn with
  | nil => rfl
  | append_singleton entries entry ih =>
    obtain ⟨hfront, -, hlast⟩ := List.pairwise_append.1 h
    have front := ih hfront
    rw [ofList_concat]
    change insertEntry entry.1 entry.2 (ofList entries).entries = _
    rw [front]
    exact insertEntry_concat fun e he => hlast e he entry (List.mem_singleton_self _)

/-- A dictionary is the dictionary of its entries. -/
theorem ofList_entries (d : Dict α) : ofList d.entries = d := ext (entries_ofList d.sorted)

theorem mem_entries_of_get? {d : Dict α} {key : String} {value : α} (h : d.get? key = some value) :
    (key, value) ∈ d.entries := by
  rw [← ofList_entries d] at h
  exact mem_of_get?_ofList h

theorem nodup_keys (d : Dict α) : (d.entries.map Prod.fst).Nodup :=
  List.Pairwise.map _ (fun _ _ hlt heq => String.lt_irrefl _ (heq ▸ hlt)) d.sorted

theorem mem_entries {d : Dict α} {entry : String × α} :
    entry ∈ d.entries ↔ d.get? entry.1 = some entry.2 := by
  refine ⟨fun h => ?_, mem_entries_of_get?⟩
  rw [← ofList_entries d]
  exact get?_ofList d.nodup_keys h

/-- Dictionaries in which the same is found under every key are equal. -/
theorem ext_get? {a b : Dict α} (h : ∀ key, a.get? key = b.get? key) : a = b := by
  have same : a.entries.Perm b.entries := by
    refine (List.perm_ext_iff_of_nodup a.nodup_keys.of_map b.nodup_keys.of_map).2 fun entry => ?_
    rw [mem_entries, mem_entries, h]
  exact ext (same.eq_of_pairwise
    (fun _ _ _ _ hlt hgt => absurd hgt (String.lt_asymm hlt)) a.sorted b.sorted)

/-- A dictionary with the entries of another one and no other keys is the same. -/
theorem eq_of_get? {a b : Dict α}
    (entries : ∀ {key value}, a.get? key = some value → b.get? key = some value)
    (keys : ∀ {key}, b.contains key → a.contains key) : a = b := by
  refine ext_get? fun key => ?_
  cases found : a.get? key with
  | some value => exact (entries found).symm
  | none =>
    refine (Option.eq_none_iff_forall_ne_some.2 fun value found' => ?_).symm
    have bound := keys (Option.isSome_iff_exists.2 ⟨value, found'⟩)
    rw [contains, found] at bound
    cases bound

end Codegen.Dict
