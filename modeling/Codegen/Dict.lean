/-!
# Dictionaries

A dictionary keeps its entries sorted by key and each key once, so two dictionaries with the same
contents are equal and the order of the entries is the order of the keys.
-/

namespace Codegen

/-- Entries sorted by strictly increasing keys. -/
structure Dict (α : Type) where
  entries : List (String × α)
  sorted : entries.Pairwise fun a b => a.1 < b.1

namespace Dict

variable {α : Type}

/-- The dictionary without entries. -/
def empty : Dict α := ⟨[], .nil⟩

instance : EmptyCollection (Dict α) := ⟨empty⟩
instance : Inhabited (Dict α) := ⟨empty⟩

@[ext] theorem ext {a b : Dict α} (h : a.entries = b.entries) : a = b := by
  cases a; cases b; cases h; rfl

/-- A sorted list of entries with `key` bound to `value`. -/
def insertEntry (key : String) (value : α) : List (String × α) → List (String × α)
  | [] => [(key, value)]
  | entry :: rest =>
    if key < entry.1 then (key, value) :: entry :: rest
    else if key = entry.1 then (key, value) :: rest
    else entry :: insertEntry key value rest

theorem lt_of_mem_insertEntry {key bound : String} {value : α} {entries : List (String × α)}
    (hkey : bound < key) (h : ∀ e ∈ entries, bound < e.1) :
    ∀ e ∈ insertEntry key value entries, bound < e.1 := by
  induction entries with
  | nil => simpa [insertEntry] using hkey
  | cons entry rest ih =>
    have hhead := h entry (by simp)
    have hrest : ∀ e ∈ rest, bound < e.1 := fun e he => h e (by simp [he])
    intro e he
    unfold insertEntry at he
    split at he
    · rcases List.mem_cons.1 he with rfl | he
      · exact hkey
      · exact h e he
    · split at he
      · rcases List.mem_cons.1 he with rfl | he
        · exact hkey
        · exact hrest e he
      · rcases List.mem_cons.1 he with rfl | he
        · exact hhead
        · exact ih hrest e he

theorem pairwise_insertEntry {key : String} {value : α} {entries : List (String × α)}
    (h : entries.Pairwise fun a b => a.1 < b.1) :
    (insertEntry key value entries).Pairwise fun a b => a.1 < b.1 := by
  induction entries with
  | nil => simp [insertEntry]
  | cons entry rest ih =>
    obtain ⟨hhead, hrest⟩ := List.pairwise_cons.1 h
    unfold insertEntry
    split
    · rename_i hlt
      refine List.pairwise_cons.2 ⟨fun e he => ?_, h⟩
      rcases List.mem_cons.1 he with rfl | he
      · exact hlt
      · exact String.lt_trans hlt (hhead e he)
    · split
      · rename_i heq
        subst heq
        exact List.pairwise_cons.2 ⟨hhead, hrest⟩
      · rename_i hnot hne
        refine List.pairwise_cons.2 ⟨?_, ih hrest⟩
        have hlt : entry.1 < key := by
          rcases String.le_total key entry.1 with hle | hle
          · exact absurd (String.le_antisymm hle (String.not_lt.1 hnot)) hne
          · refine Decidable.byContradiction fun hcon => ?_
            exact hne (String.le_antisymm (String.not_lt.1 hcon) (String.not_lt.1 hnot))
        exact lt_of_mem_insertEntry hlt hhead

/-- The dictionary with `key` bound to `value`, whatever it was bound to before. -/
def insert (d : Dict α) (key : String) (value : α) : Dict α :=
  ⟨insertEntry key value d.entries, pairwise_insertEntry d.sorted⟩

/-- The dictionary of a list of entries; the last entry of a key wins. -/
def ofList (entries : List (String × α)) : Dict α :=
  entries.foldl (fun d entry => d.insert entry.1 entry.2) empty

/-- The value bound to `key`. -/
def get? (d : Dict α) (key : String) : Option α :=
  (d.entries.find? fun entry => entry.1 = key).map Prod.snd

/-- Whether `key` is bound. -/
def contains (d : Dict α) (key : String) : Bool :=
  (d.get? key).isSome

/-- The keys in increasing order. -/
def keys (d : Dict α) : List String := d.entries.map Prod.fst

/-- The values in the order of their keys. -/
def values (d : Dict α) : List α := d.entries.map Prod.snd

/-- The dictionary without `key`. -/
def erase (d : Dict α) (key : String) : Dict α :=
  ⟨d.entries.filter (fun entry => entry.1 ≠ key), d.sorted.sublist List.filter_sublist⟩

end Dict

/-- A set of names: a dictionary of its members. -/
abbrev NameSet := Dict Unit

/-- The set of the names of a list. -/
def NameSet.ofList (names : List String) : NameSet :=
  Dict.ofList (names.map fun name => (name, ()))

end Codegen
