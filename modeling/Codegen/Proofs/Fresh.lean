import Codegen.Lowering.Names

/-!
# Names that a walk makes up

A temporary is an underscore and a number.  Every other name of a function is a stem, a dot and an
ending without a dot: a number for the slot of a local, `slot` and `param` for a parameter, `r` for
a hidden slot, `ptr` and `cast_ptr` for an array.  So the last dot of a name tells what the name was
made for, whatever dots the locals of the program have in their names: `Origin.name_injective`.
-/

namespace Codegen.Text

theorem decimal_injective {m n : Nat} (h : decimal m = decimal n) : m = n := by
  have digits : Nat.toDigits 10 m = Nat.toDigits 10 n := String.ofList_injective h
  have values := congrArg (Nat.ofDigitChars 10 · 0) digits
  simpa only [Nat.ofDigitChars_ten_toDigits] using values

@[simp]
theorem decimal_inj {m n : Nat} : decimal m = decimal n ↔ m = n :=
  ⟨decimal_injective, congrArg decimal⟩

theorem isDigit_of_mem_decimal {n : Nat} {c : Char} (h : c ∈ (decimal n).toList) :
    c.isDigit = true := by
  rw [decimal, String.toList_ofList] at h
  exact Nat.isDigit_of_mem_toDigits (by decide) (by decide) h

theorem dot_notMem_decimal (n : Nat) : '.' ∉ (decimal n).toList :=
  fun h => Bool.noConfusion (isDigit_of_mem_decimal h)

/-- Digits do not spell a text that has another character. -/
theorem decimal_ne {s : String} (h : s.toList.all Char.isDigit = false) (n : Nat) :
    decimal n ≠ s := by
  rintro rfl
  obtain ⟨c, hc, hd⟩ := List.all_eq_false.1 h
  exact hd (isDigit_of_mem_decimal hc)

/-- The last dot of a text is the same however the text is put together. -/
theorem dot_append_inj {a b s t : String} (h : a ++ "." ++ s = b ++ "." ++ t)
    (hs : '.' ∉ s.toList) (ht : '.' ∉ t.toList) : a = b ∧ s = t := by
  have lists : a.toList ++ '.' :: s.toList = b.toList ++ '.' :: t.toList := by
    simpa [String.toList_append] using congrArg String.toList h
  obtain ⟨c, hb, hc⟩ | ⟨c, ha, hc⟩ := List.append_eq_append_iff.1 lists
  · cases c with
    | nil => simp_all [String.toList_inj]
    | cons x c => exact absurd (List.cons.inj hc).2 fun hc => hs (hc ▸ by simp)
  · cases c with
    | nil => simp_all [String.toList_inj]
    | cons x c => exact absurd (List.cons.inj hc).2 fun hc => ht (hc ▸ by simp)

end Codegen.Text

namespace Codegen.Lowering

open Text (decimal)

/-- What a name of a function was made for. -/
inductive Origin where
  | temp (number : Nat)
  /-- The stack slot behind a temporary. -/
  | hidden (number : Nat)
  /-- The stack slot of a local. -/
  | defined (name : String) (number : Nat)
  /-- The stack slot of an array. -/
  | storage (number : Nat)
  /-- The address of the first element of an array. -/
  | element (number : Nat)
  /-- The stack slot of a parameter. -/
  | slot (name : String)
  | argument (name : String)
  deriving DecidableEq

namespace Origin

def name : Origin → String
  | temp number => "_" ++ decimal number
  | hidden number => "_" ++ decimal number ++ ".r"
  | defined name number => name ++ "." ++ decimal number
  | storage number => "arr." ++ decimal number ++ ".ptr"
  | element number => "arr." ++ decimal number ++ ".cast_ptr"
  | slot name => name ++ ".slot"
  | argument name => name ++ ".param"

/-- What stands in front of the last dot. -/
def stem : Origin → String
  | temp number => "_" ++ decimal number
  | hidden number => "_" ++ decimal number
  | defined name _ => name
  | storage number => "arr." ++ decimal number
  | element number => "arr." ++ decimal number
  | slot name => name
  | argument name => name

/-- What stands behind the last dot. -/
def ending? : Origin → Option String
  | temp _ => none
  | hidden _ => some "r"
  | defined _ number => some (decimal number)
  | storage _ => some "ptr"
  | element _ => some "cast_ptr"
  | slot _ => some "slot"
  | argument _ => some "param"

theorem name_of_ending {o : Origin} {ending : String} (h : o.ending? = some ending) :
    o.name = o.stem ++ "." ++ ending := by
  cases o <;> cases h <;> simp [name, stem, String.append_assoc]

theorem dot_notMem_ending {o : Origin} {ending : String} (h : o.ending? = some ending) :
    '.' ∉ ending.toList := by
  cases o <;> cases h
  case defined.refl => exact Text.dot_notMem_decimal _
  all_goals decide

theorem dot_mem_name {o : Origin} {ending : String} (h : o.ending? = some ending) :
    '.' ∈ o.name.toList := by
  rw [name_of_ending h]
  simp [String.toList_append]

theorem dot_notMem_name {o : Origin} (h : o.ending? = none) : '.' ∉ o.name.toList := by
  cases o <;> cases h
  simp [name, String.toList_append, Text.dot_notMem_decimal]

/-- The two sides of the last dot tell what a name was made for. -/
theorem eq_of_parts {o o' : Origin} (hs : o.stem = o'.stem) (he : o.ending? = o'.ending?) :
    o = o' := by
  have digits (n : Nat) : decimal n ≠ "r" ∧ decimal n ≠ "ptr" ∧ decimal n ≠ "cast_ptr" ∧
      decimal n ≠ "slot" ∧ decimal n ≠ "param" :=
    ⟨Text.decimal_ne (by decide) n, Text.decimal_ne (by decide) n, Text.decimal_ne (by decide) n,
      Text.decimal_ne (by decide) n, Text.decimal_ne (by decide) n⟩
  cases o <;> cases o' <;> simp_all [stem, ending?, eq_comm]

/-- No name is made twice. -/
theorem name_injective {o o' : Origin} (h : o.name = o'.name) : o = o' := by
  cases he : o.ending? with
  | none =>
    cases he' : o'.ending? with
    | none =>
      cases o <;> cases he
      cases o' <;> cases he'
      simpa [name] using h
    | some ending' => exact absurd (h ▸ dot_mem_name he') (dot_notMem_name he)
  | some ending =>
    cases he' : o'.ending? with
    | none => exact absurd (h ▸ dot_mem_name he) (dot_notMem_name he')
    | some ending' =>
      rw [name_of_ending he, name_of_ending he'] at h
      obtain ⟨hs, rfl⟩ := Text.dot_append_inj h (dot_notMem_ending he) (dot_notMem_ending he')
      exact eq_of_parts hs (he.trans he'.symm)

theorem name_ne {o o' : Origin} (h : o ≠ o') : o.name ≠ o'.name := fun hn => h (name_injective hn)

end Origin

end Codegen.Lowering
