import Mathlib.Data.List.Forall2

/-!
# Lists

Facts about lists in general that several developments here rest on: changes of single members, and
lists that are related member by member.
-/

namespace Codegen

variable {α β γ : Type}

/-! ## Changes of members -/

theorem modify_left {i : Nat} {front : List α} (h : i < front.length) (f : α → α)
    (back : List α) : (front ++ back).modify i f = front.modify i f ++ back := by
  induction front generalizing i with
  | nil => cases h
  | cons a front ih =>
    cases i with
    | zero => rfl
    | succ i =>
      rw [List.cons_append, List.modify_succ_cons, List.modify_succ_cons, List.cons_append,
        ih (Nat.lt_of_succ_lt_succ h)]

theorem modify_right (i : Nat) (f : α → α) (front back : List α) :
    (front ++ back).modify (front.length + i) f = front ++ back.modify i f := by
  induction front with
  | nil => rw [List.length_nil, Nat.zero_add, List.nil_append, List.nil_append]
  | cons a front ih =>
    rw [List.length_cons, Nat.add_right_comm, List.cons_append, List.modify_succ_cons, ih,
      List.cons_append]

/-- A change of one member keeps what the change of any member keeps. -/
theorem map_modify_of_eq {f : α → α} {view : α → β} (hf : ∀ a, view (f a) = view a)
    (l : List α) (i : Nat) : (l.modify i f).map view = l.map view := by
  refine List.ext_getElem? fun j => ?_
  rw [List.getElem?_map, List.getElem?_map, List.getElem?_modify]
  cases l[j]? with
  | none => rfl
  | some a => by_cases h : i = j <;> simp [h, hf]

theorem modifyHead_self (l : List α) : l.modifyHead (fun a => a) = l :=
  congrFun List.modifyHead_id l

theorem isEmpty_modifyHead (f : α → α) (l : List α) : (l.modifyHead f).isEmpty = l.isEmpty := by
  cases l <;> rfl

theorem getElem?_of_isPrefix {l l' : List α} (h : l <+: l') {i : Nat} {a : α}
    (hi : l[i]? = some a) : l'[i]? = some a := by
  obtain ⟨more, rfl⟩ := h
  rw [List.getElem?_append_left (List.getElem?_eq_some_iff.1 hi).1, hi]

/-! ## Related members -/

variable {R S : α → β → Prop}

/-- What stands in the first of two related lists is related to something in the second. -/
theorem exists_mem_of_forall₂ {xs : List α} {ys : List β} (h : List.Forall₂ R xs ys) {x : α}
    (hx : x ∈ xs) : ∃ y ∈ ys, R x y := by
  induction h with
  | nil => cases hx
  | cons hxy _ ih =>
    rcases List.mem_cons.1 hx with rfl | hx
    · exact ⟨_, List.mem_cons_self, hxy⟩
    · obtain ⟨y, hy, hr⟩ := ih hx
      exact ⟨y, List.mem_cons_of_mem _ hy, hr⟩

/-- It is related to what stands at the same place. -/
theorem exists_getElem?_of_forall₂ {xs : List α} {ys : List β} (h : List.Forall₂ R xs ys) {i : Nat}
    {x : α} (hx : xs[i]? = some x) : ∃ y, ys[i]? = some y ∧ R x y := by
  induction h generalizing i with
  | nil => cases hx
  | cons hxy _ ih =>
    cases i with
    | zero =>
      obtain rfl := Option.some.inj hx
      exact ⟨_, rfl, hxy⟩
    | succ i => exact ih hx

/-- Related lists have the same image when related members have. -/
theorem map_eq_map_of_forall₂ {f : α → γ} {g : β → γ} {xs : List α} {ys : List β}
    (h : List.Forall₂ R xs ys) (hR : ∀ x y, R x y → g y = f x) : ys.map g = xs.map f := by
  induction h with
  | nil => rfl
  | cons hx _ ih => rw [List.map_cons, List.map_cons, hR _ _ hx, ih]

/-! ## Members related to some of another list, in order -/

theorem sublistForall₂_append {xs xs' : List α} {ys ys' : List β} (h : List.SublistForall₂ R xs ys)
    (h' : List.SublistForall₂ R xs' ys') :
    List.SublistForall₂ R (xs ++ xs') (ys ++ ys') := by
  rw [List.sublistForall₂_iff] at h h' ⊢
  obtain ⟨zs, hr, hs⟩ := h
  obtain ⟨zs', hr', hs'⟩ := h'
  exact ⟨zs ++ zs', List.rel_append hr hr', hs.append hs'⟩

theorem sublistForall₂_imp (hR : ∀ x y, R x y → S x y) {xs : List α} {ys : List β}
    (h : List.SublistForall₂ R xs ys) : List.SublistForall₂ S xs ys := by
  rw [List.sublistForall₂_iff] at h ⊢
  exact h.imp fun _ ⟨hr, hs⟩ => ⟨hr.imp hR, hs⟩

/-- They are among all that the other list is among. -/
theorem sublistForall₂_of_sublist_right {xs : List α} {ys zs : List β}
    (h : List.SublistForall₂ R xs ys) (hs : ys.Sublist zs) : List.SublistForall₂ R xs zs := by
  rw [List.sublistForall₂_iff] at h ⊢
  exact h.imp fun _ ⟨hr, hs'⟩ => ⟨hr, hs'.trans hs⟩

/-- Where some members are left out, the others are still related. -/
theorem sublistForall₂_of_sublist_left {xs ws : List α} {ys : List β}
    (h : List.SublistForall₂ R xs ys) (hs : ws.Sublist xs) : List.SublistForall₂ R ws ys := by
  induction h generalizing ws with
  | nil =>
    rw [List.sublist_nil.1 hs]
    exact .nil
  | cons hr _ ih =>
    cases hs with
    | cons _ hs => exact (ih hs).cons_right
    | cons_cons _ hs => exact .cons hr (ih hs)
  | cons_right _ ih => exact (ih hs).cons_right

end Codegen
