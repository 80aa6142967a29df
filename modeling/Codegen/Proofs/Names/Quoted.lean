import Codegen.Proofs.Types.Variadic
import Mathlib.Data.List.TakeWhile

/-!
# Quoting keeps names apart

A printed name tells the name it was printed from: whether it has been quoted is told by its
characters, an array by its opening bracket, a sigil by the character in front of the quote, and
the stars of a pointer by the characters behind the last quote.
-/

namespace Codegen.Text

/-! ## Parts of a text -/

/-- The part of a text before the first character that ends it. -/
theorem span_append_inj {p : Char → Bool} {a b r r' : List Char} (ha : ∀ c ∈ a, p c = false)
    (hb : ∀ c ∈ b, p c = false) (hr : ∀ c ∈ r.head?, p c = true)
    (hr' : ∀ c ∈ r'.head?, p c = true) (h : a ++ r = b ++ r') : a = b ∧ r = r' := by
  have apart {c : Char} {b r : List Char} (hb : ∀ d ∈ c :: b, p d = false)
      (hr : ∀ d ∈ (c :: b ++ r).head?, p d = true) : False :=
    Bool.noConfusion ((hr c rfl).symm.trans (hb c List.mem_cons_self))
  induction a generalizing b with
  | nil =>
    cases b with
    | nil => exact ⟨rfl, h⟩
    | cons c b =>
      obtain rfl : r = c :: b ++ r' := h
      exact (apart hb hr).elim
  | cons c a ih =>
    cases b with
    | nil =>
      obtain rfl : c :: a ++ r = r' := h
      exact (apart ha hr').elim
    | cons d b =>
      obtain ⟨hcd, hrest⟩ := List.cons.inj h
      obtain ⟨hab, hrest⟩ := ih (fun c hc => ha c (List.mem_cons_of_mem _ hc))
        (fun c hc => hb c (List.mem_cons_of_mem _ hc)) hrest
      exact ⟨by rw [hcd, hab], hrest⟩

/-- The part of a text behind the last such character. -/
theorem append_cons_span_inj {p : Char → Bool} {a b r r' : List Char} {c : Char} (hc : p c = true)
    (hr : ∀ c ∈ r, p c = false) (hr' : ∀ c ∈ r', p c = false) (h : a ++ c :: r = b ++ c :: r') :
    a = b ∧ r = r' := by
  have reversed := congrArg List.reverse h
  simp only [List.reverse_append, List.reverse_cons, List.append_assoc, List.singleton_append]
    at reversed
  have ends {q : List Char} : ∀ d ∈ (c :: q).head?, p d = true :=
    fun d hd => Option.some.inj hd ▸ hc
  obtain ⟨back, front⟩ := span_append_inj (fun d hd => hr d (List.mem_reverse.1 hd))
    (fun d hd => hr' d (List.mem_reverse.1 hd)) ends ends reversed
  exact ⟨List.reverse_inj.1 (List.cons.inj front).2, List.reverse_inj.1 back⟩

/-! ## Names in quotes -/

theorem eq_star_of_mem_trailingStars {name : List Char} {c : Char} (h : c ∈ trailingStars name) :
    c = '*' := by
  rw [trailingStars, List.mem_reverse] at h
  simpa using List.mem_takeWhile_imp h

/-- The opening quote stands behind a sigil. -/
def opened : List Char → List Char
  | '%' :: base => '%' :: '"' :: base
  | '@' :: base => '@' :: '"' :: base
  | base => '"' :: base

theorem opened_inj {a b : List Char} (h : opened a = opened b) : a = b := by
  revert h
  fun_cases opened a <;> fun_cases opened b <;> intro h <;> simp_all

theorem any_opened (name : List Char) : (opened name).any needsQuotes = name.any needsQuotes := by
  fun_cases opened name <;> simp [needsQuotes]

theorem quoteBase_eq (name : List Char) :
    quoteBase name = opened (starless name) ++ '"' :: trailingStars name := by
  unfold quoteBase
  split <;> simp_all [opened]

theorem any_quoteBase (name : List Char) :
    (quoteBase name).any needsQuotes = name.any needsQuotes := by
  conv => rhs; rw [← starless_append_trailingStars name, List.any_append]
  rw [quoteBase_eq, List.any_append, any_opened, List.any_cons]
  rfl

theorem quoteBase_inj {a b : List Char} (h : quoteBase a = quoteBase b) : a = b := by
  rw [quoteBase_eq, quoteBase_eq] at h
  obtain ⟨bases, stars⟩ := append_cons_span_inj (p := (· ≠ '*')) (by decide)
    (fun _ hc => by simp [eq_star_of_mem_trailingStars hc])
    (fun _ hc => by simp [eq_star_of_mem_trailingStars hc]) h
  rw [← starless_append_trailingStars a, ← starless_append_trailingStars b, opened_inj bases, stars]

/-- The first ` x ` is found whatever stands behind it. -/
theorem splitTimes_eq_some {text count element : List Char}
    (h : splitTimes text = some (count, element)) :
    text = count ++ ' ' :: 'x' :: ' ' :: element ∧
      ∀ other, splitTimes (count ++ ' ' :: 'x' :: ' ' :: other) = some (count, other) := by
  induction text using splitTimes.induct generalizing count with
  | case1 rest =>
    obtain ⟨rfl, rfl⟩ := Prod.mk.inj (Option.some.inj h)
    exact ⟨rfl, fun _ => rfl⟩
  | case2 => cases h
  | case3 c rest hne ih =>
    rw [splitTimes] at h
    · obtain ⟨⟨count', element'⟩, hrest, heq⟩ := Option.map_eq_some_iff.1 h
      obtain ⟨rfl, rfl⟩ := Prod.mk.inj heq
      obtain ⟨rfl, again⟩ := ih hrest
      refine ⟨rfl, fun other => ?_⟩
      rw [List.cons_append, splitTimes, again other]
      · rfl
      · rintro rest' rfl hrest'
        -- up to three characters decide, and they are the same in front of `element`
        obtain _ | ⟨d, _ | ⟨e, count'⟩⟩ := count' <;> simp_all
    · exact hne

theorem bracketed?_eq_some {name inner : List Char} (h : bracketed? name = some inner) :
    name = '[' :: (inner ++ [']']) := by
  unfold bracketed? at h
  split at h
  · rw [dropEnding?_eq_some_iff.1 h]
  · cases h

theorem arrayParts?_eq_some {name count element : List Char}
    (h : arrayParts? name = some (count, element)) :
    name = '[' :: (count ++ ' ' :: 'x' :: ' ' :: (element ++ [']'])) ∧
      ∀ other, splitTimes (count ++ ' ' :: 'x' :: ' ' :: other) = some (count, other) := by
  obtain ⟨inner, hinner, hsplit⟩ := Option.bind_eq_some_iff.1 h
  obtain ⟨rfl, again⟩ := splitTimes_eq_some hsplit
  refine ⟨?_, again⟩
  rw [bracketed?_eq_some hinner]
  simp

/-- The printed form of an array with a name that needs quotes. -/
theorem quoteChars_of_array {name count element : List Char} (hq : name.any needsQuotes = true)
    (h : arrayParts? name = some (count, element)) :
    quoteChars name = '[' :: (count ++ ' ' :: 'x' :: ' ' :: (quoteChars element ++ [']'])) := by
  rw [quoteChars, if_pos hq]
  split
  · rename_i found
    obtain ⟨rfl, rfl⟩ := Prod.mk.inj (Option.some.inj (h.symm.trans found))
    simp
  · rename_i found
    cases h.symm.trans found

theorem any_quoteChars (name : List Char) :
    (quoteChars name).any needsQuotes = name.any needsQuotes := by
  fun_induction quoteChars name with
  | case1 name _ count element found ih =>
    rw [(arrayParts?_eq_some found).1]
    simp [ih]
  | case2 name => exact any_quoteBase name
  | case3 name => rfl

theorem head?_quoteBase (name : List Char) : (quoteBase name).head? ≠ some '[' := by
  rw [quoteBase_eq]
  fun_cases opened (starless name) <;> simp

/-- Quoting keeps names apart: what is quoted can be told from what is not, arrays from other
names, and in each form the name is found again. -/
theorem quoteChars_inj {a b : List Char} (h : quoteChars a = quoteChars b) : a = b := by
  induction hn : a.length using Nat.strong_induction_on generalizing a b with
  | h n ih =>
    have needs : b.any needsQuotes = a.any needsQuotes := by
      rw [← any_quoteChars b, ← h, any_quoteChars]
    cases hq : a.any needsQuotes with
    | false =>
      rw [quoteChars, quoteChars, needs, hq] at h
      exact h
    | true =>
      rw [hq] at needs
      rcases ha : arrayParts? a with _ | ⟨count, element⟩
      · rw [quoteChars_of_arrayParts? ha, if_pos hq] at h
        rcases hb : arrayParts? b with _ | ⟨count', element'⟩
        · rw [quoteChars_of_arrayParts? hb, if_pos needs] at h
          exact quoteBase_inj h
        · rw [quoteChars_of_array needs hb] at h
          exact absurd (congrArg List.head? h) (head?_quoteBase a)
      · rw [quoteChars_of_array hq ha] at h
        rcases hb : arrayParts? b with _ | ⟨count', element'⟩
        · rw [quoteChars_of_arrayParts? hb, if_pos needs] at h
          exact absurd (congrArg List.head? h.symm) (head?_quoteBase b)
        · rw [quoteChars_of_array needs hb] at h
          obtain ⟨hname, again⟩ := arrayParts?_eq_some ha
          obtain ⟨hname', again'⟩ := arrayParts?_eq_some hb
          have parts := congrArg splitTimes (List.cons.inj h).2
          rw [again, again'] at parts
          obtain ⟨rfl, elements⟩ := Prod.mk.inj (Option.some.inj parts)
          have shorter : element.length < n := hn ▸ length_of_arrayParts? ha
          obtain rfl := ih _ shorter (List.append_cancel_right elements) rfl
          rw [hname, hname']

theorem quoted_inj {a b : String} (h : quoted a = quoted b) : a = b :=
  String.toList_inj.1 (quoteChars_inj (String.ofList_inj.1 h))

end Codegen.Text
