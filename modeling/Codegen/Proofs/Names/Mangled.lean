import Codegen.Text.Mangle
import Mathlib.Data.List.Basic

/-!
# Symbol names

`mangle` changes a name up to its first `<` only, and there it leaves no `::` behind.  So a symbol
name is the symbol name of itself (`mangle_mangle`), and it does not matter whether the name of a
member is added before or after (`mangle_append_dot`).
-/

namespace Codegen.Text

/-- No `::` stands in the text. -/
def PathFree (text : List Char) : Prop := ¬ [':', ':'] <:+: text

instance (text : List Char) : Decidable (PathFree text) := inferInstanceAs (Decidable (¬ _))

theorem PathFree.of_cons {c : Char} {text : List Char} (h : PathFree (c :: text)) :
    PathFree text :=
  fun found => h (List.infix_cons found)

theorem PathFree.of_append {front text : List Char} (h : PathFree (front ++ text)) :
    PathFree front :=
  fun found => h (found.trans (List.prefix_append front text).isInfix)

/-- A colon that no colon follows does not start a `::`. -/
theorem pathFree_cons {c : Char} {text : List Char} (hc : c = ':' → text.head? ≠ some ':')
    (h : PathFree text) : PathFree (c :: text) := by
  intro found
  rcases List.infix_cons_iff.1 found with found | found
  · obtain ⟨rest, hrest⟩ := found
    obtain ⟨rfl, rfl⟩ := List.cons.inj hrest
    exact hc rfl rfl
  · exact h found

/-! ## Dots for colons -/

theorem dotted_cons {c : Char} {text : List Char} (h : c = ':' → text.head? ≠ some ':') :
    dotted (c :: text) = c :: dotted text := by
  rw [dotted]
  rintro rest rfl rfl
  exact h rfl rfl

theorem dotted_of_pathFree {text : List Char} (h : PathFree text) : dotted text = text := by
  induction text with
  | nil => rfl
  | cons c text ih =>
    rw [dotted_cons, ih h.of_cons]
    rintro rfl hcolon
    obtain ⟨rest, rfl⟩ : ∃ rest, text = ':' :: rest := List.head?_eq_some_iff.1 hcolon
    exact h (List.prefix_append [':', ':'] rest).isInfix

/-- The text begins with a colon only if it did before. -/
theorem head?_dotted {text : List Char} (h : (dotted text).head? = some ':') :
    text.head? = some ':' := by
  fun_cases dotted text with
  | case1 => simp [dotted] at h
  | case2 rest => rfl
  | case3 c rest hne =>
    rw [dotted] at h
    · exact h
    · exact hne

theorem pathFree_dotted (text : List Char) : PathFree (dotted text) := by
  fun_induction dotted text with
  | case1 => decide
  | case2 rest ih => exact pathFree_cons (fun h => absurd h (by decide)) ih
  | case3 c rest hne ih =>
    refine pathFree_cons ?_ ih
    rintro rfl hcolon
    obtain ⟨rest', rfl⟩ := List.head?_eq_some_iff.1 (head?_dotted hcolon)
    exact hne rest' rfl rfl

theorem dotted_dotted (text : List Char) : dotted (dotted text) = dotted text :=
  dotted_of_pathFree (pathFree_dotted text)

/-- A text behind something that is no colon is dotted on its own. -/
theorem dotted_append {c : Char} (hc : c ≠ ':') (front text : List Char) :
    dotted (front ++ c :: text) = dotted front ++ dotted (c :: text) := by
  fun_induction dotted front with
  | case1 => rfl
  | case2 rest ih => exact congrArg ('.' :: ·) ih
  | case3 d rest hne ih =>
    rw [List.cons_append, dotted_cons, ih, List.cons_append]
    rintro rfl hcolon
    cases rest with
    | nil => exact hc (Option.some.inj hcolon)
    | cons e rest => exact hne rest rfl (congrArg (· :: rest) (Option.some.inj hcolon))

theorem mem_of_mem_dotted {c : Char} {text : List Char} (hc : c ≠ '.') (h : c ∈ dotted text) :
    c ∈ text := by
  fun_induction dotted text with
  | case1 => exact h
  | case2 rest ih =>
    exact List.mem_cons_of_mem _ (List.mem_cons_of_mem _ (ih ((List.mem_cons.1 h).resolve_left hc)))
  | case3 d rest _ ih =>
    rcases List.mem_cons.1 h with rfl | h
    · exact List.mem_cons_self
    · exact List.mem_cons_of_mem _ (ih h)

/-! ## Paths and what follows them -/

/-- Up to the first `<`, a name is a path. -/
theorem mangleChars_append {path rest : List Char} (hpath : '<' ∉ path)
    (hrest : ∀ c ∈ rest.head?, c = '<') : mangleChars (path ++ rest) = dotted path ++ rest := by
  have before : ∀ c ∈ path, decide (c ≠ '<') = true := by
    intro c hc
    exact decide_eq_true fun h => hpath (h ▸ hc)
  rw [mangleChars, List.takeWhile_append_of_pos before, List.dropWhile_append_of_pos before]
  cases rest with
  | nil => simp
  | cons c rest =>
    obtain rfl := hrest c rfl
    simp

/-- Every name is a path and what follows it from the first `<` on. -/
theorem exists_path (name : List Char) :
    ∃ path rest, name = path ++ rest ∧ '<' ∉ path ∧ ∀ c ∈ rest.head?, c = '<' := by
  refine ⟨name.takeWhile (· ≠ '<'), name.dropWhile (· ≠ '<'),
    List.takeWhile_append_dropWhile.symm, fun h => ?_, fun c hc => ?_⟩
  · simpa using List.all_eq_true.1 List.all_takeWhile _ h
  · have first := List.head?_dropWhile_not (fun c => decide (c ≠ '<')) name
    rw [hc] at first
    simpa using first

theorem mangleChars_mangleChars (name : List Char) :
    mangleChars (mangleChars name) = mangleChars name := by
  obtain ⟨path, rest, rfl, hpath, hrest⟩ := exists_path name
  have hdotted : '<' ∉ dotted path := fun h => hpath (mem_of_mem_dotted (by decide) h)
  rw [mangleChars_append hpath hrest, mangleChars_append hdotted hrest, dotted_dotted]

theorem mangleChars_append_dot (name : List Char) {member : List Char} (h : PathFree member) :
    mangleChars (name ++ '.' :: member) = mangleChars name ++ '.' :: member := by
  obtain ⟨path, rest, rfl, hpath, hrest⟩ := exists_path name
  rw [mangleChars_append hpath hrest]
  cases rest with
  | nil =>
    -- the name has no `<`, but the member may have one
    obtain ⟨front, behind, rfl, hfront, hbehind⟩ := exists_path member
    have hjoined : '<' ∉ path ++ '.' :: front := by simp [hpath, hfront]
    have whole : path ++ [] ++ '.' :: (front ++ behind) = (path ++ '.' :: front) ++ behind := by
      simp
    rw [whole, mangleChars_append hjoined hbehind, dotted_append (by decide),
      dotted_cons fun h => absurd h (by decide), dotted_of_pathFree h.of_append]
    simp
  | cons c rest =>
    have whole : path ++ c :: rest ++ '.' :: member = path ++ (c :: (rest ++ '.' :: member)) := by
      simp
    have first : ∀ d ∈ (c :: (rest ++ '.' :: member)).head?, d = '<' := fun d hd => hrest d hd
    rw [whole, mangleChars_append hpath first]
    simp

theorem mangle_mangle (name : String) : mangle (mangle name) = mangle name := by
  rw [mangle, mangle, String.toList_ofList, mangleChars_mangleChars]

/-- The name of a member may be added before or after the name of its owner is mangled. -/
theorem mangle_append_dot (name : String) {member : String} (h : PathFree member.toList) :
    mangle (name ++ "." ++ member) = mangle name ++ "." ++ member := by
  have chars : (name ++ "." ++ member).toList = name.toList ++ '.' :: member.toList := by
    simp [String.toList_append]
  rw [← String.toList_inj, mangle, chars, mangleChars_append_dot _ h, mangle]
  simp [String.toList_append]

end Codegen.Text
