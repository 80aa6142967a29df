import Codegen.Proofs.Fresh
import Codegen.Proofs.Names.Unambiguous
import Codegen.Proofs.Types.Declared

/-!
# Printed types in quotes

Quotes are added to a name and nothing else is changed, so deleting them gives the name back
(`filter_quoteChars`).  In the printed form of a type, whatever its generic arguments are, each
`<`, `:` and `>` stands in quotes, the sigil in front of them and the pointer levels behind them;
an array has this form between its brackets (`Printed`).
-/

namespace Codegen.Text

/-! ## Quotes that are deleted -/

/-- Without its quotes, a printed name is the name without its quotes. -/
theorem filter_quoteChars (name : List Char) :
    (quoteChars name).filter (· ≠ '"') = name.filter (· ≠ '"') := by
  fun_induction quoteChars name with
  | case1 name _ count element found ih =>
    rw [(arrayParts?_eq_some found).1]
    simp only [List.filter_append, List.filter_cons, ih]
    simp
  | case2 name =>
    have opening (base : List Char) :
        (opened base).filter (· ≠ '"') = base.filter (· ≠ '"') := by
      fun_cases opened base <;> simp
    conv => rhs; rw [← starless_append_trailingStars name, List.filter_append]
    rw [quoteBase_eq, List.filter_append, opening]
    simp
  | case3 name => rfl

theorem filter_quoted {name : String} (h : '"' ∉ name.toList) :
    (quoted name).toList.filter (· ≠ '"') = name.toList := by
  rw [quoted, String.toList_ofList, filter_quoteChars, List.filter_eq_self]
  intro c hc
  exact decide_eq_true fun same => h (same ▸ hc)

/-! ## Characters in quotes -/

/-- Reading from the left, quotes open and close in turn and the last one closes; what needs quotes
stands behind an opening and in front of a closing one. -/
def quotesCover : (isOpen : Bool) → List Char → Bool
  | isOpen, [] => !isOpen
  | isOpen, c :: rest =>
    if c = '"' then quotesCover (!isOpen) rest
    else (isOpen || !needsQuotes c) && quotesCover isOpen rest

theorem quotesCover_append {isOpen : Bool} {front : List Char}
    (h : quotesCover isOpen front = true) (rest : List Char) :
    quotesCover isOpen (front ++ rest) = quotesCover false rest := by
  induction front generalizing isOpen with
  | nil =>
    obtain rfl : isOpen = false := by simpa [quotesCover] using h
    rfl
  | cons c front ih =>
    rw [quotesCover] at h
    rw [List.cons_append, quotesCover]
    by_cases hc : c = '"'
    · rw [if_pos hc] at h ⊢
      exact ih h
    · rw [if_neg hc] at h ⊢
      obtain ⟨hcover, hrest⟩ := Bool.and_eq_true_iff.1 h
      rw [hcover, ih hrest, Bool.true_and]

theorem quotesCover_of_bare {text : List Char} (hq : '"' ∉ text)
    (hn : text.any needsQuotes = false) : quotesCover false text = true := by
  induction text with
  | nil => rfl
  | cons c text ih =>
    simp only [List.mem_cons, not_or, List.any_cons, Bool.or_eq_false_iff] at hq hn
    rw [quotesCover, if_neg (Ne.symm hq.1), hn.1, ih hq.2 hn.2]
    rfl

/-- Everything may stand between two quotes but a quote. -/
theorem quotesCover_between {base : List Char} (h : '"' ∉ base) :
    quotesCover false ('"' :: (base ++ ['"'])) = true := by
  have inside : quotesCover true (base ++ ['"']) = true := by
    induction base with
    | nil => rfl
    | cons c base ih =>
      simp only [List.mem_cons, not_or] at h
      rw [List.cons_append, quotesCover, if_neg (Ne.symm h.1), ih h.2]
      rfl
  exact inside

/-! ## Printed names -/

/-- A text without quotes and stars. -/
def IsPlain (text : String) : Prop := '"' ∉ text.toList ∧ '*' ∉ text.toList

instance (text : String) : Decidable (IsPlain text) := inferInstanceAs (Decidable (_ ∧ _))

/-- What stands in front of pointer levels: it has no quotes and does not end with a star. -/
structure IsBase (base : String) : Prop where
  noQuote : '"' ∉ base.toList
  noStar : ¬ IsStarred base

/-- What holds of the printed form `text` of a name behind `levels` pointers. -/
structure Printed (name : String) (levels : Nat) (text : String) : Prop where
  /-- Each `<`, `:` and `>` stands in quotes. -/
  covered : quotesCover false text.toList = true
  /-- A sigil stands in front of the opening quote. -/
  sigil : name.toList.head? = some '%' → '"' ∈ text.toList →
    ∃ rest, text.toList = '%' :: '"' :: rest
  /-- There are as many stars at the end as there are levels, right behind the closing quote if
  there are quotes. -/
  stars : ∃ front, text = front ++ stars levels ∧ ¬ IsStarred front ∧
    ('"' ∈ text.toList → ['"'] <:+ front.toList)

theorem not_suffix_concat {c : Char} (hc : c ≠ '*') (front : List Char) :
    ¬ ['*'] <:+ front ++ [c] := by
  intro h
  rcases suffix_append h with h | ⟨hnil, -⟩
  · exact hc (List.mem_singleton.1 (h.subset List.mem_cons_self)).symm
  · cases hnil

theorem IsPlain.isBase {text : String} (h : IsPlain text) : IsBase text :=
  ⟨h.1, fun starred => h.2 (starred.subset List.mem_cons_self)⟩

theorem IsBase.append {front text : String} (hf : IsBase front) (ht : IsBase text) :
    IsBase (front ++ text) := by
  constructor
  · simp [String.toList_append, hf.noQuote, ht.noQuote]
  · exact fun starred => ht.noStar (starred.of_append hf.noStar)

theorem IsBase.mangle {name : String} (h : IsBase name) : IsBase (mangle name) := by
  constructor
  · intro hm
    apply h.noQuote
    rw [Text.mangle, String.toList_ofList, mangleChars, List.mem_append] at hm
    rw [← List.takeWhile_append_dropWhile (p := (· ≠ '<')) (l := name.toList), List.mem_append]
    exact hm.imp_left (mem_of_mem_dotted (by decide))
  · exact fun starred => h.noStar starred.of_mangle

theorem toList_append_stars (base : String) (n : Nat) :
    (base ++ stars n).toList = base.toList ++ List.replicate n '*' := by
  rw [String.toList_append, stars, String.toList_ofList]

theorem starless_append_stars {base : String} (h : ¬ IsStarred base) (n : Nat) :
    starless (base ++ stars n).toList = base.toList := by
  have stars : ∀ c ∈ List.replicate n '*', decide (c = '*') = true := by
    intro c hc
    simp [List.eq_of_mem_replicate hc]
  have kept : base.toList.reverse.dropWhile (fun c => decide (c = '*')) = base.toList.reverse := by
    cases hr : base.toList.reverse with
    | nil => rfl
    | cons c rest =>
      have hc : c ≠ '*' := by
        rintro rfl
        apply h
        rw [IsStarred, List.reverse_eq_cons_iff.1 hr]
        exact List.suffix_append _ _
      simp [hc]
  rw [toList_append_stars, starless, List.reverse_append, List.reverse_replicate,
    List.dropWhile_append_of_pos stars, kept, List.reverse_reverse]

/-- The quotes stand around the name, behind its sigil and in front of its stars. -/
theorem quoteBase_append_stars {base : String} (h : ¬ IsStarred base) (n : Nat) :
    quoteBase (base ++ stars n).toList =
      opened base.toList ++ '"' :: List.replicate n '*' := by
  have base_eq := starless_append_stars h n
  have stars_eq : trailingStars (base ++ stars n).toList = List.replicate n '*' := by
    have parts := starless_append_trailingStars (base ++ stars n).toList
    rw [base_eq] at parts
    exact List.append_cancel_left (parts.trans (toList_append_stars base n))
  rw [quoteBase_eq, base_eq, stars_eq]

theorem quotesCover_opened {base : List Char} (h : '"' ∉ base) (n : Nat) :
    quotesCover false (opened base ++ '"' :: List.replicate n '*') = true := by
  have stars : quotesCover false (List.replicate n '*') = true := by
    apply quotesCover_of_bare
    · simp [List.mem_replicate]
    · simp [needsQuotes]
  have closed {base : List Char} (h : '"' ∉ base) :
      quotesCover false ('"' :: (base ++ '"' :: List.replicate n '*')) = true := by
    have split : '"' :: (base ++ '"' :: List.replicate n '*') =
        '"' :: (base ++ ['"']) ++ List.replicate n '*' := by
      simp
    rw [split, quotesCover_append (quotesCover_between h), stars]
  fun_cases opened base with
  | case1 base =>
    have rest : '"' ∉ base := fun hm => h (List.mem_cons_of_mem _ hm)
    exact closed rest
  | case2 base =>
    have rest : '"' ∉ base := fun hm => h (List.mem_cons_of_mem _ hm)
    exact closed rest
  | case3 => exact closed h

/-- A sigil is in front of the stars, so it is the first character of the name. -/
theorem exists_opened_of_sigil {base : List Char} {n : Nat}
    (h : (base ++ List.replicate n '*').head? = some '%') :
    ∃ rest, opened base = '%' :: '"' :: rest := by
  cases base with
  | nil =>
    have star := List.eq_of_mem_replicate (List.mem_of_mem_head? h)
    exact absurd star (by decide)
  | cons c rest =>
    obtain rfl : c = '%' := Option.some.inj h
    exact ⟨rest, rfl⟩

/-- The printed form of a name that is no array. -/
theorem printed_quoted {base : String} (h : IsBase base) {n : Nat}
    (hne : (base ++ stars n).toList.head? ≠ some '[') :
    Printed (base ++ stars n) n (quoted (base ++ stars n)) := by
  have printed := quoteChars_of_arrayParts? (arrayParts?_of_head hne)
  cases hq : (base ++ stars n).toList.any needsQuotes with
  | false =>
    have same : quoted (base ++ stars n) = base ++ stars n := by
      rw [quoted, printed, hq, if_neg (by decide), String.ofList_toList]
    have noQuote : '"' ∉ (base ++ stars n).toList := by
      rw [toList_append_stars]
      simp [h.noQuote, List.mem_replicate]
    rw [same]
    exact ⟨quotesCover_of_bare noQuote hq, fun _ quote => absurd quote noQuote, base, rfl,
      h.noStar, fun quote => absurd quote noQuote⟩
  | true =>
    rw [hq, if_pos rfl, quoteBase_append_stars h.noStar] at printed
    have text : (quoted (base ++ stars n)).toList =
        opened base.toList ++ '"' :: List.replicate n '*' := by
      rw [quoted, String.toList_ofList, printed]
    refine ⟨?_, fun head _ => ?_, String.ofList (opened base.toList ++ ['"']), ?_, ?_, fun _ => ?_⟩
    · rw [text]
      exact quotesCover_opened h.noQuote n
    · rw [toList_append_stars] at head
      obtain ⟨rest, hopened⟩ := exists_opened_of_sigil head
      rw [text, hopened]
      exact ⟨_, rfl⟩
    · apply String.toList_inj.1
      rw [text, toList_append_stars]
      simp
    · rw [IsStarred, String.toList_ofList]
      exact not_suffix_concat (by decide) _
    · rw [String.toList_ofList]
      exact List.suffix_append _ _

/-! ## Printed arrays -/

theorem any_needsQuotes_decimal (n : Nat) : (decimal n).toList.any needsQuotes = false := by
  rw [List.any_eq_false]
  intro c hc marked
  have mark : (c = '<' ∨ c = ':') ∨ c = '>' := by simpa [needsQuotes] using marked
  have digit := isDigit_of_mem_decimal hc
  rcases mark with (rfl | rfl) | rfl <;> cases digit

theorem splitTimes_append {count : List Char} (h : ' ' ∉ count) (element : List Char) :
    splitTimes (count ++ ' ' :: 'x' :: ' ' :: element) = some (count, element) := by
  induction count with
  | nil => rfl
  | cons c count ih =>
    simp only [List.mem_cons, not_or] at h
    rw [List.cons_append, splitTimes, ih h.2]
    · rfl
    · rintro rest rfl
      exact absurd rfl h.1

theorem arrayParts?_array {count : List Char} (h : ' ' ∉ count) (element : List Char) :
    arrayParts? ('[' :: (count ++ ' ' :: 'x' :: ' ' :: (element ++ [']']))) =
      some (count, element) := by
  have inner : bracketed? ('[' :: (count ++ ' ' :: 'x' :: ' ' :: (element ++ [']']))) =
      some (count ++ ' ' :: 'x' :: ' ' :: element) := by
    rw [bracketed?, dropEnding?_eq_some_iff]
    simp
  rw [arrayParts?, inner]
  exact splitTimes_append h element

/-- An array is printed like its element, between its brackets. -/
theorem quoteChars_array {count : List Char} (h : ' ' ∉ count)
    (hn : count.any needsQuotes = false) (element : List Char) :
    quoteChars ('[' :: (count ++ ' ' :: 'x' :: ' ' :: (element ++ [']']))) =
      '[' :: (count ++ ' ' :: 'x' :: ' ' :: (quoteChars element ++ [']'])) := by
  have needs : ('[' :: (count ++ ' ' :: 'x' :: ' ' :: (element ++ [']']))).any needsQuotes =
      element.any needsQuotes := by
    simp [hn, needsQuotes]
  cases hq : element.any needsQuotes with
  | false =>
    rw [hq] at needs
    rw [quoteChars, if_neg (by simp [needs]), quoteChars, if_neg (by simp [hq])]
  | true => exact quoteChars_of_array (needs.trans hq) (arrayParts?_array h element)

end Codegen.Text

namespace Codegen.Ty

open Text (IsBase IsPlain)

/-- Down to all generic arguments, names and paths have no quotes and no stars. -/
inductive Plain : Ty → Prop where
  | mk {ty : Ty} (name : IsPlain ty.name) (path : IsPlain ty.path)
      (generics : ∀ argument ∈ ty.generics, Plain argument) : Plain ty

theorem isPlain_qualify {path name : String} (hp : IsPlain path) (hn : IsPlain name) :
    IsPlain (qualify path name) := by
  unfold qualify
  split
  · exact hn
  · constructor
    · simp [String.toList_append, hp.1, hn.1]
    · simp [String.toList_append, hp.2, hn.2]

theorem quote_notMem_argumentText {generics : List Ty}
    (h : ∀ argument ∈ generics, IsBase argument.fullPath) : '"' ∉ argumentText generics := by
  by_cases hg : generics = []
  · simp [hg, argumentText]
  · intro hm
    have joined : '"' ∈ (Text.join "," (generics.map starredPath)).toList := by
      simpa [argumentText_of_ne_nil hg] using hm
    rcases Text.mem_join joined with hm | ⟨part, hpart, hm⟩
    · exact absurd hm (by decide)
    · obtain ⟨argument, hargument, rfl⟩ := List.mem_map.1 hpart
      rw [starredPath_eq, Text.toList_append_stars, List.mem_append] at hm
      rcases hm with hm | hm
      · exact (h argument hargument).noQuote hm
      · exact absurd (List.eq_of_mem_replicate hm) (by decide)

/-- Arguments end with `>`, whatever stars they have. -/
theorem not_suffix_argumentText (generics : List Ty) : ¬ ['*'] <:+ argumentText generics := by
  by_cases hg : generics = []
  · simp [hg, argumentText]
  · rw [argumentText_of_ne_nil hg, ← List.cons_append]
    exact Text.not_suffix_concat (by decide) _

theorem Plain.isBase_fullPath {ty : Ty} (h : ty.Plain) : IsBase ty.fullPath := by
  induction h with
  | @mk ty name path generics ih =>
    have qualified := (isPlain_qualify path name).isBase
    constructor
    · rw [toList_fullPath, List.mem_append, not_or]
      exact ⟨qualified.noQuote, quote_notMem_argumentText ih⟩
    · rw [Text.IsStarred, toList_fullPath]
      intro starred
      rcases Text.suffix_append starred with h | ⟨-, h⟩
      · exact not_suffix_argumentText _ h
      · exact qualified.noStar h

end Codegen.Ty

namespace Codegen.TypeMap

open Text (IsBase IsPlain Printed quoted quotesCover)

variable (types : TypeMap) {ty : Ty}

theorem isBase_declaredName (h : ty.Plain) : IsBase (types.declaredName ty) := by
  have path := h.isBase_fullPath
  unfold declaredName
  split
  · exact (IsPlain.isBase (by decide)).append path.mangle
  · exact (IsPlain.isBase (by decide)).append path.mangle
  · exact IsPlain.isBase (by decide)
  · exact (IsPlain.isBase (by decide)).append path

theorem isBase_baseName (h : ty.Plain) : IsBase (types.baseName ty) := by
  unfold baseName
  split
  · rename_i base hbase
    have basic : ∀ text ∈ ["i64", "i32", "i16", "i8", "double", "float", "void", "i1"],
        IsPlain text := by
      decide
    split at hbase
    · exact (basic base (basicType?_mem hbase)).isBase
    · cases hbase
  · split
    · exact IsPlain.isBase (by decide)
    · exact types.isBase_declaredName h

/-- The printed form of a type, whatever its kind. -/
theorem printed_map (h : ty.Plain) :
    Printed (types.map ty) (levels ty) (quoted (types.map ty)) := by
  apply Text.printed_quoted
  · unfold pointable
    split
    · exact IsPlain.isBase (by decide)
    · exact types.isBase_baseName h
  · exact types.head?_map ty

/-! ## Arrays of types -/

theorem plain_element (h : ty.Plain) : (element ty).Plain := by
  obtain ⟨name, path, generics⟩ := h
  exact ⟨name, path, generics⟩

theorem quoted_mapArray (ty : Ty) : quoted (types.mapArray ty) =
    "[" ++ Text.decimal ty.arrayLength ++ " x " ++ quoted (types.map (element ty)) ++ "]" := by
  have noSpace : ' ' ∉ (Text.decimal ty.arrayLength).toList :=
    fun hm => absurd (Text.isDigit_of_mem_decimal hm) (by decide)
  have array : (types.mapArray ty).toList = '[' :: ((Text.decimal ty.arrayLength).toList ++
      ' ' :: 'x' :: ' ' :: ((types.map (element ty)).toList ++ [']'])) := by
    simp [mapArray, String.toList_append]
  apply String.toList_inj.1
  rw [quoted, String.toList_ofList, array,
    Text.quoteChars_array noSpace (Text.any_needsQuotes_decimal _)]
  simp [String.toList_append, quoted]

theorem quotesCover_mapArray (h : ty.Plain) :
    quotesCover false (quoted (types.mapArray ty)).toList = true := by
  have front : quotesCover false ("[" ++ Text.decimal ty.arrayLength ++ " x ").toList = true := by
    apply Text.quotesCover_of_bare
    · intro hm
      have digit : '"' ∈ (Text.decimal ty.arrayLength).toList := by
        simpa [String.toList_append] using hm
      exact absurd (Text.isDigit_of_mem_decimal digit) (by decide)
    · simp [String.toList_append, Text.any_needsQuotes_decimal, Text.needsQuotes]
  have element := (types.printed_map (plain_element h)).covered
  rw [quoted_mapArray, String.append_assoc, String.toList_append, Text.quotesCover_append front,
    String.toList_append, Text.quotesCover_append element]
  rfl

/-- One level less is still a number of 64 bits but for the smallest one. -/
theorem depthInRange_element {ty : Ty} (h : ty.DepthInRange) :
    (element ty).DepthInRange ↔ -0x8000_0000_0000_0000 < ty.depth := by
  obtain ⟨lower, upper⟩ := h
  change _ ≤ ty.depth - 1 ∧ ty.depth - 1 < _ ↔ _
  omega

/-! ## Quoted names -/

/-- Quotes are all that is added to a name, and so names are kept apart.  In a printed type they
stand around each `<`, `:` and `>`, behind the sigil and in front of one star for each pointer level
and for a reference; in a printed array they do so between the brackets.  The elements of an array
have one level less, which is in range for all but the smallest number of levels. -/
theorem quotes_lose_nothing_and_cover_marks :
    (∀ name : String, '"' ∉ name.toList →
      (quoted name).toList.filter (· ≠ '"') = name.toList) ∧
    Function.Injective quoted ∧
    ∀ (table : SymbolTable) (ty : Ty), ty.Plain →
      Printed ((ofSymbols table).map ty)
        ((max ty.depth 0).toNat + if ty.isReference then 1 else 0)
        (quoted ((ofSymbols table).map ty)) ∧
      quotesCover false (quoted ((ofSymbols table).mapArray ty)).toList = true ∧
      ∃ text : String,
        quoted ((ofSymbols table).mapArray ty) =
          "[" ++ Text.decimal ty.arrayLength ++ " x " ++ text ++ "]" ∧
        Printed ((ofSymbols table).map (element ty)) (max (ty.depth - 1) 0).toNat text ∧
        (ty.DepthInRange →
          ((element ty).DepthInRange ↔ -0x8000_0000_0000_0000 < ty.depth)) := by
  refine ⟨fun _ => Text.filter_quoted, fun _ _ => Text.quoted_inj, fun table ty h => ?_⟩
  have outer : (max ty.depth 0).toNat + (if ty.isReference then 1 else 0) = levels ty := by
    rw [levels, max_def]
    split <;> omega
  have inner : (max (ty.depth - 1) 0).toNat = levels (element ty) := by
    change _ = (ty.depth - 1).toNat + 0
    omega
  rw [outer, inner]
  exact ⟨printed_map _ h, quotesCover_mapArray _ h, _, quoted_mapArray _ ty,
    printed_map _ (plain_element h), depthInRange_element⟩

namespace Sample

/-- References to arrays of `std::map<i64*,std::vec<u8>>`. -/
def nested : Ty where
  name := "map"
  path := "std"
  generics := [.primitive "i64" 1, { name := "vec", path := "std", generics := [.u8] }]
  depth := 2
  isArray := true
  arrayLength := 4
  isReference := true

def maps : SymbolTable := SymbolTable.addStruct {} "std" { name := "map<i64*,std::vec<u8>>" }

end Sample

theorem nested_quotes_cover_marks :
    Sample.nested.Plain ∧
      '"' ∉ "vec<i64>.push".toList ∧
      (quoted "vec<i64>.push").toList.filter (· ≠ '"') = "vec<i64>.push".toList ∧
      Printed "%struct.std.map<i64*,std::vec<u8>>***" 3
        "%\"struct.std.map<i64*,std::vec<u8>>\"***" ∧
      ∃ text : String, quoted ((ofSymbols Sample.maps).mapArray Sample.nested) =
          "[" ++ Text.decimal 4 ++ " x " ++ text ++ "]" ∧
        Printed "%struct.std.map<i64*,std::vec<u8>>*" 1 text ∧
        (element Sample.nested).DepthInRange := by
  have u8 : Ty.u8.Plain := ⟨by decide, by decide, nofun⟩
  have i64 : (Ty.primitive "i64" 1).Plain := ⟨by decide, by decide, nofun⟩
  have vec : ({ name := "vec", path := "std", generics := [.u8] } : Ty).Plain :=
    ⟨by decide, by decide, List.forall_mem_singleton.2 u8⟩
  have plain : Sample.nested.Plain :=
    ⟨by decide, by decide, List.forall_mem_cons.2 ⟨i64, List.forall_mem_singleton.2 vec⟩⟩
  have noQuote : '"' ∉ "vec<i64>.push".toList := by decide
  obtain ⟨deleted, -, types⟩ := quotes_lose_nothing_and_cover_marks
  obtain ⟨printed, -, text, array, inner, range⟩ := types Sample.maps Sample.nested plain
  have map : (ofSymbols Sample.maps).map Sample.nested =
      "%struct.std.map<i64*,std::vec<u8>>***" := by
    decide +kernel
  have mapElement : (ofSymbols Sample.maps).map (element Sample.nested) =
      "%struct.std.map<i64*,std::vec<u8>>*" := by
    decide +kernel
  have quotes : quoted "%struct.std.map<i64*,std::vec<u8>>***" =
      "%\"struct.std.map<i64*,std::vec<u8>>\"***" := by
    decide +kernel
  rw [map, quotes] at printed
  rw [mapElement] at inner
  exact ⟨plain, noQuote, deleted _ noQuote, printed, text, array, inner,
    (range ⟨by decide, by decide⟩).2 (by decide)⟩

end Codegen.TypeMap
