import Codegen.Json.Number
import Codegen.Lowering.Expression
import Mathlib.Algebra.Field.Rat
import Mathlib.Data.List.Induction
import Mathlib.Data.List.TakeWhile
import Mathlib.Data.Nat.Digits.Defs

/-!
# Number literals keep their value

A whole number may be spelled in hexadecimal or octal digits, and then the number that is read from
them (`number?_of_isSpelling`) is printed in decimal ones.  A floating-point number gets the
fraction `.0` if it has none, which changes its text but not the rational number that it denotes
(`floatText_text`, `value_pointed`).  What has been printed once is printed again as it is.
-/

namespace Codegen.Text

/-! ## Digits in a base -/

/-- The text spells `n` in a base: it consists of digits, each in either case, that have the value
`n`.  There may be zeros in front. -/
def IsSpelling (base n : Nat) (text : List Char) : Prop :=
  ∃ digits : List Nat, digits ≠ [] ∧ (∀ d ∈ digits, d < base) ∧
    text.map Char.toLower = digits.map Nat.digitChar ∧ Nat.ofDigits base digits.reverse = n

theorem digitsFrom?_append (base before : Nat) (text more : List Char) :
    digitsFrom? base before (text ++ more) =
      (digitsFrom? base before text).bind (digitsFrom? base · more) := by
  induction text generalizing before with
  | nil => rfl
  | cons c text ih =>
    simp only [List.cons_append, digitsFrom?, ih]
    cases digitValue? base c <;> rfl

section Base

variable {base : Nat} (hb : base = 8 ∨ base = 16)
include hb

theorem digitValue?_toLower (c : Char) : digitValue? base c.toLower = digitValue? base c := by
  by_cases hc : c.toNat < 128
  · have ascii : ∀ n < 128,
        digitValue? base (Char.ofNat n).toLower = digitValue? base (Char.ofNat n) := by
      rcases hb with rfl | rfl <;> decide
    have value := ascii c.toNat hc
    rwa [Char.ofNat_toNat] at value
  · have notLetter : c.toLower = c := by
      unfold Char.toLower
      rw [dif_neg]
      simp only [ge_iff_le, UInt32.le_iff_toNat_le]
      rintro ⟨-, hz⟩
      exact hc (hz.trans_lt (by decide))
    rw [notLetter]

theorem digitValue?_digitChar {d : Nat} (hd : d < base) :
    digitValue? base d.digitChar = some d := by
  revert d
  rcases hb with rfl | rfl <;> decide

theorem digitsFrom?_toLower (before : Nat) (text : List Char) :
    digitsFrom? base before (text.map Char.toLower) = digitsFrom? base before text := by
  induction text generalizing before with
  | nil => rfl
  | cons c text ih => simp only [List.map_cons, digitsFrom?, digitValue?_toLower hb, ih]

theorem digitsFrom?_digitChar {digits : List Nat} (h : ∀ d ∈ digits, d < base) :
    digitsFrom? base 0 (digits.map Nat.digitChar) = some (Nat.ofDigits base digits.reverse) := by
  -- the last digit counts least, so the induction takes digits from the end
  induction digits using List.reverseRecOn with
  | nil => rfl
  | append_singleton digits d ih =>
    obtain ⟨hdigits, hd⟩ := List.forall_mem_append.1 h
    have last := digitValue?_digitChar hb (hd d List.mem_cons_self)
    rw [List.map_append, digitsFrom?_append, ih hdigits, List.reverse_append]
    simp only [List.map_cons, List.map_nil, Option.bind_some, digitsFrom?, last]
    exact congrArg some (Nat.add_comm _ _)

/-- A spelling is read as the number it spells. -/
theorem number?_of_isSpelling {n : Nat} {text : List Char} (h : IsSpelling base n text) :
    number? base text = some n := by
  obtain ⟨digits, hne, hdigits, htext, rfl⟩ := h
  have nonempty : text.isEmpty = false := by
    cases text with
    | cons => rfl
    | nil => exact absurd (List.map_eq_nil_iff.1 htext.symm) hne
  rw [number?, nonempty, if_neg (by decide), ← digitsFrom?_toLower hb, htext,
    digitsFrom?_digitChar hb hdigits]

end Base

/-! ## Decimal numbers with fraction and exponent -/

/-- Decimal digits, at least one. -/
structure Digits where
  chars : List Char
  ne_nil : chars ≠ []
  isDigit : ∀ c ∈ chars, c.isDigit = true

/-- The exponent of a number: its mark, a sign or none, and digits. -/
structure Exponent where
  mark : Char
  sign : Option Char
  digits : Digits
  isMark : mark = 'e' ∨ mark = 'E'
  isSign : ∀ c ∈ sign, c = '+' ∨ c = '-'

/-- A decimal number: digits, and maybe a fraction and an exponent. -/
structure Numeral where
  whole : Digits
  fraction : Option Digits
  exponent : Option Exponent

/-- The spelling of an exponent. -/
def Exponent.text (e : Exponent) : List Char := e.mark :: (e.sign.toList ++ e.digits.chars)

/-- The power of ten that an exponent stands for. -/
def Exponent.value (e : Exponent) : Int :=
  if e.sign = some '-' then -(ofDigits e.digits.chars : Int) else ofDigits e.digits.chars

/-- The number `whole.decimals · 10 ^ exponent`. -/
def scaled (whole decimals : List Char) (exponent : Int) : ℚ :=
  (ofDigits whole + ofDigits decimals / 10 ^ decimals.length) * 10 ^ exponent

namespace Numeral

/-- The spelling of the fraction. -/
def fractionText (x : Numeral) : List Char := x.fraction.elim [] fun digits => '.' :: digits.chars

/-- The spelling of the exponent. -/
def exponentText (x : Numeral) : List Char := x.exponent.elim [] Exponent.text

/-- The spelling of a decimal number. -/
def text (x : Numeral) : List Char := x.whole.chars ++ (x.fractionText ++ x.exponentText)

/-- The rational number that a decimal number stands for. -/
def value (x : Numeral) : ℚ :=
  scaled x.whole.chars (x.fraction.elim [] Digits.chars) (x.exponent.elim 0 Exponent.value)

/-- The same number with a fraction, which is `.0` if there was none. -/
def pointed (x : Numeral) : Numeral :=
  { x with fraction := some (x.fraction.getD ⟨['0'], by decide, by simp⟩) }

end Numeral

/-- The rational number that a text denotes, if the text is a decimal number. -/
def rational? (text : List Char) : Option ℚ :=
  match text.takeWhile Char.isDigit with
  | [] => none
  | whole => do
    let (decimals, rest) ← Json.fraction? (text.dropWhile Char.isDigit)
    let exponent ← Json.exponent? rest
    return scaled whole decimals exponent

/-! ## Reading a decimal number -/

namespace Digits

variable (digits : Digits) {rest : List Char}

theorem takeWhile_append (h : ∀ c ∈ rest.head?, c.isDigit = false) :
    (digits.chars ++ rest).takeWhile Char.isDigit = digits.chars := by
  rw [List.takeWhile_append_of_pos digits.isDigit]
  cases rest with
  | nil => simp
  | cons c rest => simp [h c rfl]

theorem dropWhile_append (h : ∀ c ∈ rest.head?, c.isDigit = false) :
    (digits.chars ++ rest).dropWhile Char.isDigit = rest := by
  rw [List.dropWhile_append_of_pos digits.isDigit]
  cases rest with
  | nil => rfl
  | cons c rest => simp [h c rfl]

theorem notMem {c : Char} (hc : c.isDigit = false) : c ∉ digits.chars :=
  fun h => Bool.noConfusion (hc.symm.trans (digits.isDigit c h))

theorem exponentDigits? : Json.exponentDigits? digits.chars = some (ofDigits digits.chars) := by
  have valid : (digits.chars.isEmpty || !digits.chars.all Char.isDigit) = false := by
    simpa [digits.ne_nil] using digits.isDigit
  rw [Json.exponentDigits?, valid, if_neg (by decide)]

end Digits

theorem Exponent.exponent?_text (e : Exponent) : Json.exponent? e.text = some e.value := by
  have marked : (e.mark = 'e' || e.mark = 'E') = true := by simpa using e.isMark
  rw [text, Json.exponent?, if_pos marked, value]
  have digits := e.digits.exponentDigits?
  cases hsign : e.sign with
  | none =>
    rw [Option.toList_none, List.nil_append, Json.signedExponent?, digits]
    · rfl
    · exact fun _ h => e.digits.notMem (c := '+') rfl (h ▸ List.mem_cons_self)
    · exact fun _ h => e.digits.notMem (c := '-') rfl (h ▸ List.mem_cons_self)
  | some c =>
    rcases e.isSign c hsign with rfl | rfl
    · simp [Json.signedExponent?, digits]
    · simp [Json.signedExponent?, digits]

namespace Numeral

variable (x : Numeral)

theorem head?_exponentText : ∀ c ∈ x.exponentText.head?, c = 'e' ∨ c = 'E' := by
  intro c hc
  unfold exponentText at hc
  cases he : x.exponent with
  | none => simp [he] at hc
  | some e =>
    obtain rfl : e.mark = c := by simpa [he, Exponent.text] using hc
    exact e.isMark

theorem exponent?_exponentText :
    Json.exponent? x.exponentText = some (x.exponent.elim 0 Exponent.value) := by
  unfold exponentText
  cases x.exponent with
  | none => rfl
  | some e => exact e.exponent?_text

theorem fraction?_text : Json.fraction? (x.fractionText ++ x.exponentText) =
    some (x.fraction.elim [] Digits.chars, x.exponentText) := by
  have ends : ∀ c ∈ x.exponentText.head?, c.isDigit = false := by
    intro c hc
    rcases x.head?_exponentText c hc with rfl | rfl <;> rfl
  unfold fractionText
  cases hf : x.fraction with
  | none =>
    rw [Option.elim_none, List.nil_append, Option.elim_none, Json.fraction?]
    rintro rest hrest
    rcases x.head?_exponentText '.' (hrest ▸ rfl) with h | h <;> cases h
  | some digits =>
    rw [Option.elim_some, List.cons_append, Json.fraction?, digits.takeWhile_append ends,
      digits.dropWhile_append ends]
    split
    next h => exact absurd h digits.ne_nil
    next => rfl

/-- The spelling of a decimal number denotes its value. -/
theorem rational?_text : rational? x.text = some x.value := by
  have ends : ∀ c ∈ (x.fractionText ++ x.exponentText).head?, c.isDigit = false := by
    intro c hc
    unfold fractionText at hc
    cases hf : x.fraction with
    | none =>
      rw [hf] at hc
      rcases x.head?_exponentText c hc with rfl | rfl <;> rfl
    | some digits =>
      obtain rfl : '.' = c := by simpa [hf] using hc
      rfl
  rw [rational?, text, x.whole.takeWhile_append ends, x.whole.dropWhile_append ends,
    fraction?_text]
  split
  next h => exact absurd h x.whole.ne_nil
  next =>
    simp only [bind, Option.bind_some, exponent?_exponentText]
    rfl

theorem value_pointed : x.pointed.value = x.value := by
  unfold value pointed
  cases x.fraction with
  | none =>
    have zero : ofDigits ['0'] = 0 := rfl
    have none : ofDigits [] = 0 := rfl
    simp [scaled, zero, none]
  | some digits => rfl

end Numeral

end Codegen.Text

namespace Codegen.Lowering

open Text (IsSpelling Numeral rational?)

/-! ## Whole numbers -/

theorem basedNumber?_of_isSpelling {base n : Nat} (hb : base = 8 ∨ base = 16)
    (hn : n < 0x1_0000_0000_0000_0000) {text : List Char} (h : IsSpelling base n text) :
    basedNumber? base text = some n := by
  have read := Text.number?_of_isSpelling hb h
  have word : word64? base text = some n := by
    simp [word64?, read, hn]
  unfold basedNumber?
  split
  · -- a plus sign is no digit
    have none : Text.digitValue? base '+' = none := rfl
    simp [Text.number?, Text.digitsFrom?, none] at read
  · exact word

theorem wholeText_of_isDigit {text : List Char} (h : ∀ c ∈ text, c.isDigit = true) :
    wholeText text = text := by
  unfold wholeText
  split
  next => exact absurd (h 'x' (by simp)) (by decide)
  next => exact absurd (h 'o' (by simp)) (by decide)
  next => rfl

/-- The text stays as it is, or it is printed in decimal digits. -/
theorem wholeText_cases (literal : List Char) :
    wholeText literal = literal ∨ ∃ n, wholeText literal = Nat.toDigits 10 n := by
  have cases (number : Option Nat) :
      (number.map (Nat.toDigits 10)).getD literal = literal ∨
        ∃ n, (number.map (Nat.toDigits 10)).getD literal = Nat.toDigits 10 n := by
    cases number with
    | none => exact .inl rfl
    | some n => exact .inr ⟨n, rfl⟩
  unfold wholeText
  split
  · exact cases _
  · exact cases _
  · exact .inl rfl

theorem wholeText_wholeText (literal : List Char) :
    wholeText (wholeText literal) = wholeText literal := by
  rcases wholeText_cases literal with same | ⟨n, decimal⟩
  · rw [same, same]
  · rw [decimal]
    apply wholeText_of_isDigit
    intro c hc
    exact Nat.isDigit_of_mem_toDigits (by decide) (by decide) hc

/-! ## Floating-point numbers -/

theorem floatText_of_mem {literal : List Char} (h : '.' ∈ literal) :
    floatText literal = literal := by
  rw [floatText, if_pos (by simpa using h)]

theorem floatText_floatText (literal : List Char) :
    floatText (floatText literal) = floatText literal := by
  by_cases h : '.' ∈ literal
  · rw [floatText_of_mem h, floatText_of_mem h]
  · apply floatText_of_mem
    rw [floatText, if_neg (by simpa using h)]
    simp

section Numerals

variable (x : Numeral)

/-- The exponent begins at the first mark. -/
theorem takeWhile_text :
    x.text.takeWhile (fun c => !isExponentMark c) = x.whole.chars ++ x.fractionText := by
  have unmarked : ∀ c ∈ x.whole.chars ++ x.fractionText, (!isExponentMark c) = true := by
    intro c hc
    have digit (digits : Text.Digits) (hc : c ∈ digits.chars) : (!isExponentMark c) = true := by
      by_contra marked
      have mark : c = 'e' ∨ c = 'E' := by
        simpa [isExponentMark, or_iff_not_imp_left] using marked
      rcases mark with rfl | rfl <;> exact digits.notMem rfl hc
    rcases List.mem_append.1 hc with hc | hc
    · exact digit x.whole hc
    · unfold Numeral.fractionText at hc
      cases hf : x.fraction with
      | none => simp [hf] at hc
      | some digits =>
        rw [hf] at hc
        rcases List.mem_cons.1 hc with rfl | hc
        · rfl
        · exact digit digits hc
  have ends : x.exponentText.takeWhile (fun c => !isExponentMark c) = [] := by
    cases he : x.exponentText with
    | nil => rfl
    | cons c rest =>
      rcases x.head?_exponentText c (he ▸ rfl) with rfl | rfl <;> rfl
  rw [Numeral.text, ← List.append_assoc, List.takeWhile_append_of_pos unmarked, ends,
    List.append_nil]

theorem dropWhile_text : x.text.dropWhile (fun c => !isExponentMark c) = x.exponentText := by
  have parts := List.takeWhile_append_dropWhile (p := fun c => !isExponentMark c) (l := x.text)
  rw [takeWhile_text] at parts
  nth_rewrite 2 [Numeral.text] at parts
  rw [← List.append_assoc] at parts
  exact List.append_cancel_left parts

theorem point_mem_text : '.' ∈ x.text ↔ x.fraction.isSome := by
  have whole := x.whole.notMem (c := '.') rfl
  have behind : '.' ∉ x.exponentText := by
    unfold Numeral.exponentText
    cases x.exponent with
    | none => simp
    | some e =>
      have mark : '.' ≠ e.mark := by rcases e.isMark with h | h <;> rw [h] <;> decide
      have sign : '.' ∉ e.sign.toList := by
        intro h
        rcases e.isSign '.' (by simpa using h) with h | h <;> cases h
      simp [Text.Exponent.text, mark, sign, e.digits.notMem (c := '.') rfl]
  unfold Numeral.text Numeral.fractionText
  cases x.fraction with
  | none => simp [whole, behind]
  | some digits => simp

/-- A number without fraction is printed with the fraction `.0`. -/
theorem floatText_text : floatText x.text = x.pointed.text := by
  cases hf : x.fraction with
  | none =>
    have noPoint : x.text.contains '.' = false := by
      have := (point_mem_text x).not.2 (by simp [hf])
      simpa using this
    rw [floatText, noPoint, if_neg (by decide), takeWhile_text, dropWhile_text]
    simp [Numeral.text, Numeral.pointed, Numeral.fractionText, Numeral.exponentText, hf]
  | some digits =>
    rw [floatText_of_mem ((point_mem_text x).2 (by simp [hf]))]
    simp [Numeral.text, Numeral.pointed, Numeral.fractionText, Numeral.exponentText, hf]

/-- The fraction stands in front of the exponent. -/
theorem point_mem_takeWhile :
    '.' ∈ x.pointed.text.takeWhile (fun c => !isExponentMark c) := by
  rw [takeWhile_text]
  simp [Numeral.pointed, Numeral.fractionText]

end Numerals

/-! ## Number literals -/

/-- A floating-point literal is printed with its fraction. -/
theorem toList_numberText {type : Ty} (float : type.isFloat = true) (x : Numeral) :
    (numberText (String.ofList x.text) type).toList = x.pointed.text := by
  rw [numberText, if_pos float, String.toList_ofList, String.toList_ofList, floatText_text]

theorem numberText_numberText (literal : String) (type : Ty) :
    numberText (numberText literal type) type = numberText literal type := by
  unfold numberText
  rw [String.toList_ofList]
  split
  · rw [floatText_floatText]
  · rw [wholeText_wholeText]

/-- Literals keep their value when they are printed.  Hexadecimal and octal spellings of a number of
64 bits become its decimal digits; a decimal number with or without fraction and exponent becomes a
text that denotes the same rational number and has a point in front of any exponent; and what has
been printed stays as it is. -/
theorem literals_keep_their_value :
    (∀ n < 2 ^ 64, ∀ type : Ty, type.isFloat = false → ∀ text : List Char,
      (IsSpelling 16 n text →
        numberText ("0x" ++ String.ofList text) type = Text.decimal n) ∧
      (IsSpelling 8 n text →
        numberText ("0o" ++ String.ofList text) type = Text.decimal n)) ∧
    (∀ type : Ty, type.isFloat = true → ∀ x : Numeral,
      rational? x.text = some x.value ∧
      rational? (numberText (String.ofList x.text) type).toList = some x.value ∧
      '.' ∈ (numberText (String.ofList x.text) type).toList.takeWhile (· ∉ ['e', 'E'])) ∧
    ∀ (literal : String) (type : Ty),
      numberText (numberText literal type) type = numberText literal type := by
  refine ⟨fun n hn type whole text => ⟨fun h => ?_, fun h => ?_⟩, fun type float x => ?_,
    numberText_numberText⟩
  · have read := basedNumber?_of_isSpelling (.inr rfl) hn h
    simp [numberText, whole, String.toList_append, wholeText, read, Text.decimal]
  · have read := basedNumber?_of_isSpelling (.inl rfl) hn h
    simp [numberText, whole, String.toList_append, wholeText, read, Text.decimal]
  · rw [toList_numberText float]
    refine ⟨x.rational?_text, ?_, ?_⟩
    · rw [x.pointed.rational?_text, x.value_pointed]
    · have mark : (fun c => decide (c ∉ ['e', 'E'])) = fun c => !isExponentMark c := by
        funext c
        simp [isExponentMark]
      rw [mark]
      exact point_mem_takeWhile x

namespace Sample

/-- Two ten-thousandths. -/
def tiny : Numeral where
  whole := ⟨['2'], by decide, by simp⟩
  fraction := none
  exponent := some ⟨'E', some '-', ⟨['0', '4'], by decide, by simp⟩, .inr rfl, by simp⟩

end Sample

theorem largest_and_tiny_keep_their_value :
    IsSpelling 16 (2 ^ 64 - 1) "0fFfFfFfFfFfFfFfF".toList ∧ IsSpelling 8 15 "017".toList ∧
      numberText "0x0fFfFfFfFfFfFfFfF" .u64 = "18446744073709551615" ∧
      numberText "0o017" .i32 = "15" ∧
      numberText "2E-04" .f64 = "2.0E-04" ∧
      rational? "2.0E-04".toList = some (1 / 5000) ∧
      numberText (numberText "0x" .i64) .i64 = numberText "0x" .i64 := by
  have largest : IsSpelling 16 (2 ^ 64 - 1) "0fFfFfFfFfFfFfFfF".toList :=
    ⟨0 :: List.replicate 16 15, by decide, by decide, by decide, by decide +kernel⟩
  have octal : IsSpelling 8 15 "017".toList :=
    ⟨[0, 1, 7], by decide, by decide, by decide, by decide⟩
  obtain ⟨whole, float, again⟩ := literals_keep_their_value
  obtain ⟨-, printed, -⟩ := float .f64 rfl Sample.tiny
  have value : Sample.tiny.value = 1 / 5000 := by decide +kernel
  rw [value] at printed
  refine ⟨largest, octal, ((whole (2 ^ 64 - 1) (by decide) .u64 rfl _).1 largest).trans ?_,
    ((whole 15 (by decide) .i32 rfl _).2 octal).trans ?_, ?_, ?_, again _ _⟩
  · decide +kernel
  · decide +kernel
  · decide +kernel
  · exact printed

end Codegen.Lowering
