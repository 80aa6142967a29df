import Codegen.Json.Flaw
import Codegen.Json.Writer
import Mathlib.Data.List.TakeWhile

/-!
# What is written can be read

`read?_text`: the text of a value whose integers fit 64 bits is read as this value.  Between the
characters and the value stand its tokens: the tokens of the text are those of the value
(`lexes_write`), and these tokens build the value (`takeEach_tokens`).
-/

namespace Codegen.Json

/-! ## Plain values -/

mutual

/-- Whether a value has a text of its own: its numbers are integers of 64 bits, and every part can
be read. -/
def plain : Json → Bool
  | .int value => value.natAbs < 0x1_0000_0000_0000_0000
  | .real _ => false
  | .unreadable => false
  | .arr items => plainItems items
  | .obj fields => plainFields fields
  | _ => true

/-- `plain` for every item of an array. -/
def plainItems : List Json → Bool
  | [] => true
  | item :: rest => plain item && plainItems rest

/-- `plain` for every field of an object. -/
def plainFields : List (String × Json) → Bool
  | [] => true
  | (_, value) :: rest => plain value && plainFields rest

end

/-! ## Tokens of a value -/

mutual

/-- The tokens of a value. -/
def tokens : Json → List Token
  | .str text => [.str (some text)]
  | .arr items => .openBracket :: (itemTokens items ++ [.closeBracket])
  | .obj fields => .openBrace :: (fieldTokens fields ++ [.closeBrace])
  | json => [.scalar json]

/-- The tokens of the items of an array. -/
def itemTokens : List Json → List Token
  | [] => []
  | [item] => item.tokens
  | item :: next :: rest => item.tokens ++ .comma :: itemTokens (next :: rest)

/-- The tokens of the fields of an object. -/
def fieldTokens : List (String × Json) → List Token
  | [] => []
  | [(name, value)] => .str (some name) :: .colon :: value.tokens
  | (name, value) :: next :: rest =>
    .str (some name) :: .colon :: (value.tokens ++ .comma :: fieldTokens (next :: rest))

end

/-! ## Pieces of a text -/

/-- A number or a word in front of the text ends there. -/
def Breaks : List Char → Prop
  | [] => True
  | c :: _ => isNumeric c = false ∧ c.isLower = false

/-- A piece of a text that gives some tokens, wherever a number or a word may end behind it. -/
def Lexes (piece : List Char) (tokens : List Token) : Prop :=
  ∀ rest, Breaks rest →
    tokensFrom .blank (piece ++ rest) = (tokensFrom .blank rest).map (tokens ++ ·)

theorem tokensFrom_cons {mode next : Mode} {c : Char} {done : List Token}
    (h : step mode c = some (next, done)) (rest : List Char) :
    tokensFrom mode (c :: rest) = (tokensFrom next rest).map (done ++ ·) := by
  simp only [tokensFrom, h, Option.bind_eq_bind, Option.bind_some]
  cases tokensFrom next rest <;> rfl

/-- A character that changes the mode only. -/
theorem tokensFrom_quiet {mode next : Mode} {c : Char} (h : step mode c = some (next, []))
    (rest : List Char) : tokensFrom mode (c :: rest) = tokensFrom next rest := by
  rw [tokensFrom_cons h]
  exact Option.map_id'

theorem Lexes.append {a b : List Char} {ts us : List Token} (ha : Lexes a ts) (hb : Lexes b us)
    (hne : b ≠ []) (hbreaks : Breaks b) : Lexes (a ++ b) (ts ++ us) := by
  intro rest hrest
  have behind : Breaks (b ++ rest) := by
    cases b with
    | nil => exact absurd rfl hne
    | cons c b => exact hbreaks
  rw [List.append_assoc, ha _ behind, hb _ hrest, Option.map_map]
  simp [Function.comp_def, List.append_assoc]

/-- A sign in front of a piece. -/
theorem Lexes.cons {c : Char} {t : Token} {a : List Char} {ts : List Token}
    (hc : step .blank c = some (.blank, [t])) (ha : Lexes a ts) : Lexes (c :: a) (t :: ts) := by
  intro rest hrest
  rw [List.cons_append, tokensFrom_cons hc, ha _ hrest, Option.map_map]
  rfl

theorem lexes_sign {c : Char} {t : Token} (hc : step .blank c = some (.blank, [t])) :
    Lexes [c] [t] :=
  fun rest _ => tokensFrom_cons hc rest

/-- A mode that holds a scalar until something else comes. -/
structure Mode.Holds (mode : Mode) (value : Json) : Prop where
  finish : Json.finish mode = some [.scalar value]
  step : ∀ c, isNumeric c = false → c.isLower = false →
    Json.step mode c = (begin? c).map fun next => (next.1, .scalar value :: next.2)

theorem Mode.Holds.tokensFrom {mode : Mode} {value : Json} (h : mode.Holds value)
    {rest : List Char} (hrest : Breaks rest) :
    Json.tokensFrom mode rest = (Json.tokensFrom .blank rest).map (.scalar value :: ·) := by
  cases rest with
  | nil => exact h.finish
  | cons c rest =>
    obtain ⟨hnumeric, hlower⟩ := hrest
    have first : Json.step .blank c = begin? c := rfl
    have held := h.step c hnumeric hlower
    rw [Json.tokensFrom, Json.tokensFrom, held, first]
    cases begin? c with
    | none => rfl
    | some next =>
      simp only [Option.map_some, Option.bind_eq_bind, Option.bind_some]
      cases Json.tokensFrom next.1 rest <;> rfl

theorem holds_word {read : List Char} {value : Json} (h : word? read.reverse = some value) :
    (Mode.word read).Holds value where
  finish := by simp [finish, h]
  step c _ hc := by
    simp only [step, hc, h]
    cases begin? c <;> rfl

theorem holds_number {read : List Char} {value : Json} (h : number? read.reverse = some value) :
    (Mode.number read).Holds value where
  finish := by simp [finish, h]
  step c hc _ := by
    simp only [step, hc, h]
    cases begin? c <;> rfl

/-! ## Words and numbers -/

/-- Characters that a mode only collects. -/
theorem tokensFrom_collected {mode : List Char → Mode} (piece : List Char)
    (h : ∀ c ∈ piece, ∀ read, step (mode read) c = some (mode (c :: read), []))
    (read rest : List Char) :
    tokensFrom (mode read) (piece ++ rest) = tokensFrom (mode (piece.reverse ++ read)) rest := by
  induction piece generalizing read with
  | nil => rfl
  | cons c piece ih =>
    obtain ⟨hc, hpiece⟩ := List.forall_mem_cons.1 h
    rw [List.cons_append, tokensFrom_quiet (hc read), ih hpiece]
    simp

theorem lexes_scalar {mode : List Char → Mode} {c : Char} {piece : List Char} {value : Json}
    (hc : step .blank c = some (mode [c], []))
    (h : ∀ c ∈ piece, ∀ read, step (mode read) c = some (mode (c :: read), []))
    (hv : (mode (piece.reverse ++ [c])).Holds value) : Lexes (c :: piece) [.scalar value] := by
  intro rest hrest
  rw [List.cons_append, tokensFrom_quiet hc, tokensFrom_collected piece h, hv.tokensFrom hrest]
  rfl

theorem lexes_word {c : Char} {letters : List Char} {value : Json}
    (hc : step .blank c = some (.word [c], [])) (hl : ∀ c ∈ letters, c.isLower = true)
    (hv : word? (c :: letters) = some value) : Lexes (c :: letters) [.scalar value] :=
  lexes_scalar hc (fun c hm _ => if_pos (hl c hm)) (holds_word (by simpa using hv))

theorem lexes_number {c : Char} {digits : List Char} {value : Json}
    (hc : step .blank c = some (.number [c], [])) (hd : ∀ c ∈ digits, isNumeric c = true)
    (hv : number? (c :: digits) = some value) : Lexes (c :: digits) [.scalar value] :=
  lexes_scalar hc (fun c hm _ => if_pos (hd c hm)) (holds_number (by simpa using hv))

theorem nearestDouble_le {n : Nat} (hn : 0 < n) : Text.nearestDouble n ≤ 2 * n := by
  have small : 1 <<< (n.log2 + 1 - 53) ≤ n := by
    rw [Nat.one_shiftLeft]
    exact Nat.le_trans (Nat.pow_le_pow_right (by decide) (by omega)) (Nat.log2_self_le (by omega))
  unfold Text.nearestDouble
  dsimp only
  generalize 1 <<< (n.log2 + 1 - 53) = unit at small
  have below : n / unit * unit ≤ n := Nat.div_mul_le_self n unit
  split
  · omega
  · rw [Nat.succ_mul]
    omega

/-- An integer of 64 bits is in the range of double precision. -/
theorem overflows_word {n : Nat} (hn : n < 0x1_0000_0000_0000_0000) : overflows n 0 = false := by
  unfold overflows
  by_cases h0 : n = 0
  · simp [h0]
  · have bound : Text.nearestDouble n ≤ 2 * n := nearestDouble_le (by omega)
    have one : Text.nearestDouble (Nat.pow 10 (0 : Int).toNat) = 1 := by decide
    have limit : 2 * 0x1_0000_0000_0000_0000 < Text.doubleLimit := by decide +kernel
    rw [one]
    simp [h0]
    omega

theorem fillWord_eq {digits : List Char} {before : Nat}
    (h : Nat.ofDigitChars 10 digits before < 0x1_0000_0000_0000_0000) :
    fillWord before digits = (Nat.ofDigitChars 10 digits before, 0) := by
  induction digits generalizing before with
  | nil => rfl
  | cons c digits ih =>
    have next : Text.ofDigits [c] + 10 * before = 10 * before + (c.toNat - '0'.toNat) := by
      simp [Text.ofDigits, Nat.ofDigitChars_cons, Nat.ofDigitChars_nil, Nat.add_comm]
    rw [Nat.ofDigitChars_cons] at h ⊢
    have grows : 10 * before + (c.toNat - '0'.toNat) < 0x1_0000_0000_0000_0000 := by
      rw [Nat.ofDigitChars_eq_ofDigitChars_zero] at h
      have larger := Nat.le_mul_of_pos_left (10 * before + (c.toNat - '0'.toNat))
        (Nat.pow_pos (by decide : 0 < 10) (n := digits.length))
      omega
    rw [fillWord, next, if_pos grows, ih h]

theorem head_toDigits_ne_zero {n : Nat} (hn : 0 < n) : (Nat.toDigits 10 n).head? ≠ some '0' := by
  induction n using Nat.strongRecOn with
  | ind n ih =>
    by_cases small : n < 10
    · have digit : ∀ d < 10, 0 < d → [Nat.digitChar d].head? ≠ some '0' := by decide
      rw [Nat.toDigits_of_lt_base small]
      exact digit n small hn
    · rw [Nat.toDigits_of_base_le (by decide) (by omega), List.head?_append]
      have front := ih (n / 10) (by omega) (by omega)
      cases hd : (Nat.toDigits 10 (n / 10)).head? with
      | none => exact absurd (List.head?_eq_none_iff.1 hd) Nat.toDigits_ne_nil
      | some c =>
        rw [hd] at front
        simpa using front

theorem wholePart?_toDigits (n : Nat) :
    wholePart? (Nat.toDigits 10 n) = some (Nat.toDigits 10 n, []) := by
  have digits : ∀ c ∈ Nat.toDigits 10 n, c.isDigit = true :=
    fun c hc => Nat.isDigit_of_mem_toDigits (by decide) (by decide) hc
  have all : (Nat.toDigits 10 n).takeWhile Char.isDigit = Nat.toDigits 10 n :=
    List.takeWhile_eq_self_iff.2 digits
  have none : (Nat.toDigits 10 n).dropWhile Char.isDigit = [] :=
    List.dropWhile_eq_nil_iff.2 digits
  unfold wholePart?
  rw [all, none]
  split
  · next h => exact absurd h Nat.toDigits_ne_nil
  · next h =>
    by_cases hn : 0 < n
    · exact absurd (congrArg List.head? h) (head_toDigits_ne_zero hn)
    · obtain rfl : n = 0 := by omega
      cases h
  · rfl

theorem unsignedNumber?_toDigits (spelling : List Char) (negative : Bool) {n : Nat}
    (hn : n < 0x1_0000_0000_0000_0000) (hzero : negative = true → n ≠ 0) :
    unsignedNumber? spelling negative (Nat.toDigits 10 n) =
      some (.int (if negative then -(n : Int) else n)) := by
  have spelled : Nat.ofDigitChars 10 (Nat.toDigits 10 n) 0 = n :=
    Nat.ofDigitChars_toDigits (by decide) (by decide)
  have inRange : isBeyondRange (Nat.toDigits 10 n) [] 0 = false := by
    have filled := fillWord_eq (spelled.symm ▸ hn)
    rw [spelled] at filled
    simpa [isBeyondRange, filled, fillWord] using overflows_word hn
  unfold unsignedNumber?
  simp only [wholePart?_toDigits, fraction?, exponent?, inRange, Text.ofDigits, spelled,
    Option.bind_eq_bind, Option.bind_some]
  cases negative with
  | false => rfl
  | true => simp [hzero rfl]

theorem step_digit {c : Char} (hc : c.isDigit = true) :
    step .blank c = some (.number [c], []) := by
  have ne {other : Char} (ho : other.isDigit = false) : c ≠ other := by
    rintro rfl
    exact absurd hc (by simp [ho])
  have notBlank : isBlank c = false := by
    simp [isBlank, ne (rfl : ' '.isDigit = false), ne (rfl : '\n'.isDigit = false),
      ne (rfl : '\t'.isDigit = false), ne (rfl : '\r'.isDigit = false)]
  simp [step, begin?, notBlank, hc, ne (rfl : '\x7b'.isDigit = false),
    ne (rfl : '\x7d'.isDigit = false), ne (rfl : '['.isDigit = false),
    ne (rfl : ']'.isDigit = false), ne (rfl : ','.isDigit = false), ne (rfl : ':'.isDigit = false),
    ne (rfl : '"'.isDigit = false)]

/-- The spelling of an integer. -/
theorem lexes_int {value : Int} (h : value.natAbs < 0x1_0000_0000_0000_0000) :
    Lexes (Text.signed value).toList [.scalar (.int value)] := by
  have digit {n : Nat} : ∀ c ∈ Nat.toDigits 10 n, c.isDigit = true :=
    fun c hc => Nat.isDigit_of_mem_toDigits (by decide) (by decide) hc
  have numeric {n : Nat} : ∀ c ∈ Nat.toDigits 10 n, isNumeric c = true := by
    intro c hc
    simp [isNumeric, digit c hc]
  cases value with
  | ofNat n =>
    have spelled : (Text.signed (.ofNat n)).toList = Nat.toDigits 10 n := String.toList_ofList
    have read := unsignedNumber?_toDigits (n := n) (Nat.toDigits 10 n) false h nofun
    rw [spelled]
    cases hd : Nat.toDigits 10 n with
    | nil => exact absurd hd Nat.toDigits_ne_nil
    | cons c digits =>
      have first : c.isDigit = true := digit (n := n) c (by simp [hd])
      refine lexes_number (step_digit first) (fun c hc => numeric (n := n) c (by simp [hd, hc])) ?_
      rw [hd] at read
      unfold number?
      split
      · next heq =>
        cases heq
        cases first
      · exact read
  | negSucc n =>
    have spelled : (Text.signed (.negSucc n)).toList = '-' :: Nat.toDigits 10 (n + 1) := by
      simp [Text.signed, Text.decimal]
    have read := unsignedNumber?_toDigits ('-' :: Nat.toDigits 10 (n + 1)) true h
      fun _ => Nat.succ_ne_zero n
    rw [spelled]
    exact lexes_number rfl numeric read

/-! ## Strings -/

theorem digitValue?_digitChar : ∀ d < 16, Text.digitValue? 16 (Nat.digitChar d) = some d := by
  decide

theorem escaped?_escapeLetter? {c letter : Char} (h : escapeLetter? c = some letter) :
    letter ≠ 'u' ∧ escaped? letter = some c := by
  unfold escapeLetter? at h
  split at h
  · next hc =>
    obtain rfl := Option.some.inj h
    rcases (Bool.or_eq_true_iff.1 hc).imp of_decide_eq_true of_decide_eq_true with rfl | rfl <;>
      decide
  repeat' split at h
  all_goals cases h <;> subst_vars <;> decide

/-- The characters of a string come back. -/
theorem tokensFrom_escapeChar (c : Char) (read rest : List Char) :
    tokensFrom (.string { read }) (escapeChar c ++ rest) =
      tokensFrom (.string { read := c :: read }) rest := by
  have pushed : Partial.push { read } c = { read := c :: read } := rfl
  unfold escapeChar
  cases hl : escapeLetter? c with
  | some letter =>
    obtain ⟨hu, hc⟩ := escaped?_escapeLetter? hl
    have first : step (.string { read }) '\\' = some (.escape { read }, []) := rfl
    have second : step (.escape { read }) letter = some (.string { read := c :: read }, []) := by
      simp [step, hu, hc, pushed]
    exact (tokensFrom_quiet first _).trans (tokensFrom_quiet second _)
  | none =>
    by_cases hcontrol : c.toNat < 0x20
    · have high := digitValue?_digitChar (c.toNat / 16) (by omega)
      have low := digitValue?_digitChar (c.toNat % 16) (by omega)
      have value : 16 * (c.toNat / 16) + c.toNat % 16 = c.toNat := Nat.div_add_mod _ _
      have unit : Partial.pushUnit { read } c.toNat = { read := c :: read } := by
        have notHigh : Partial.isHigh c.toNat = false := by simp [Partial.isHigh]; omega
        have notLow : Partial.isLow c.toNat = false := by simp [Partial.isLow]; omega
        simp [Partial.pushUnit, notHigh, notLow, pushed]
      have zero : Text.digitValue? 16 '0' = some 0 := by decide
      simp [hcontrol, tokensFrom, step, zero, high, low, value, unit]
    · have plain : c ≠ '"' ∧ c ≠ '\\' := by
        constructor <;> rintro rfl <;> cases hl
      have next : step (.string { read }) c = some (.string { read := c :: read }, []) := by
        simp [step, plain, hcontrol, pushed]
      simpa [hcontrol] using tokensFrom_quiet next rest

theorem lexes_string (text : String) : Lexes (writeString text) [.str (some text)] := by
  intro rest _
  have inside (cs read : List Char) :
      tokensFrom (.string { read }) (cs.flatMap escapeChar ++ '"' :: rest) =
        (tokensFrom .blank rest).map
          (.str (some (String.ofList (read.reverse ++ cs))) :: ·) := by
    induction cs generalizing read with
    | nil =>
      have closed : step (.string { read }) '"' =
          some (.blank, [.str (some (String.ofList read.reverse))]) := rfl
      simpa using tokensFrom_cons closed rest
    | cons c cs ih =>
      rw [List.flatMap_cons, List.append_assoc, tokensFrom_escapeChar, ih]
      simp
  have opened : step .blank '"' = some (.string {}, []) := rfl
  have split : writeString text ++ rest =
      '"' :: (text.toList.flatMap escapeChar ++ '"' :: rest) := by
    simp [writeString]
  rw [split, tokensFrom_quiet opened, inside]
  simp

/-! ## Tokens of a text -/

theorem breaks_sign {c : Char} (hn : isNumeric c = false) (hl : c.isLower = false)
    (rest : List Char) : Breaks (c :: rest) := ⟨hn, hl⟩

mutual

theorem lexes_write : (value : Json) → value.plain = true → Lexes value.write value.tokens
  | .null, _ => lexes_word rfl (List.all_eq_true.1 rfl) rfl
  | .bool true, _ => lexes_word rfl (List.all_eq_true.1 rfl) rfl
  | .bool false, _ => lexes_word rfl (List.all_eq_true.1 rfl) rfl
  | .int value, h => lexes_int (of_decide_eq_true h)
  | .str text, _ => lexes_string text
  | .arr items, h => by
    rw [write, tokens]
    exact ((lexes_writeItems items h).append (lexes_sign rfl) (by simp)
      (breaks_sign rfl rfl [])).cons rfl
  | .obj fields, h => by
    rw [write, tokens]
    exact ((lexes_writeFields fields h).append (lexes_sign rfl) (by simp)
      (breaks_sign rfl rfl [])).cons rfl

theorem lexes_writeItems : (items : List Json) → plainItems items = true →
    Lexes (writeItems items) (itemTokens items)
  | [], _ => fun rest _ => by simp [writeItems, itemTokens]
  | [item], h => lexes_write item (Bool.and_eq_true_iff.1 h).1
  | item :: next :: rest, h => by
    obtain ⟨hitem, hrest⟩ := Bool.and_eq_true_iff.1 h
    rw [writeItems, itemTokens]
    exact (lexes_write item hitem).append ((lexes_writeItems (next :: rest) hrest).cons rfl)
      (by simp) (breaks_sign rfl rfl _)

theorem lexes_writeFields : (fields : List (String × Json)) → plainFields fields = true →
    Lexes (writeFields fields) (fieldTokens fields)
  | [], _ => fun rest _ => by simp [writeFields, fieldTokens]
  | [(name, value)], h => by
    rw [writeFields, fieldTokens]
    exact (lexes_string name).append
      ((lexes_write value (Bool.and_eq_true_iff.1 h).1).cons rfl) (by simp) (breaks_sign rfl rfl _)
  | (name, value) :: next :: rest, h => by
    obtain ⟨hvalue, hrest⟩ := Bool.and_eq_true_iff.1 h
    have behind := (lexes_write value hvalue).append
      ((lexes_writeFields (next :: rest) hrest).cons (c := ',') rfl) (by simp)
      (breaks_sign rfl rfl _)
    rw [writeFields, fieldTokens, List.append_assoc, List.cons_append]
    exact (lexes_string name).append (behind.cons rfl) (by simp) (breaks_sign rfl rfl _)

end

/-! ## Tokens build the value -/

theorem takeEach_append {reading next : Reading} {tokens : List Token}
    (h : takeEach reading tokens = some next) (rest : List Token) :
    takeEach reading (tokens ++ rest) = takeEach next rest := by
  induction tokens generalizing reading with
  | nil =>
    cases h
    rfl
  | cons token tokens ih =>
    obtain ⟨between, htake, htokens⟩ := Option.bind_eq_some_iff.1 h
    rw [List.cons_append, takeEach, htake, Option.bind_eq_bind, Option.bind_some, ih htokens]

theorem takeEach_cons {reading next : Reading} {token : Token}
    (h : take reading token = some next) (rest : List Token) :
    takeEach reading (token :: rest) = takeEach next rest := by
  rw [takeEach, h, Option.bind_eq_bind, Option.bind_some]

/-- Where the first item of an array may come, a value may come. -/
theorem takeEach_firstItem {items : List Json} (hne : items ≠ []) (frames : List Frame)
    (rest : List Token) :
    takeEach (.firstItem frames) (itemTokens items ++ rest) =
      takeEach (.value frames) (itemTokens items ++ rest) := by
  have same (token : Token) (ht : token ≠ .closeBracket) :
      take (.firstItem frames) token = take (.value frames) token := by
    rcases frames with _ | ⟨_ | _, _⟩ <;> cases token <;> first | rfl | exact absurd rfl ht
  have front (item : Json) (rest : List Token) :
      takeEach (.firstItem frames) (item.tokens ++ rest) =
        takeEach (.value frames) (item.tokens ++ rest) := by
    cases item <;> simp [tokens, takeEach, same]
  match items with
  | [] => exact absurd rfl hne
  | [item] => exact front item rest
  | item :: next :: items =>
    rw [itemTokens, List.append_assoc]
    exact front item _

/-- Where the first name of an object may come, a name may come. -/
theorem takeEach_firstKey {fields : List (String × Json)} (hne : fields ≠ [])
    (frames : List Frame) (rest : List Token) :
    takeEach (.firstKey frames) (fieldTokens fields ++ rest) =
      takeEach (.key frames) (fieldTokens fields ++ rest) := by
  match fields with
  | [] => exact absurd rfl hne
  | [field] => rcases frames with _ | ⟨_ | _, _⟩ <;> rfl
  | field :: next :: fields => rcases frames with _ | ⟨_ | _, _⟩ <;> rfl

mutual

theorem takeEach_tokens : (value : Json) → (frames : List Frame) →
    takeEach (.value frames) value.tokens = some (place value frames)
  | .null, frames => rfl
  | .bool _, frames => rfl
  | .int _, frames => rfl
  | .real _, frames => rfl
  | .unreadable, frames => rfl
  | .str text, frames => rfl
  | .arr items, frames => by
    by_cases hne : items = []
    · rw [hne]
      rfl
    have opened : take (.value frames) .openBracket = some (.firstItem (.arr [] :: frames)) := rfl
    rw [tokens, takeEach_cons opened, takeEach_firstItem hne,
      takeEach_append (takeEach_itemTokens items hne [] frames), List.append_nil]
    have closed (read : List Json) : takeEach (.more (.arr read :: frames)) [.closeBracket] =
      some (place (.arr read.reverse) frames) := rfl
    rw [closed, List.reverse_reverse]
  | .obj fields, frames => by
    by_cases hne : fields = []
    · rw [hne]
      rfl
    have opened : take (.value frames) .openBrace = some (.firstKey (.obj [] "" true :: frames)) :=
      rfl
    obtain ⟨last, built⟩ := takeEach_fieldTokens fields hne [] "" frames
    rw [tokens, takeEach_cons opened, takeEach_firstKey hne, takeEach_append built,
      List.append_nil]
    have closed (read : List (String × Json)) :
      takeEach (.more (.obj read last true :: frames)) [.closeBrace] =
        some (place (.obj read.reverse) frames) := rfl
    rw [closed, List.reverse_reverse]

theorem takeEach_itemTokens : (items : List Json) → items ≠ [] → (read : List Json) →
    (frames : List Frame) →
    takeEach (.value (.arr read :: frames)) (itemTokens items) =
      some (.more (.arr (items.reverse ++ read) :: frames))
  | [], hne, _, _ => absurd rfl hne
  | [item], _, read, frames => takeEach_tokens item _
  | item :: next :: items, _, read, frames => by
    have comma : take (place item (.arr read :: frames)) .comma =
      some (.value (.arr (item :: read) :: frames)) := rfl
    rw [itemTokens, takeEach_append (takeEach_tokens item _), takeEach_cons comma,
      takeEach_itemTokens (next :: items) (by simp)]
    simp

theorem takeEach_fieldTokens : (fields : List (String × Json)) → fields ≠ [] →
    (read : List (String × Json)) → (key : String) → (frames : List Frame) →
    ∃ last, takeEach (.key (.obj read key true :: frames)) (fieldTokens fields) =
      some (.more (.obj (fields.reverse ++ read) last true :: frames))
  | [], hne, _, _, _ => absurd rfl hne
  | [(name, value)], _, read, key, frames =>
    ⟨name, takeEach_tokens value (.obj read name true :: frames)⟩
  | (name, value) :: next :: fields, _, read, key, frames => by
    obtain ⟨last, built⟩ :=
      takeEach_fieldTokens (next :: fields) (by simp) ((name, value) :: read) name frames
    have named (rest : List Token) :
      takeEach (.key (.obj read key true :: frames)) (.str (some name) :: .colon :: rest) =
        takeEach (.value (.obj read name true :: frames)) rest := rfl
    have comma : take (place value (.obj read name true :: frames)) .comma =
      some (.key (.obj ((name, value) :: read) name true :: frames)) := rfl
    refine ⟨last, ?_⟩
    rw [fieldTokens, named, takeEach_append (takeEach_tokens value _), takeEach_cons comma, built]
    simp

end

/-- A plain value is read back from its text. -/
theorem read?_text {value : Json} (h : value.plain = true) : read? value.text = some value := by
  have lexed : tokens? value.text.toList = some value.tokens := by
    have whole := lexes_write value h [] trivial
    rw [List.append_nil] at whole
    rw [text, String.toList_ofList, tokens?, whole]
    simp [tokensFrom, finish]
  have built := takeAll_append (takeEach_tokens value []) []
  rw [List.append_nil] at built
  rw [read?, lexed, Option.bind_eq_bind, Option.bind_some, built]
  rfl

end Codegen.Json
