import Codegen.Ir.Printer
import Codegen.Proofs.Json.Reading

/-!
# The bytes of string constants

`constantBytes?` reads the body of a printed string constant.  What it reads back is the UTF-8 form
of the text and one zero byte, and the printed length of the constant counts these bytes
(`stringText_denotes`).
-/

namespace Codegen

namespace Text

/-- The bytes that the body of a string constant stands for.  A backslash and two hexadecimal digits
are one byte and any other character is itself; a bare quote or a backslash without digits has no
meaning. -/
def constantBytes? : List Char → Option (List UInt8)
  | [] => some []
  | '\\' :: high :: low :: rest => do
    let high ← digitValue? 16 high
    let low ← digitValue? 16 low
    (constantBytes? rest).map (UInt8.ofNat (16 * high + low) :: ·)
  | c :: rest =>
    if c = '\\' || c = '"' then none
    else (constantBytes? rest).map (String.utf8EncodeChar c ++ ·)

/-- A byte that stands for itself is a character of one byte, and neither a backslash nor a
quote. -/
theorem character_of_isPlain {byte : UInt8} (h : isPlain byte = true) :
    Char.ofNat byte.toNat ≠ '\\' ∧ Char.ofNat byte.toNat ≠ '"' ∧
      String.utf8EncodeChar (Char.ofNat byte.toNat) = [byte] := by
  have bytes : ∀ n < 256, isPlain (UInt8.ofNat n) = true →
      Char.ofNat (UInt8.ofNat n).toNat ≠ '\\' ∧ Char.ofNat (UInt8.ofNat n).toNat ≠ '"' ∧
        String.utf8EncodeChar (Char.ofNat (UInt8.ofNat n).toNat) = [UInt8.ofNat n] := by
    decide +kernel
  have plain := bytes byte.toNat byte.toNat_lt
  rw [UInt8.ofNat_toNat] at plain
  exact plain h

/-- One byte is read as it was written. -/
theorem constantBytes?_escapeByte (byte : UInt8) (rest : List Char) :
    constantBytes? (escapeByte byte ++ rest) = (constantBytes? rest).map (byte :: ·) := by
  unfold escapeByte
  split
  · rename_i plain
    obtain ⟨backslash, quote, encoded⟩ := character_of_isPlain plain
    rw [List.singleton_append, constantBytes?, encoded]
    · simp [backslash, quote]
    · exact fun _ _ _ h => absurd h backslash
  · have high : digitValue? 16 (hexDigit (byte.toNat / 16)) = some (byte.toNat / 16) :=
      Json.digitValue?_digitChar _ (by have := byte.toNat_lt; omega)
    have low : digitValue? 16 (hexDigit (byte.toNat % 16)) = some (byte.toNat % 16) :=
      Json.digitValue?_digitChar _ (by omega)
    have whole : UInt8.ofNat (16 * (byte.toNat / 16) + byte.toNat % 16) = byte := by
      rw [Nat.div_add_mod, UInt8.ofNat_toNat]
    change constantBytes? ('\\' :: _ :: _ :: rest) = _
    rw [constantBytes?, high, low]
    change (constantBytes? rest).map (UInt8.ofNat _ :: ·) = _
    rw [whole]

theorem constantBytes?_flatMap (bytes : List UInt8) (rest : List Char) :
    constantBytes? (bytes.flatMap escapeByte ++ rest) =
      (constantBytes? rest).map (bytes ++ ·) := by
  induction bytes with
  | nil => simp
  | cons byte bytes ih =>
    rw [List.flatMap_cons, List.append_assoc, constantBytes?_escapeByte, ih, Option.map_map]
    rfl

/-- The body of a constant stands for the text and one zero byte. -/
theorem constantBytes?_constantBody (text : String) :
    constantBytes? (constantBody text).toList = some (bytes text ++ [0]) := by
  have zero : constantBytes? ['\\', '0', '0'] = some [0] := by decide
  rw [constantBody, String.toList_ofList, constantBytes?_flatMap, zero]
  rfl

example : constantBytes? ['"'] = none ∧ constantBytes? ['a', '\\', '0'] = none := by decide

theorem byteLength_eq (text : String) : byteLength text = (bytes text).length := by
  rw [byteLength, bytes]
  rfl

end Text

namespace Ir

/-- A printed constant is an array of the bytes of its text and one zero byte. -/
theorem stringText_denotes (index : Nat) (text : String) :
    ∃ body, stringText index text =
        Text.line ("@.str." ++ Text.decimal index ++ " = private unnamed_addr constant [" ++
          Text.decimal ((Text.bytes text).length + 1) ++ " x i8] c\"" ++ body ++ "\"") ∧
      Text.constantBytes? body.toList = some (Text.bytes text ++ [0]) := by
  refine ⟨Text.constantBody text, ?_, Text.constantBytes?_constantBody text⟩
  rw [stringText, Text.byteLength_eq]

/-- Constants are printed in order under their numbers. -/
theorem getElem?_stringTexts {strings : List String} {index : Nat} {text : String}
    (h : strings[index]? = some text) (first : Nat) :
    (stringTexts first strings)[index]? = some (stringText (first + index) text) := by
  induction strings generalizing index first with
  | nil => cases h
  | cons head rest ih =>
    cases index with
    | zero =>
      obtain rfl := Option.some.inj h
      rfl
    | succ index =>
      have found := ih h (first + 1)
      rw [Nat.add_right_comm] at found
      exact found

end Ir

end Codegen
