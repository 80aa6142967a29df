import Codegen.Ir.Cast
import Mathlib.Data.Int.ModEq

/-!
# Conversions of integers

Between integer types a conversion widens, narrows or copies.  Whatever the widths are, the bits it
yields are congruent to the value that the source stands for, where a truth value and a source
without a sign count from zero and all others are signed.
-/

namespace Codegen.Ir

open Text (decimal)

/-- The printed form of the integers of a width. -/
def intType (width : Nat) : String := "i" ++ decimal width

namespace Cast

/-- What a conversion makes of the bits of an integer.  Extensions need a wider target and
truncation a narrower one, a copy is printed as an addition of zero, and other conversions are not
between integers. -/
def onBits? (op : Cast) {a : Nat} (b : Nat) (x : BitVec a) : Option (BitVec b) :=
  match op with
  | zext => if a < b then some (x.setWidth b) else none
  | sext => if a < b then some (x.signExtend b) else none
  | trunc => if b < a then some (x.setWidth b) else none
  | copy => if h : a = b then some ((x + 0#a).cast h) else none
  | _ => none

/-- The value that bits stand for. -/
def sourceValue (fromUnsigned : Bool) {a : Nat} (x : BitVec a) : Int :=
  if fromUnsigned || a = 1 then x.toNat else x.toInt

/-! ## Values and bits -/

theorem toNat_modEq_toInt {a : Nat} (x : BitVec a) : (x.toNat : Int) ≡ x.toInt [ZMOD 2 ^ a] := by
  have same := Int.bmod_emod (x := x.toNat) (m := 2 ^ a)
  rw [← BitVec.toInt_eq_toNat_bmod] at same
  push_cast at same
  exact same.symm

theorem toNat_modEq_sourceValue (fromUnsigned : Bool) {a : Nat} (x : BitVec a) :
    (x.toNat : Int) ≡ sourceValue fromUnsigned x [ZMOD 2 ^ a] := by
  unfold sourceValue
  split
  · rfl
  · exact toNat_modEq_toInt x

theorem zext_modEq {a b : Nat} (h : a < b) (x : BitVec a) :
    ((x.setWidth b).toNat : Int) ≡ x.toNat [ZMOD 2 ^ b] := by
  have fits : x.toNat < 2 ^ b := x.isLt.trans (Nat.pow_lt_pow_right (by decide) h)
  rw [BitVec.toNat_setWidth, Nat.mod_eq_of_lt fits]

theorem sext_modEq {a b : Nat} (h : a < b) (x : BitVec a) :
    ((x.signExtend b).toNat : Int) ≡ x.toInt [ZMOD 2 ^ b] := by
  rw [← BitVec.toInt_signExtend_of_le h.le]
  exact toNat_modEq_toInt _

theorem trunc_modEq {a b : Nat} (h : b < a) {value : Int} (x : BitVec a)
    (hx : (x.toNat : Int) ≡ value [ZMOD 2 ^ a]) :
    ((x.setWidth b).toNat : Int) ≡ value [ZMOD 2 ^ b] := by
  have divides : (2 : Int) ^ b ∣ 2 ^ a := pow_dvd_pow 2 h.le
  calc ((x.setWidth b).toNat : Int) ≡ x.toNat [ZMOD 2 ^ b] := by
        rw [BitVec.toNat_setWidth]
        push_cast
        exact Int.mod_modEq _ _
    _ ≡ value [ZMOD 2 ^ b] := hx.of_dvd divides

theorem betweenInts_modEq (a b : Nat) (fromUnsigned : Bool) (x : BitVec a) :
    ∃ y : BitVec b, (betweenInts a b fromUnsigned).onBits? b x = some y ∧
      (y.toNat : Int) ≡ sourceValue fromUnsigned x [ZMOD 2 ^ b] := by
  unfold betweenInts
  rcases lt_trichotomy a b with h | rfl | h
  · rw [if_pos h, sourceValue]
    split
    · exact ⟨_, if_pos h, zext_modEq h x⟩
    · exact ⟨_, if_pos h, sext_modEq h x⟩
  · rw [if_neg (lt_irrefl a), if_neg (lt_irrefl a)]
    refine ⟨_, dif_pos rfl, ?_⟩
    rw [BitVec.cast_eq, BitVec.add_zero]
    exact toNat_modEq_sourceValue fromUnsigned x
  · rw [if_neg h.not_gt, if_pos h]
    exact ⟨_, if_pos h, trunc_modEq h x (toNat_modEq_sourceValue fromUnsigned x)⟩

theorem betweenInts_mem (a b : Nat) (fromUnsigned : Bool) :
    betweenInts a b fromUnsigned ∈ [zext, sext, trunc, copy] := by
  unfold betweenInts
  split
  · split <;> decide
  · split <;> decide

end Cast

/-! ## Integer types -/

theorem isDigit_of_boundedDigits? {bound n : Nat} {digits : List Char}
    (h : boundedDigits? bound digits = some n) : digits ≠ [] ∧ ∀ c ∈ digits, c.isDigit = true := by
  unfold boundedDigits? at h
  split at h
  · cases h
  · rename_i hdigits
    simpa using hdigits

/-- An integer type is an `i` and something that ends in a digit. -/
theorem toList_of_intWidth? {type : String} {n : Nat} (h : intWidth? type = some n) :
    ∃ front : List Char, ∃ c : Char, c.isDigit = true ∧ type.toList = 'i' :: (front ++ [c]) := by
  unfold intWidth? at h
  split at h
  · rename_i width hwidth
    obtain ⟨sign, digits, rfl, hdigits⟩ : ∃ sign digits, width = sign ++ digits ∧
        boundedDigits? maxWidth digits = some n := by
      unfold width? at h
      split at h
      · exact ⟨['+'], _, rfl, h⟩
      · exact ⟨[], _, rfl, h⟩
    obtain ⟨hne, hall⟩ := isDigit_of_boundedDigits? hdigits
    refine ⟨sign ++ digits.dropLast, digits.getLast hne, hall _ (List.getLast_mem hne), ?_⟩
    rw [hwidth, List.append_assoc, List.dropLast_concat_getLast]
  · cases h

theorem isPointerType_of_intWidth? {type : String} {n : Nat} (h : intWidth? type = some n) :
    isPointerType type = false := by
  obtain ⟨front, c, hc, htext⟩ := toList_of_intWidth? h
  have hstar : c ≠ '*' := by
    rintro rfl
    cases hc
  simp [isPointerType, htext, List.getLast?_cons, hstar]

theorem floatWidth?_of_intWidth? {type : String} {n : Nat} (h : intWidth? type = some n) :
    floatWidth? type = none := by
  obtain ⟨front, c, -, htext⟩ := toList_of_intWidth? h
  have hfloat : type ≠ "float" := by
    rintro rfl
    cases htext
  have hdouble : type ≠ "double" := by
    rintro rfl
    cases htext
  rw [floatWidth?, if_neg hfloat, if_neg hdouble]

/-- Between integer types the widths decide, and the sign of the source. -/
theorem Cast.select_of_intWidth? {fromType toType : String} {a b : Nat}
    (ha : intWidth? fromType = some a) (hb : intWidth? toType = some b)
    (fromUnsigned toUnsigned : Bool) :
    select fromType toType fromUnsigned toUnsigned = betweenInts a b fromUnsigned := by
  rw [select, isPointerType_of_intWidth? ha, isPointerType_of_intWidth? hb]
  simp only [betweenNumbers, floatWidth?_of_intWidth? ha, floatWidth?_of_intWidth? hb, ha, hb]

theorem boundedDigits?_toDigits {bound n : Nat} (h : n ≤ bound) :
    boundedDigits? bound (Nat.toDigits 10 n) = some n := by
  have read : Text.ofDigits (Nat.toDigits 10 n) = n := Nat.ofDigitChars_ten_toDigits
  have digits : ((Nat.toDigits 10 n).isEmpty || !(Nat.toDigits 10 n).all Char.isDigit) = false := by
    simp only [Bool.or_eq_false_iff, Bool.not_eq_false', List.all_eq_true]
    exact ⟨List.isEmpty_eq_false_iff.2 Nat.toDigits_ne_nil,
      fun c hc => Nat.isDigit_of_mem_toDigits (by decide) (by decide) hc⟩
  rw [boundedDigits?, digits, read, if_neg Bool.false_ne_true, if_pos h]

theorem intWidth?_intType {n : Nat} (h : n ≤ maxWidth) : intWidth? (intType n) = some n := by
  have text : (intType n).toList = 'i' :: Nat.toDigits 10 n := by
    simp [intType, decimal, String.toList_append]
  have unsigned : width? (Nat.toDigits 10 n) = boundedDigits? maxWidth (Nat.toDigits 10 n) := by
    unfold width?
    split
    · rename_i rest hrest
      have plus : '+'.isDigit = true :=
        Nat.isDigit_of_mem_toDigits (by decide) (by decide) (hrest ▸ List.mem_cons_self)
      cases plus
    · rfl
  rw [intWidth?, text]
  exact unsigned.trans (boundedDigits?_toDigits h)

namespace Cast

/-- The conversion that is chosen between two integer types is an extension, a truncation or a copy,
it can be applied at their widths, and what it makes of any bits is congruent to the value of the
source modulo two to the width of the target. -/
theorem integer_conversions_preserve_values {a b : Nat} (ha : a ≤ maxWidth) (hb : b ≤ maxWidth)
    (fromUnsigned toUnsigned : Bool) (x : BitVec a) :
    select (intType a) (intType b) fromUnsigned toUnsigned ∈ [zext, sext, trunc, copy] ∧
      ∃ y : BitVec b,
        (select (intType a) (intType b) fromUnsigned toUnsigned).onBits? b x = some y ∧
          (y.toNat : Int) ≡ sourceValue fromUnsigned x [ZMOD 2 ^ b] := by
  rw [select_of_intWidth? (intWidth?_intType ha) (intWidth?_intType hb)]
  exact ⟨betweenInts_mem a b fromUnsigned, betweenInts_modEq a b fromUnsigned x⟩

/-- The bits of -3 are widened with their sign, and those of a truth value without. -/
theorem negative_and_true_preserve_values :
    (∃ y : BitVec 40, (select (intType 8) (intType 40) false true).onBits? 40 (-3#8) = some y ∧
      (y.toNat : Int) ≡ -3 [ZMOD 2 ^ 40]) ∧
    ∃ y : BitVec 64, (select (intType 1) (intType 64) false false).onBits? 64 1#1 = some y ∧
      (y.toNat : Int) ≡ 1 [ZMOD 2 ^ 64] :=
  ⟨(integer_conversions_preserve_values (by decide) (by decide) false true (-3#8)).2,
    (integer_conversions_preserve_values (by decide) (by decide) false false 1#1).2⟩

end Cast

end Codegen.Ir
