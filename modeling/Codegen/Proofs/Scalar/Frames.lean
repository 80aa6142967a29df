import Codegen.Proofs.Scalar.Evaluation

/-!
# A machine for scalar code

Blocks run on frames: what the names of a function hold, and what its stack slots hold.  Integers
are words, and every instruction is an operation on words: wherever the operators of the language
are defined, the instructions do what they say.

* `Frame.step`: an instruction.
* `scalarMachine`: tests, switches and returns.  A run is undefined where an instruction is, or
  where a value is not of the type it is read at.
* `run_of_arithmetic`, `run_of_comparison`: where an operator is defined, its instruction does the
  same.
-/

namespace Codegen.Ir

/-- What a name holds: a value, or the address of a stack slot. -/
inductive Content where
  | datum (d : Datum)
  | address (slot : String)

/-- The names and the stack slots of a function. -/
structure Frame where
  names : String → Option Content
  slots : String → Option Datum

/-- Whether a datum is a value of a printed type. -/
def hasType (type : String) : Datum → Bool
  | .word _ => type = "i64"
  | .bit _ => type = "i1"

/-- The constant of a printed type that a text stands for. -/
def constant? (type text : String) : Option Datum :=
  if type = "i64" then (decimal? text).map fun n => .word (.ofInt 64 n)
  else if type = "i1" && text = "0" then some (.bit false)
  else if type = "i1" && text = "1" then some (.bit true)
  else none

/-! ## Operations on words -/

/-- Whether a quotient of words is undefined. -/
def undefinedQuotient (isSigned : Bool) (a b : BitVec 64) : Bool :=
  b = 0 || (isSigned && a = .intMin 64 && b = -1)

/-- An operation on words. -/
def BinOp.onWords (op : BinOp) (isSigned : Bool) (a b : BitVec 64) : Option (BitVec 64) :=
  match op with
  | .add => some (a + b)
  | .sub => some (a - b)
  | .mul => some (a * b)
  | .div =>
    if undefinedQuotient isSigned a b then none
    else some (if isSigned then a.sdiv b else a / b)
  | .rem =>
    if undefinedQuotient isSigned a b then none
    else some (if isSigned then a.srem b else a % b)
  | .and => some (a &&& b)
  | .xor => some (a ^^^ b)
  | .or => some (a ||| b)

/-- An operation on truth values. -/
def BinOp.onBits (op : BinOp) (a b : Bool) : Option Bool :=
  match op with
  | .and => some (a && b)
  | .xor => some (a ^^ b)
  | .or => some (a || b)
  | _ => none

/-- An operation. -/
def BinOp.run (op : BinOp) (isSigned : Bool) : Datum → Datum → Option Datum
  | .word a, .word b => (op.onWords isSigned a b).map .word
  | .bit a, .bit b => (op.onBits a b).map .bit
  | _, _ => none

/-- A comparison of words. -/
def Comparison.onWords (kind : Comparison) (isSigned : Bool) (a b : BitVec 64) : Bool :=
  match kind with
  | .eq => a = b
  | .ne => a ≠ b
  | .lt => if isSigned then a.slt b else a.ult b
  | .le => if isSigned then a.sle b else a.ule b
  | .gt => if isSigned then b.slt a else b.ult a
  | .ge => if isSigned then b.sle a else b.ule a

/-- A comparison. -/
def Comparison.run (kind : Comparison) (isSigned : Bool) : Datum → Datum → Option Datum
  | .word a, .word b => some (.bit (kind.onWords isSigned a b))
  | .bit a, .bit b =>
    match kind with
    | .eq => some (.bit (a = b))
    | .ne => some (.bit (a ≠ b))
    | _ => none
  | _, _ => none

/-- Zero minus a word. -/
def negated : Datum → Option Datum
  | .word w => some (.word (-w))
  | .bit _ => none

/-- All bits turned around. -/
def complemented : Datum → Option Datum
  | .word w => some (.word (~~~w))
  | .bit b => some (.bit (!b))

/-- A truth value turned around. -/
def inverted : Datum → Option Datum
  | .word _ => none
  | .bit b => some (.bit (!b))

/-! ## Frames -/

namespace Frame

/-- The value of an operand as a value of a printed type. -/
def read (fr : Frame) (type : String) : Value → Option Datum
  | .lit text => constant? type text
  | .var name =>
    match fr.names name with
    | some (.datum d) => (some d).filter (hasType type)
    | _ => none
  | .null _ => none

/-- The stack slot that an operand is the address of. -/
def address? (fr : Frame) : Value → Option String
  | .var name =>
    match fr.names name with
    | some (.address slot) => some slot
    | _ => none
  | _ => none

/-- A name gets a content. -/
def define (fr : Frame) (name : String) (content : Content) : Frame :=
  { fr with names := Function.update fr.names name (some content) }

/-- A stack slot gets a value. -/
def put (fr : Frame) (slot : String) (d : Datum) : Frame :=
  { fr with slots := Function.update fr.slots slot (some d) }

/-- What an instruction does, if that is defined. -/
def step (fr : Frame) : Inst → Option Frame
  | .slotPtr target source _ => do
    let slot ← fr.address? (.var source)
    some (fr.define target (.address slot))
  | .neg (.var dest) source true type => do
    let d ← (fr.read type source).bind negated
    some (fr.define dest (.datum d))
  | .bnot (.var dest) source type => do
    let d ← (fr.read type source).bind complemented
    some (fr.define dest (.datum d))
  | .lnot (.var dest) source type => do
    let d ← (fr.read type source).bind inverted
    some (fr.define dest (.datum d))
  | .binary op (.var dest) left right true isSigned type => do
    let d ← op.run isSigned (← fr.read type left) (← fr.read type right)
    some (fr.define dest (.datum d))
  | .compare kind (.var dest) left right true isSigned type => do
    let d ← kind.run isSigned (← fr.read type left) (← fr.read type right)
    some (fr.define dest (.datum d))
  | .store type source dest => do
    let d ← fr.read type source
    some (fr.put (← fr.address? dest) d)
  | .load type source (.var dest) => do
    let slot ← fr.address? source
    let d ← (fr.slots slot).filter (hasType type)
    some (fr.define dest (.datum d))
  | _ => none

/-- At the start of a function: the names of the stack slots hold their addresses, and the
parameters hold the arguments. -/
def enter (f : Function) (args : List Datum) : Frame where
  names name :=
    if f.slots.any (·.name = name) then some (.address name)
    else (((f.params.map Prod.fst).zip args).lookup name).map .datum
  slots _ := none

end Frame

/-- A machine for scalar code.  Its state is `none` behind an instruction that is undefined. -/
def scalarMachine : Machine (Option Frame) (Option Result) where
  inst inst s := s.bind (·.step inst)
  test cond s :=
    match s.bind (·.read "i1" cond) with
    | some (.bit holds) => .ok (holds, s)
    | _ => .error none
  pick value type cases s :=
    match s.bind (·.read type value) with
    | some (.word w) => .ok (cases.findIdx fun case => BitVec.ofInt 64 case = w, s)
    | _ => .error none
  ret type value s :=
    match value with
    | none => s.map fun _ => .void
    | some value => (s.bind (·.read type value)).map .value
  stuck s := s.map fun _ => .fellOff

/-! ## Instructions and operators -/

open Lowering (operation)

theorem ofInt_number (s : Scalar) (w : BitVec 64) : BitVec.ofInt 64 (s.number w) = w := by
  rw [Scalar.number]
  split
  · exact BitVec.ofInt_toInt
  · rw [BitVec.ofInt_natCast, BitVec.ofNat_toNat, BitVec.setWidth_eq]

theorem number_inj {s : Scalar} {a b : BitVec 64} : s.number a = s.number b ↔ a = b :=
  ⟨fun h => by rw [← ofInt_number s a, h, ofInt_number], fun h => h ▸ rfl⟩

theorem number_eq_zero {s : Scalar} {w : BitVec 64} : s.number w = 0 ↔ w = 0 := by
  have zero : s.number 0 = 0 := by cases s <;> decide
  exact zero ▸ number_inj

/-- Where a quotient is defined, so is the quotient of the words. -/
theorem defined_of_quotient? {s : Scalar} {a b : BitVec 64} {q : Int}
    (h : BinaryOp.quotient? s (s.number a) (s.number b) = some q) :
    undefinedQuotient s.isSigned a b = false ∧ q = (s.number a).tdiv (s.number b) := by
  rw [BinaryOp.quotient?] at h
  split at h
  · cases h
  next hb =>
    obtain ⟨hq, hr⟩ := Option.filter_eq_some_iff.1 h
    obtain rfl := Option.some.inj hq
    refine ⟨?_, rfl⟩
    simp only [undefinedQuotient, Bool.or_eq_false_iff, Bool.and_eq_false_imp,
      decide_eq_false_iff_not, Bool.and_eq_true, decide_eq_true_eq]
    refine ⟨number_eq_zero.not.1 hb, ?_⟩
    rintro ⟨hs, rfl⟩ rfl
    revert hr
    cases s with
    | u64 => cases hs
    | i64 => decide
    | bool => decide

theorem ofInt_tdiv {s : Scalar} {a b : BitVec 64}
    (h : undefinedQuotient s.isSigned a b = false) :
    BitVec.ofInt 64 ((s.number a).tdiv (s.number b)) =
      if s.isSigned then a.sdiv b else a / b := by
  unfold Scalar.number
  split
  next hs =>
    rw [← BitVec.ofInt_toInt (x := a.sdiv b), BitVec.toInt_sdiv_of_ne_or_ne]
    simp [undefinedQuotient, hs] at h
    by_cases ha : a = .intMin 64
    · exact .inr (h.2 ha)
    · exact .inl ha
  next =>
    rw [← Int.ofNat_tdiv, ← BitVec.toNat_udiv, BitVec.ofInt_natCast, BitVec.ofNat_toNat,
      BitVec.setWidth_eq]

theorem ofInt_tmod (s : Scalar) (a b : BitVec 64) :
    BitVec.ofInt 64 ((s.number a).tmod (s.number b)) =
      if s.isSigned then a.srem b else a % b := by
  unfold Scalar.number
  split
  · rw [← BitVec.toInt_srem, BitVec.ofInt_toInt]
  · rw [← Int.ofNat_tmod, ← BitVec.toNat_umod, BitVec.ofInt_natCast, BitVec.ofNat_toNat,
      BitVec.setWidth_eq]

/-- Arithmetic on integers is arithmetic on words. -/
theorem onWords_of_arithmetic {op : BinaryOp} {op' : BinOp} {s : Scalar} {a b c : BitVec 64}
    (hop : operation op = .arithmetic op') (h : op.arithmetic s a b = some c) :
    op'.onWords s.isSigned a b = some c := by
  cases op with
  | add =>
    cases hop
    rw [BinaryOp.arithmetic, BitVec.ofInt_add, ofInt_number, ofInt_number] at h
    exact h
  | sub =>
    cases hop
    rw [BinaryOp.arithmetic, Int.sub_eq_add_neg, BitVec.ofInt_add, BitVec.ofInt_neg, ofInt_number,
      ofInt_number, ← BitVec.sub_eq_add_neg] at h
    exact h
  | mult =>
    cases hop
    rw [BinaryOp.arithmetic, BitVec.ofInt_mul, ofInt_number, ofInt_number] at h
    exact h
  | div =>
    cases hop
    obtain ⟨q, hq, rfl⟩ := Option.map_eq_some_iff.1 h
    obtain ⟨hd, rfl⟩ := defined_of_quotient? hq
    rw [BinOp.onWords, if_neg (by simp [hd]), ofInt_tdiv hd]
  | rem =>
    cases hop
    obtain ⟨q, hq, rfl⟩ := Option.map_eq_some_iff.1 h
    obtain ⟨hd, rfl⟩ := defined_of_quotient? hq
    rw [BinOp.onWords, if_neg (by simp [hd]), Int.mul_comm, ← Int.tmod_def, ofInt_tmod]
  | band => cases hop; exact h
  | bxor => cases hop; exact h
  | bor => cases hop; exact h
  | _ => cases hop

theorem isComparison_iff {op : BinaryOp} :
    op.isComparison = true ↔ ∃ kind, operation op = .comparison kind := by
  cases op <;> simp [BinaryOp.isComparison, operation]

/-- Comparing integers is comparing words. -/
theorem onWords_of_compare {op : BinaryOp} {kind : Comparison} {s : Scalar} {a b : BitVec 64}
    {c : Bool} (hop : operation op = .comparison kind)
    (h : op.compare (s.number a) (s.number b) = some c) : kind.onWords s.isSigned a b = c := by
  have lt (a b : BitVec 64) :
      decide (s.number a < s.number b) = if s.isSigned then a.slt b else a.ult b := by
    unfold Scalar.number
    split
    · rfl
    · simp [BitVec.ult]
  have le (a b : BitVec 64) :
      decide (s.number a ≤ s.number b) = if s.isSigned then a.sle b else a.ule b := by
    unfold Scalar.number
    split
    · rfl
    · simp [BitVec.ule]
  cases op with
  | cmpEq | cmpNeq =>
    cases hop
    simpa [BinaryOp.compare, number_inj, Comparison.onWords] using h
  | less =>
    cases hop
    exact (lt a b).symm.trans (Option.some.inj h)
  | leq =>
    cases hop
    exact (le a b).symm.trans (Option.some.inj h)
  | grt =>
    cases hop
    exact (lt b a).symm.trans (Option.some.inj h)
  | geq =>
    cases hop
    exact (le b a).symm.trans (Option.some.inj h)
  | _ => cases hop

theorem run_of_arithmetic {op : BinaryOp} {op' : BinOp} {s : Scalar} {d e r : Datum}
    (hop : operation op = .arithmetic op') (h : op.apply s d e = some r) :
    op'.run s.isSigned d e = some r := by
  match d, e with
  | .word a, .word b =>
    have hc : ¬ op.isComparison = true := by simp [isComparison_iff, hop]
    rw [BinaryOp.apply, if_neg hc] at h
    obtain ⟨c, hc, rfl⟩ := Option.map_eq_some_iff.1 h
    rw [BinOp.run, onWords_of_arithmetic hop hc]
    rfl
  | .bit a, .bit b =>
    rw [← h]
    cases op with
    | band | bxor | bor => cases hop; rfl
    | add | sub | mult | div | rem => cases h
    | _ => cases hop
  | .word _, .bit _ => cases h
  | .bit _, .word _ => cases h

theorem run_of_comparison {op : BinaryOp} {kind : Comparison} {s : Scalar} {d e r : Datum}
    (hop : operation op = .comparison kind) (h : op.apply s d e = some r) :
    kind.run s.isSigned d e = some r := by
  match d, e with
  | .word a, .word b =>
    rw [BinaryOp.apply, if_pos (isComparison_iff.2 ⟨kind, hop⟩)] at h
    obtain ⟨c, hc, rfl⟩ := Option.map_eq_some_iff.1 h
    rw [Comparison.run, onWords_of_compare hop hc]
  | .bit a, .bit b =>
    rw [← h]
    cases op with
    | cmpEq | cmpNeq => cases hop; rfl
    | less | leq | grt | geq => cases h
    | _ => cases hop
  | .word _, .bit _ => cases h
  | .bit _, .word _ => cases h

namespace Frame

variable {fr : Frame} {dest type : String} {left right source : Value} {d e r : Datum}

theorem step_binary {op : BinaryOp} {op' : BinOp} {s : Scalar}
    (hop : operation op = .arithmetic op') (hl : fr.read type left = some d)
    (hr : fr.read type right = some e) (h : op.apply s d e = some r) :
    fr.step (.binary op' (.var dest) left right true s.isSigned type) =
      some (fr.define dest (.datum r)) := by
  simp [step, hl, hr, run_of_arithmetic hop h]

theorem step_compare {op : BinaryOp} {kind : Comparison} {s : Scalar}
    (hop : operation op = .comparison kind) (hl : fr.read type left = some d)
    (hr : fr.read type right = some e) (h : op.apply s d e = some r) :
    fr.step (.compare kind (.var dest) left right true s.isSigned type) =
      some (fr.define dest (.datum r)) := by
  simp [step, hl, hr, run_of_comparison hop h]

theorem step_store {slot : String} (hs : fr.read type source = some d)
    (ha : fr.address? (.var dest) = some slot) :
    fr.step (.store type source (.var dest)) = some (fr.put slot d) := by
  simp [step, hs, ha]

theorem step_load {slot : String} (ha : fr.address? source = some slot)
    (hs : (fr.slots slot).filter (hasType type) = some d) :
    fr.step (.load type source (.var dest)) = some (fr.define dest (.datum d)) := by
  simp [step, hs, ha]

end Frame

end Codegen.Ir
