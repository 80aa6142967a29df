import Codegen.Ir.Basic
import Mathlib.Data.Set.Basic

/-!
# Names that instructions read and define

A name is known at a point when it is a parameter, a stack slot, or defined by an instruction
before it.  Instructions can be run when all the names they read are known.
-/

namespace Codegen.Ir

/-- The operands an instruction reads.  The address that is written to is one of them. -/
def Inst.reads : Inst → List Value
  | .slotPtr _ source _ => [.var source]
  | .str .. => []
  | .zeroInit dest _ => [dest]
  | .getIndex _ source index _ _ => [source, index]
  | .getField _ source _ _ => [source]
  | .call _ _ _ args _ _ => args.map Prod.snd
  | .neg _ source _ _ => [source]
  | .bnot _ source _ => [source]
  | .lnot _ source _ => [source]
  | .binary _ _ left right _ _ _ => [left, right]
  | .compare _ _ left right _ _ _ => [left, right]
  | .store _ source dest => [source, dest]
  | .load _ source _ => [source]
  | .cast _ _ source _ _ => [source]
  | .decay _ source _ _ => [source]

/-- The names an instruction defines.  To write to an address defines nothing. -/
def Inst.defines : Inst → List String
  | .slotPtr target _ _ => [target]
  | .str target _ _ => target.name?.toList
  | .zeroInit .. => []
  | .getIndex dest .. => dest.name?.toList
  | .getField dest .. => dest.name?.toList
  | .call _ _ dest _ _ _ => dest.name?.toList
  | .neg dest .. => dest.name?.toList
  | .bnot dest .. => dest.name?.toList
  | .lnot dest .. => dest.name?.toList
  | .binary _ dest .. => dest.name?.toList
  | .compare _ dest .. => dest.name?.toList
  | .store .. => []
  | .load _ _ dest => dest.name?.toList
  | .cast _ dest .. => dest.name?.toList
  | .decay dest .. => dest.name?.toList

/-- The operands a terminator reads. -/
def Terminator.reads : Terminator → List Value
  | .goto _ => []
  | .branch cond _ _ => [cond]
  | .switch value .. => [value]
  | .ret _ value => value.toList
  | .unreachable => []

/-- An operand can be read when `known` are the names so far. -/
def Value.Known (known : Set String) (value : Value) : Prop := ∀ x ∈ value.name?, x ∈ known

/-- The names behind an instruction. -/
def Inst.extend (inst : Inst) (known : Set String) : Set String :=
  known ∪ {x | x ∈ inst.defines}

/-- The names behind instructions. -/
def extendAll (known : Set String) (insts : List Inst) : Set String :=
  insts.foldl (fun known inst => inst.extend known) known

/-- Instructions that read only what is known. -/
def Readable : Set String → List Inst → Prop
  | _, [] => True
  | known, inst :: insts =>
    (∀ v ∈ inst.reads, v.Known known) ∧ Readable (inst.extend known) insts

section Known

variable {known known' : Set String}

@[simp]
theorem Value.known_var {x : String} : (Value.var x).Known known ↔ x ∈ known := by
  simp [Value.Known, Value.name?]

@[simp]
theorem Value.known_lit (text : String) : (Value.lit text).Known known := by
  simp [Value.Known, Value.name?]

@[simp]
theorem Value.known_null (note : String) : (Value.null note).Known known := by
  simp [Value.Known, Value.name?]

theorem Value.Known.mono {v : Value} (h : v.Known known) (hsub : known ⊆ known') :
    v.Known known' := fun x hx => hsub (h x hx)

theorem Inst.subset_extend (inst : Inst) : known ⊆ inst.extend known := Set.subset_union_left

theorem Inst.extend_mono (inst : Inst) (h : known ⊆ known') :
    inst.extend known ⊆ inst.extend known' := Set.union_subset_union_left _ h

@[simp]
theorem extendAll_append (is js : List Inst) :
    extendAll known (is ++ js) = extendAll (extendAll known is) js := List.foldl_append

theorem subset_extendAll (insts : List Inst) : known ⊆ extendAll known insts := by
  induction insts generalizing known with
  | nil => exact Set.Subset.rfl
  | cons inst insts ih => exact inst.subset_extend.trans ih

theorem mem_extendAll {insts : List Inst} {x : String} :
    x ∈ extendAll known insts ↔ x ∈ known ∨ ∃ inst ∈ insts, x ∈ inst.defines := by
  induction insts generalizing known with
  | nil => simp [extendAll]
  | cons inst insts ih =>
    change x ∈ extendAll (inst.extend known) insts ↔ _
    rw [ih]
    simp [Inst.extend, or_assoc]

theorem readable_append {is js : List Inst} :
    Readable known (is ++ js) ↔ Readable known is ∧ Readable (extendAll known is) js := by
  induction is generalizing known with
  | nil => simp [Readable, extendAll]
  | cons inst is ih => simp [Readable, ih, extendAll, and_assoc]

/-- Every instruction of a readable list reads what is known or defined before it. -/
theorem Readable.known_of_mem {pre post : List Inst} {inst : Inst}
    (h : Readable known (pre ++ inst :: post)) :
    ∀ v ∈ inst.reads, v.Known (extendAll known pre) := (readable_append.1 h).2.1

end Known

end Codegen.Ir
