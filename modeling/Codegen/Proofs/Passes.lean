import Codegen.Proofs.Emitted
import Codegen.Proofs.Instructions
import Codegen.Proofs.Verified
import Mathlib.Data.List.Forall2
import Mathlib.Data.List.Nodup

/-!
# What the passes do to a module

Two of the passes replace calls, and each of them looks at one instruction at a time.  What they put
in the place of a call is no call, so neither finds anything to do in what the other has written,
and no call is meant for both.  Together they are one replacement of single instructions
(`passReplacement?`), in whatever order they run and however often.

`Module.Becomes` says all that such a replacement can do to a module.
-/

namespace Codegen.Ir

/-! ## Single instructions -/

/-- Where an instruction puts its result, if it has one. -/
def Inst.dest? : Inst → Option Value
  | .slotPtr target _ _ => some (.var target)
  | .zeroInit .. | .store .. => none
  | .str dest .. | .getIndex dest .. | .getField dest .. | .call _ _ dest .. | .neg dest ..
  | .bnot dest .. | .lnot dest .. | .binary _ dest .. | .compare _ dest .. | .load _ _ dest
  | .cast _ dest .. | .decay dest .. => some dest

/-- Whether an instruction is a call. -/
def Inst.isCall : Inst → Bool
  | .call .. => true
  | _ => false

/-- A call makes way for an instruction with its destination that calls nothing. -/
structure Inst.MakesWay (old new : Inst) : Prop where
  call : old.isCall = true
  noCall : new.isCall = false
  dest : new.dest? = old.dest?

/-- A replacement that only calls make way for. -/
def ReplacesCalls (r : Inst → Option Inst) : Prop := ∀ old new, r old = some new → old.MakesWay new

section Replacements

variable {r s : Inst → Option Inst}

theorem ReplacesCalls.eq_none (h : ReplacesCalls r) {inst : Inst} (noCall : inst.isCall = false) :
    r inst = none := by
  refine Option.eq_none_iff_forall_ne_some.2 fun new hnew => ?_
  rw [(h inst new hnew).call] at noCall
  cases noCall

theorem ReplacesCalls.or (hr : ReplacesCalls r) (hs : ReplacesCalls s) :
    ReplacesCalls fun inst => (r inst).or (s inst) := by
  intro old new h
  rcases Option.or_eq_some_iff.1 h with h | ⟨-, h⟩
  · exact hr old new h
  · exact hs old new h

/-- A replacement leaves nothing to replace. -/
theorem ReplacesCalls.replaceInst_eq_none (h : ReplacesCalls r) (inst : Inst) :
    r (replaceInst r inst) = none := by
  unfold replaceInst
  cases hnew : r inst with
  | none => exact hnew
  | some new => exact h.eq_none (h inst new hnew).noCall

/-- What has made way for the first replacement is left alone by the second. -/
theorem replaceInst_replaceInst (hr : ReplacesCalls r) (hs : ReplacesCalls s) (inst : Inst) :
    replaceInst s (replaceInst r inst) = replaceInst (fun inst => (r inst).or (s inst)) inst := by
  unfold replaceInst
  cases hnew : r inst with
  | none => simp [hnew]
  | some new => simp [hnew, hs.eq_none (hr inst new hnew).noCall]

end Replacements

theorem replacesCalls_sizeReplacement? : ReplacesCalls sizeReplacement? := by
  intro old new h
  obtain ⟨_, _, _, _, _, _, _, rfl, rfl⟩ := sizeReplacement?_eq_some h
  exact ⟨rfl, rfl, rfl⟩

theorem replacesCalls_ptrReplacement? : ReplacesCalls ptrReplacement? := by
  intro old new h
  obtain ⟨_, _, dest, _, _, _, _, _, target, _, rfl, -, hdest, -, rfl⟩ :=
    ptrReplacement?_eq_some h
  refine ⟨rfl, rfl, ?_⟩
  cases dest with
  | var name =>
    obtain rfl := Option.some.inj hdest
    rfl
  | null | lit => cases hdest

/-! ## Size helpers -/

/-- The built-in types with a size helper. -/
def sizedNames : List String :=
  ["i8", "u8", "bool", "i16", "u16", "i32", "u32", "f32", "i64", "u64", "f64"]

theorem isSome_primitiveSize? {name : String} :
    (primitiveSize? name).isSome ↔ name ∈ sizedNames := by
  unfold primitiveSize? sizedNames
  grind

/-- The callees with a size are the size helpers of the built-in types. -/
theorem isSome_calleeSize? {callee : String} :
    (calleeSize? callee).isSome ↔ ∃ name ∈ sizedNames, callee = name ++ ".__size__" := by
  constructor
  · intro h
    obtain ⟨size, h⟩ := Option.isSome_iff_exists.1 h
    obtain ⟨front, hfront, hsize⟩ := Option.bind_eq_some_iff.1 h
    refine ⟨String.ofList front, isSome_primitiveSize?.1 (Option.isSome_of_eq_some hsize), ?_⟩
    simp [← String.toList_inj, Text.dropEnding?_eq_some_iff.1 hfront]
  · rintro ⟨name, hname, rfl⟩
    have front : Text.dropEnding? ".__size__".toList (name ++ ".__size__").toList =
        some name.toList := by
      rw [Text.dropEnding?_eq_some_iff, String.toList_append]
    rw [calleeSize?, front, Option.bind_some, String.ofList_toList]
    exact isSome_primitiveSize?.2 hname

/-- No call is meant for both replacements: the name of a size helper has no place for
`.__ptr__`. -/
theorem ptrReplacement?_of_sizeReplacement? {inst new : Inst}
    (h : sizeReplacement? inst = some new) : ptrReplacement? inst = none := by
  cases inst with
  | call name type dest args signature location =>
    obtain ⟨size, hsize, -⟩ := Option.map_eq_some_iff.1 h
    obtain ⟨builtin, hbuiltin, rfl⟩ := isSome_calleeSize?.1 (Option.isSome_of_eq_some hsize)
    have absent : ∀ builtin ∈ sizedNames,
        Text.occurs ".__ptr__".toList (builtin ++ ".__size__").toList = false := by decide
    unfold ptrReplacement?
    split
    · rename_i same
      obtain ⟨rfl, -⟩ := Inst.call.inj same
      rw [absent builtin hbuiltin]
      rfl
    · rfl
  | _ => cases h

/-! ## All replacements at once -/

/-- What replaces a call of either kind. -/
def passReplacement? (inst : Inst) : Option Inst :=
  (sizeReplacement? inst).or (ptrReplacement? inst)

theorem replacesCalls_passReplacement? : ReplacesCalls passReplacement? :=
  replacesCalls_sizeReplacement?.or replacesCalls_ptrReplacement?

/-- The order of the two kinds does not matter. -/
theorem passReplacement?_eq (inst : Inst) :
    passReplacement? inst = (ptrReplacement? inst).or (sizeReplacement? inst) := by
  unfold passReplacement?
  cases h : sizeReplacement? inst with
  | none => simp
  | some new => simp [ptrReplacement?_of_sizeReplacement? h]

namespace Module

/-- Replacements of instructions in a row are one replacement if they are one for each of the
instructions. -/
theorem replace_replace {r s t : Inst → Option Inst}
    (h : ∀ inst, replaceInst s (replaceInst r inst) = replaceInst t inst) (m : Module) :
    (m.replace r).replace s = m.replace t := by
  simp [replace, Function.replace, Block.replace, Function.comp_def, h]

theorem replace_size_ptr (m : Module) :
    (m.replace sizeReplacement?).replace ptrReplacement? = m.replace passReplacement? :=
  m.replace_replace <|
    replaceInst_replaceInst replacesCalls_sizeReplacement? replacesCalls_ptrReplacement?

theorem replace_ptr_size (m : Module) :
    (m.replace ptrReplacement?).replace sizeReplacement? = m.replace passReplacement? := by
  refine m.replace_replace fun inst => ?_
  rw [replaceInst_replaceInst replacesCalls_ptrReplacement? replacesCalls_sizeReplacement?]
  simp only [← passReplacement?_eq]

theorem replace_pass_pass (m : Module) :
    (m.replace passReplacement?).replace passReplacement? = m.replace passReplacement? := by
  refine m.replace_replace fun inst => ?_
  rw [replaceInst_replaceInst replacesCalls_passReplacement? replacesCalls_passReplacement?]
  simp only [Option.or_self]

end Module

/-! ## What a replacement of calls changes -/

/-- Some calls of a block make way, each in its place. -/
structure Block.Becomes (b b' : Block) : Prop where
  label : b'.label = b.label
  comment : b'.comment = b.comment
  terminator : b'.terminator = b.terminator
  insts : List.Forall₂ (fun old new => new = old ∨ old.MakesWay new) b.insts b'.insts

/-- Some calls of a function make way, and nothing but its blocks changes. -/
structure Function.Becomes (f f' : Function) : Prop where
  rest : f' = { f with blocks := f'.blocks }
  blocks : List.Forall₂ Block.Becomes f.blocks f'.blocks

/-- Some calls of a module make way, and nothing but its implemented functions changes. -/
structure Module.Becomes (m m' : Module) : Prop where
  rest : m' = { m with impls := m'.impls }
  impls : List.Forall₂ Function.Becomes m.impls m'.impls

theorem Module.becomes_replace {r : Inst → Option Inst} (h : ReplacesCalls r) (m : Module) :
    m.Becomes (m.replace r) := by
  have insts (inst : Inst) : replaceInst r inst = inst ∨ inst.MakesWay (replaceInst r inst) := by
    unfold replaceInst
    cases hnew : r inst with
    | none => exact .inl rfl
    | some new => exact .inr (h inst new hnew)
  have blocks (b : Block) : b.Becomes (b.replace r) :=
    ⟨rfl, rfl, rfl, List.forall₂_map_right_iff.2 (List.forall₂_same.2 fun inst _ => insts inst)⟩
  have functions (f : Function) : f.Becomes (f.replace r) :=
    ⟨rfl, List.forall₂_map_right_iff.2 (List.forall₂_same.2 fun b _ => blocks b)⟩
  exact ⟨rfl, List.forall₂_map_right_iff.2 (List.forall₂_same.2 fun f _ => functions f)⟩

/-! ## Declarations -/

/-- The functions with the name of an earlier one, in order. -/
def repetitions (fs : List Function) : List Function :=
  (fs.zipIdx.filter fun f => f.1.name ∈ (fs.take f.2).map Function.name).map Prod.fst

/-- `seen` are the names of what stands in front. -/
theorem redeclared_eq (seen : List String) (front : List Function)
    (h : ∀ name, name ∈ seen ↔ name ∈ front.map Function.name) (fs : List Function) :
    redeclared seen fs =
      ((fs.zipIdx front.length).filter fun f =>
        f.1.name ∈ ((front ++ fs).take f.2).map Function.name).map Prod.fst := by
  induction fs generalizing seen front with
  | nil => rfl
  | cons f fs ih =>
    have split : front ++ f :: fs = (front ++ [f]) ++ fs := by simp
    have place : front.length + 1 = (front ++ [f]).length := by simp
    have known : f.name ∈ ((front ++ [f] ++ fs).take front.length).map Function.name ↔
        f.name ∈ seen := by
      rw [List.append_assoc, List.take_left, h]
    rw [redeclared, List.zipIdx_cons, split, place]
    by_cases hf : f.name ∈ seen
    · have rest := ih seen (front ++ [f]) (by grind)
      rw [if_pos (List.contains_iff_mem.2 hf), List.filter_cons_of_pos (by simpa using known.2 hf),
        List.map_cons, rest]
    · have rest := ih (f.name :: seen) (front ++ [f]) (by grind)
      rw [if_neg (mt List.contains_iff_mem.1 hf),
        List.filter_cons_of_neg (by simpa using mt known.1 hf), rest]

theorem redeclared_nil_eq (fs : List Function) : redeclared [] fs = repetitions fs :=
  redeclared_eq [] [] (by simp) fs

/-- Without two functions of one name there is nothing to refuse. -/
theorem redeclared_eq_nil_iff {seen : List String} {fs : List Function} :
    redeclared seen fs = [] ↔ (fs.map Function.name).Nodup ∧ ∀ f ∈ fs, f.name ∉ seen := by
  induction fs generalizing seen with
  | nil => simp [redeclared]
  | cons f fs ih =>
    by_cases hf : f.name ∈ seen
    · simp [redeclared, hf]
    · rw [redeclared, if_neg (mt List.contains_iff_mem.1 hf), ih]
      grind

/-! ## The passes -/

namespace Pass

/-- The passes refuse repeated declarations, or they replace calls. -/
theorem runAll_standard_eq_replace (m : Module) :
    runAll standard m =
      if (m.decls.map Function.name).Nodup then (m.replace passReplacement?, [])
      else (m, (repetitions m.decls).map redefinitionError) := by
  have refuses : (redeclared [] m.decls).isEmpty ↔ (m.decls.map Function.name).Nodup := by
    rw [List.isEmpty_iff, redeclared_eq_nil_iff]
    simp
  have passes : { m with impls := m.impls.map Lowering.passed } = m.replace passReplacement? := by
    rw [← Module.replace_size_ptr, Module.replace, Module.replace, List.map_map]
    rfl
  rw [Lowering.runAll_standard_cases, redeclared_nil_eq, passes]
  rw [redeclared_nil_eq] at refuses
  by_cases distinct : (m.decls.map Function.name).Nodup
  · rw [if_pos distinct, if_pos (refuses.2 distinct)]
  · rw [if_neg distinct, if_neg (mt refuses.1 distinct)]

/-- No call of a size helper of a built-in type is left. -/
theorem not_sizeHelper_of_replace {m : Module} {f : Function}
    (hf : f ∈ (m.replace passReplacement?).impls) {name type : String} {dest : Value}
    {args : List (String × Value)} {signature : Option String} {location : Option Nat}
    (h : .call name type dest args signature location ∈ f.insts) :
    ∀ builtin ∈ sizedNames, name ≠ builtin ++ ".__size__" := by
  obtain ⟨g, -, rfl⟩ := List.mem_map.1 hf
  rw [Lowering.insts_replace] at h
  obtain ⟨inst, -, hinst⟩ := List.mem_map.1 h
  have left := replacesCalls_passReplacement?.replaceInst_eq_none inst
  rw [hinst, passReplacement?, Option.or_eq_none_iff] at left
  rintro builtin hbuiltin rfl
  obtain ⟨size, hsize⟩ := Option.isSome_iff_exists.1
    (isSome_calleeSize?.2 ⟨builtin, hbuiltin, rfl⟩)
  rw [sizeReplacement?, hsize] at left
  cases left.1

/-- A module with two declarations of one name is refused by the standard passes and stays as it
is; there is one error for each declaration with the name of an earlier one, in order.  Any other
module passes, and all that happens to it is that some calls in its functions make way, each in its
place, for instructions with the same destination that call nothing; so the check of the module
finds what it has found before, and no call of a size helper of a built-in type is left.  A second
run changes nothing, and the two passes that replace calls may change places. -/
theorem standard_passes_replace_calls_in_place (m : Module) :
    (¬ (m.decls.map Function.name).Nodup →
      runAll standard m = (m, (repetitions m.decls).map redefinitionError)) ∧
    ((m.decls.map Function.name).Nodup →
      (runAll standard m).2 = [] ∧ m.Becomes (runAll standard m).1 ∧
      (runAll standard m).1.verify = m.verify ∧
      ∀ f ∈ (runAll standard m).1.impls, ∀ name type dest args signature location,
        .call name type dest args signature location ∈ f.insts →
          ∀ builtin ∈ sizedNames, name ≠ builtin ++ ".__size__") ∧
    runAll standard (runAll standard m).1 = runAll standard m ∧
    (receiverPtr.run (primitiveSize.run m).module).module =
      (primitiveSize.run (receiverPtr.run m).module).module := by
  refine ⟨fun repeats => ?_, fun distinct => ?_, ?_, ?_⟩
  · rw [runAll_standard_eq_replace, if_neg repeats]
  · have verified := Lowering.verify_runAll standard m
    rw [runAll_standard_eq_replace, if_pos distinct] at verified ⊢
    exact ⟨rfl, m.becomes_replace replacesCalls_passReplacement?, verified,
      fun f hf _ _ _ _ _ _ h => not_sizeHelper_of_replace hf h⟩
  · rw [runAll_standard_eq_replace m]
    split
    · rename_i distinct
      have again := runAll_standard_eq_replace (m.replace passReplacement?)
      have decls : (m.replace passReplacement?).decls = m.decls := rfl
      rwa [decls, if_pos distinct, Module.replace_pass_pass] at again
    · rename_i repeats
      rw [runAll_standard_eq_replace, if_neg repeats]
  · exact m.replace_size_ptr.trans m.replace_ptr_size.symm

end Pass

namespace Sample

/-- Asks for the sizes of `u16` and of a struct and for the address of a struct, beside functions
that are only declared. -/
def measuring (declared : List String) : Module where
  decls := declared.map fun name => { name, returnType := "i32" }
  impls :=
    [ { name := "f", returnType := "void",
        blocks :=
          [ { label := 0, terminator := .retVoid,
              insts :=
                [ .call "u16.__size__" "i64" (.var "_0") [] none none,
                  .call "m.point.__size__" "i64" (.var "_1") [] none none,
                  .call "m.point.__ptr__" "%struct.m.point*" (.var "_2")
                    [("%struct.m.point*", .var "p.slot")] none none ] } ] } ]

end Sample

theorem Pass.measuring_calls_are_replaced :
    (((Sample.measuring ["puts", "exit"]).decls.map Function.name).Nodup ∧
      (runAll standard (Sample.measuring ["puts", "exit"])).2 = [] ∧
      (Sample.measuring ["puts", "exit"]).Becomes
        (runAll standard (Sample.measuring ["puts", "exit"])).1 ∧
      (runAll standard (Sample.measuring ["puts", "exit"])).1.impls.flatMap Function.insts =
        [ .binary .add (.var "_0") (.lit "2") (.lit "0") true true "i64",
          .call "m.point.__size__" "i64" (.var "_1") [] none none,
          .slotPtr "_2" "p.slot" "%struct.m.point" ]) ∧
    ¬ ((Sample.measuring ["puts", "exit", "puts"]).decls.map Function.name).Nodup ∧
      runAll standard (Sample.measuring ["puts", "exit", "puts"]) =
        (Sample.measuring ["puts", "exit", "puts"],
          [.internal "redefinition of extern function \"puts\"" {} ""]) := by
  have distinct : ((Sample.measuring ["puts", "exit"]).decls.map Function.name).Nodup := by decide
  have repeats : ¬ ((Sample.measuring ["puts", "exit", "puts"]).decls.map Function.name).Nodup := by
    decide
  obtain ⟨-, passes, -⟩ :=
    standard_passes_replace_calls_in_place (Sample.measuring ["puts", "exit"])
  obtain ⟨refused, -⟩ :=
    standard_passes_replace_calls_in_place (Sample.measuring ["puts", "exit", "puts"])
  obtain ⟨noErrors, becomes, -⟩ := passes distinct
  exact ⟨⟨distinct, noErrors, becomes, by decide +kernel⟩, repeats, refused repeats⟩

end Codegen.Ir
