import Codegen.Lowering.Module
import Codegen.Proofs.Factor

/-!
# The functions of a lowered program

A program that is lowered without an error has one function for each of its own, lowered without an
error and gone through the passes (`lowerProgram_impls`).
-/

namespace Codegen.Text

theorem dropEnding?_eq_some_iff {ending whole front : List Char} :
    dropEnding? ending whole = some front ↔ whole = front ++ ending := by
  unfold dropEnding?
  constructor
  · intro h
    split at h
    · rename_i hsuffix
      obtain ⟨front', rfl⟩ := List.isSuffixOf_iff_suffix.1 hsuffix
      simpa using h
    · cases h
  · rintro rfl
    simp

end Codegen.Text

namespace Codegen.Ir

/-! ## Replacements -/

/-- A size helper of a built-in type is replaced by a sum of constants. -/
theorem sizeReplacement?_eq_some {inst new : Inst} (h : sizeReplacement? inst = some new) :
    ∃ name type dest args signature location size,
      inst = .call name type dest args signature location ∧
        new = .binary .add dest (.lit size) (.lit "0") true true "i64" := by
  cases inst with
  | call name type dest args signature location =>
    obtain ⟨size, -, rfl⟩ := Option.map_eq_some_iff.1 h
    exact ⟨_, _, _, _, _, _, _, rfl, rfl⟩
  | _ => cases h

/-- A call for the address of its receiver is replaced by that address; its type is what the call
would have pointed to. -/
theorem ptrReplacement?_eq_some {inst new : Inst} (h : ptrReplacement? inst = some new) :
    ∃ name type dest argType receiver signature location pointee target source,
      inst = .call name type dest [(argType, receiver)] signature location ∧
        type = pointee ++ "*" ∧ dest.name? = some target ∧ receiver.name? = some source ∧
        new = .slotPtr target source pointee := by
  unfold ptrReplacement? at h
  split at h
  · obtain ⟨-, -, h⟩ := Option.bind_eq_some_iff.1 h
    obtain ⟨pointee, hp, h⟩ := Option.bind_eq_some_iff.1 h
    obtain ⟨target, ht, h⟩ := Option.bind_eq_some_iff.1 h
    obtain ⟨source, hs, h⟩ := Option.bind_eq_some_iff.1 h
    refine ⟨_, _, _, _, _, _, _, String.ofList pointee, target, source, rfl, ?_, ht, hs,
      (Option.some.inj h).symm⟩
    rw [← String.toList_inj, Text.dropEnding?_eq_some_iff.1 hp, String.toList_append,
      String.toList_ofList]
    rfl
  · cases h

end Codegen.Ir

namespace Codegen.Lowering

open Ir (Inst)

theorem errors_lowerFunction (env : Env) (f : Func) (strings : List String)
    (debugInfo : Ir.DebugInfo) :
    (lowerFunction env f strings debugInfo).errors = [] ↔
      (draftOf env f strings debugInfo).notes.faults = [] := by
  change (finalState env f strings debugInfo).notes.faults.map _ = [] ↔ _
  rw [List.map_eq_nil_iff, finalState_eq]

/-- A function that comes out of another one without an error. -/
def LoweredFrom (env : Env) (f : Func) (g : Ir.Function) : Prop :=
  ∃ strings debugInfo, (lowerFunction env f strings debugInfo).errors = [] ∧
    g = (lowerFunction env f strings debugInfo).function

theorem lowerFunctions_impls {env : Func → Env} {fs : List Func} {m : Ir.Module}
    (h : (lowerFunctions env fs m).2 = []) :
    ∃ gs, (lowerFunctions env fs m).1.impls = m.impls ++ gs ∧
      List.Forall₂ (fun f g => LoweredFrom (env f) f g) fs gs := by
  induction fs generalizing m with
  | nil => exact ⟨[], (List.append_nil _).symm, .nil⟩
  | cons f fs ih =>
    obtain ⟨hf, hfs⟩ := List.append_eq_nil_iff.1 h
    obtain ⟨gs, hgs, hlowered⟩ := ih hfs
    exact ⟨_ :: gs, hgs.trans (List.append_assoc ..), .cons ⟨_, _, hf, rfl⟩ hlowered⟩

/-- The module with one more function. -/
def Lowered.addTo (l : Lowered) (m : Ir.Module) : Ir.Module :=
  { m with impls := m.impls ++ [l.function], strings := l.strings, debugInfo := l.debugInfo }

theorem lowerFunctions_cons (env : Func → Env) (f : Func) (fs : List Func) (m : Ir.Module) :
    lowerFunctions env (f :: fs) m =
      let l := lowerFunction (env f) f m.strings m.debugInfo
      let later := lowerFunctions env fs (l.addTo m)
      (later.1, l.errors ++ later.2) := rfl

/-- The walks over functions change nothing else of a module. -/
theorem lowerFunctions_frame (env : Func → Env) (fs : List Func) (m : Ir.Module) :
    ∃ impls strings debugInfo,
      (lowerFunctions env fs m).1 = { m with impls, strings, debugInfo } := by
  induction fs generalizing m with
  | nil => exact ⟨_, _, _, rfl⟩
  | cons f fs ih => exact ih _

/-- What the functions of a program look up. -/
def environments (context : Context) (symbols : SymbolTable) (config : Config) : Func → Env :=
  environment context symbols (.ofSymbols symbols) (.compute context symbols)
    (recordModule context symbols config {}).1

/-- The module of a program without its functions. -/
def emptyModule (context : Context) (symbols : SymbolTable) (config : Config) : Ir.Module where
  targetTriple := config.triple
  unions := context.unions.filterMap (unionDecl? (.ofSymbols symbols) (.compute context symbols))
  structs := context.structs.map (structDecl (.ofSymbols symbols) (.compute context symbols))
  decls := context.decls.map (declaration (.ofSymbols symbols))
  debugInfo := (recordModule context symbols config {}).2

-- Without these equations the comparison of two modules would run the recording of their debug
-- information.
theorem record_environments (context : Context) (symbols : SymbolTable) (config : Config)
    (f : Func) : (environments context symbols config f).record =
      (recordModule context symbols config {}).1.get? f.name := by
  rw [environments, environment]

theorem debugInfo_emptyModule (context : Context) (symbols : SymbolTable) (config : Config) :
    (emptyModule context symbols config).debugInfo =
      (recordModule context symbols config {}).2 := by
  rw [emptyModule]

theorem buildModule_eq_lowerFunctions (context : Context) (symbols : SymbolTable)
    (config : Config) :
    buildModule context symbols config =
      let functions := lowerFunctions (environments context symbols config) context.impls
        (emptyModule context symbols config)
      (functions.1,
        context.unions.filterMap (unionError? (.compute context symbols)) ++ functions.2) := rfl

/-- What the passes do to a function. -/
def passed (g : Ir.Function) : Ir.Function :=
  (g.replace Ir.sizeReplacement?).replace Ir.ptrReplacement?

/-- The passes refuse the module for its declarations, or they go over its functions. -/
theorem runAll_standard_cases (m : Ir.Module) :
    Ir.Pass.runAll Ir.Pass.standard m =
      if (Ir.redeclared [] m.decls).isEmpty then ({ m with impls := m.impls.map passed }, [])
      else (m, (Ir.redeclared [] m.decls).map Ir.redefinitionError) := by
  have impls : (m.impls.map (Ir.Function.replace Ir.sizeReplacement?)).map
      (Ir.Function.replace Ir.ptrReplacement?) = m.impls.map passed := List.map_map
  have errors : ((Ir.redeclared [] m.decls).map Ir.redefinitionError).isEmpty =
      (Ir.redeclared [] m.decls).isEmpty := List.isEmpty_map
  rw [Ir.Pass.standard, Ir.Pass.runAll, ← impls, ← errors]
  rfl

/-- Passes without an error change nothing but the functions. -/
theorem runAll_standard_eq {m : Ir.Module} (h : (Ir.Pass.runAll Ir.Pass.standard m).2 = []) :
    (Ir.Pass.runAll Ir.Pass.standard m).1 = { m with impls := m.impls.map passed } := by
  rw [runAll_standard_cases] at h ⊢
  split
  · rfl
  · rename_i refused
    rw [if_neg refused] at h
    rw [List.map_eq_nil_iff.1 h] at refused
    exact absurd rfl refused

theorem runAll_standard {m : Ir.Module} (h : (Ir.Pass.runAll Ir.Pass.standard m).2 = []) :
    (Ir.Pass.runAll Ir.Pass.standard m).1.impls = m.impls.map passed :=
  congrArg Ir.Module.impls (runAll_standard_eq h)

/-- A program that is lowered has gone through the passes without an error. -/
theorem lowerProgram_ok {context : Context} {symbols : SymbolTable} {config : Config}
    {m : Ir.Module} (h : lowerProgram context symbols config = .ok m) :
    let built := buildModule context symbols config
    let result := Ir.Pass.runAll Ir.Pass.standard built.1
    built.2 = [] ∧ result.2 = [] ∧ m = result.1 := by
  intro built result
  have lowered : lowerProgram context symbols config =
    let final := if built.2.isEmpty then result else built
    let errors := final.2 ++ if config.verify then final.1.verify.map flowError else []
    if errors.isEmpty then .ok final.1 else .error (.lowering errors) := rfl
  rw [lowered] at h
  dsimp only at h
  have clean {final : Ir.Module × List Error} {more : List Error}
      (h : (if (final.2 ++ more).isEmpty then Except.ok final.1
        else .error (Error.lowering (final.2 ++ more))) = .ok m) : final.2 = [] ∧ m = final.1 := by
    split at h
    · rename_i empty
      exact ⟨(List.append_eq_nil_iff.1 (List.isEmpty_iff.1 empty)).1, (Except.ok.inj h).symm⟩
    · cases h
  by_cases hbuilt : built.2.isEmpty
  · rw [if_pos hbuilt] at h
    exact ⟨List.isEmpty_iff.1 hbuilt, clean h⟩
  · rw [if_neg hbuilt] at h
    exact absurd (List.isEmpty_iff.2 (clean h).1) hbuilt

section Lowered

variable {context : Context} {symbols : SymbolTable} {config : Config} {m : Ir.Module}

/-- All but the functions, string constants and debug records of a lowered program. -/
theorem lowerProgram_frame (h : lowerProgram context symbols config = .ok m) :
    ∃ impls strings debugInfo,
      m = { emptyModule context symbols config with impls, strings, debugInfo } := by
  obtain ⟨-, hpassed, rfl⟩ := lowerProgram_ok h
  obtain ⟨impls, strings, debugInfo, frame⟩ := lowerFunctions_frame
    (environments context symbols config) context.impls (emptyModule context symbols config)
  rw [runAll_standard_eq hpassed, buildModule_eq_lowerFunctions]
  dsimp only
  rw [frame]
  exact ⟨_, _, _, rfl⟩

/-- The declared tagged unions of a lowered program, in order. -/
theorem lowerProgram_unions (h : lowerProgram context symbols config = .ok m) :
    m.unions = context.unions.filterMap
      (unionDecl? (.ofSymbols symbols) (.compute context symbols)) := by
  obtain ⟨impls, strings, debugInfo, rfl⟩ := lowerProgram_frame h
  rfl

/-- The functions of a lowered program, in order, each with what it looks up. -/
theorem lowerProgram_lowered (h : lowerProgram context symbols config = .ok m) :
    ∃ gs, List.Forall₂ (fun f g => LoweredFrom (environments context symbols config f) f g)
        context.impls gs ∧
      m.impls = gs.map passed := by
  obtain ⟨hbuilt, hpassed, rfl⟩ := lowerProgram_ok h
  rw [runAll_standard hpassed]
  rw [buildModule_eq_lowerFunctions] at hbuilt ⊢
  obtain ⟨-, hbuilt⟩ := List.append_eq_nil_iff.1 hbuilt
  obtain ⟨gs, hgs, hlowered⟩ := lowerFunctions_impls hbuilt
  exact ⟨gs, hlowered, congrArg (List.map passed) hgs⟩

/-- The functions of a lowered program, in order. -/
theorem lowerProgram_impls (h : lowerProgram context symbols config = .ok m) :
    ∃ env : Func → Env, ∃ gs,
      List.Forall₂ (fun f g => LoweredFrom (env f) f g) context.impls gs ∧
        m.impls = gs.map passed := ⟨_, lowerProgram_lowered h⟩

/-- Every function of a lowered program comes out of one of its own, by what that one looks up. -/
theorem exists_loweredFrom_of_mem (h : lowerProgram context symbols config = .ok m)
    {g : Ir.Function} (hg : g ∈ m.impls) :
    ∃ f ∈ context.impls, ∃ g₀,
      LoweredFrom (environments context symbols config f) f g₀ ∧ g = passed g₀ := by
  obtain ⟨gs, hlowered, himpls⟩ := lowerProgram_lowered h
  rw [himpls] at hg
  obtain ⟨g₀, hg₀, rfl⟩ := List.mem_map.1 hg
  have flipped : List.Forall₂
      (fun g f => LoweredFrom (environments context symbols config f) f g) gs context.impls :=
    hlowered.flip
  obtain ⟨f, hf, hlowered⟩ := exists_mem_of_forall₂ flipped hg₀
  exact ⟨f, hf, g₀, hlowered, rfl⟩

/-- Every function of a lowered program comes out of one of its own. -/
theorem exists_lowered_of_mem (h : lowerProgram context symbols config = .ok m)
    {g : Ir.Function} (hg : g ∈ m.impls) :
    ∃ env, ∃ f ∈ context.impls, ∃ g₀, LoweredFrom env f g₀ ∧ g = passed g₀ :=
  let ⟨f, hf, g₀, hlowered, he⟩ := exists_loweredFrom_of_mem h hg
  ⟨_, f, hf, g₀, hlowered, he⟩

end Lowered

end Codegen.Lowering
