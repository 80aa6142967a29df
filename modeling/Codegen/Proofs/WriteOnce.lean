import Codegen.Proofs.Dominance
import Codegen.Proofs.Fresh
import Codegen.Proofs.Instructions
import Mathlib.Data.List.Nodup

/-!
# Names are defined once

Every counter of a walk only grows, and every name that a straight-line step defines is made from a
number that the step draws (`Draws`).  Since names of different origins differ, no name is defined
twice: not by the walk over a body, and not together with the parameters.
-/

namespace Codegen.Ir

/-- The names that a function defines: parameters, stack slots, and what its instructions define. -/
def Function.defined (f : Function) : List String :=
  f.params.map Prod.fst ++ (f.slots.map Slot.name ++ f.insts.flatMap Inst.defines)

end Codegen.Ir

namespace Codegen.Lowering

open Ir (Inst Value Slot)

variable {α β : Type} {locals : Set String}

/-- No counter has gone back. -/
structure Names.Before (n n' : Names) : Prop where
  temp : n.nextTemp ≤ n'.nextTemp
  defined : n.nextLocal ≤ n'.nextLocal
  array : n.nextArray ≤ n'.nextArray

theorem Names.Before.trans {n n' n'' : Names} (h : n.Before n') (h' : n'.Before n'') :
    n.Before n'' :=
  ⟨h.temp.trans h'.temp, h.defined.trans h'.defined, h.array.trans h'.array⟩

/-- The name is made from a number that was drawn between `n` and `n'`. -/
def Origin.Drawn (locals : Set String) (n n' : Names) : Origin → Prop
  | .temp i | .hidden i => n.nextTemp ≤ i ∧ i < n'.nextTemp
  | .defined x i => x ∈ locals ∧ n.nextLocal ≤ i ∧ i < n'.nextLocal
  | .storage i | .element i => n.nextArray ≤ i ∧ i < n'.nextArray
  | .slot _ | .argument _ => False

theorem Origin.Drawn.mono {m n n' m' : Names} {o : Origin} (h : o.Drawn locals n n')
    (hm : m.Before n) (hm' : n'.Before m') : o.Drawn locals m m' := by
  obtain ⟨_, _, _⟩ := hm
  obtain ⟨_, _, _⟩ := hm'
  cases o <;> simp only [Origin.Drawn] at h ⊢ <;> first | omega | exact ⟨h.1, by omega, by omega⟩

/-- No number is drawn twice. -/
theorem Origin.Drawn.false {n n' n'' : Names} {o : Origin} (h : o.Drawn locals n n')
    (h' : o.Drawn locals n' n'') : False := by
  cases o <;> simp only [Origin.Drawn] at h h' <;> omega

/-- The names that a stretch of code defines. -/
def Stretch.made (s : Stretch α) : List String :=
  s.notes.slots.map Slot.name ++ s.insts.flatMap Inst.defines

/-- Slots and instructions are each in order, so the names of two stretches are interleaved. -/
theorem made_bind (x : Line α) (f : α → Line β) (n : Names) :
    ((x >>= f) n).made.Perm ((x n).made ++ (f (x n).value (x n).names).made) := by
  change (List.map _ (_ ++ _) ++ List.flatMap _ (_ ++ _)).Perm _
  simp only [List.map_append, List.flatMap_append, Stretch.made, List.append_assoc]
  exact (List.perm_append_comm_assoc _ _ _).append_left _

/-- A step defines different names, and makes all of them from numbers that it draws. -/
structure Draws (locals : Set String) (step : Line α) : Prop where
  before (n : Names) : n.Before (step n).names
  made (n : Names) : ∃ os : List Origin, (step n).made.Perm (os.map Origin.name) ∧ os.Nodup ∧
    ∀ o ∈ os, o.Drawn locals n (step n).names

namespace Draws

theorem bind {x : Line α} {f : α → Line β} (hx : Draws locals x) (hf : ∀ a, Draws locals (f a)) :
    Draws locals (x >>= f) where
  before n := (hx.before n).trans ((hf _).before _)
  made n := by
    have hn := hx.before n
    have hn' := (hf (x n).value).before (x n).names
    obtain ⟨os, hos, hnodup, hdrawn⟩ := hx.made n
    obtain ⟨os', hos', hnodup', hdrawn'⟩ := (hf (x n).value).made (x n).names
    refine ⟨os ++ os', ?_, ?_, ?_⟩
    · rw [List.map_append]
      exact (made_bind x f n).trans (hos.append hos')
    · refine List.nodup_append.2 ⟨hnodup, hnodup', ?_⟩
      rintro o ho _ ho' rfl
      exact (hdrawn o ho).false (hdrawn' o ho')
    · intro o ho
      rcases List.mem_append.1 ho with ho | ho
      · exact (hdrawn o ho).mono ⟨le_rfl, le_rfl, le_rfl⟩ hn'
      · exact (hdrawn' o ho).mono hn ⟨le_rfl, le_rfl, le_rfl⟩

/-- A step that defines nothing. -/
theorem of_made_eq_nil {step : Line α} (hb : ∀ n : Names, n.Before (step n).names)
    (hm : ∀ n, (step n).made = []) : Draws locals step where
  before := hb
  made n := ⟨[], by rw [hm]; rfl, List.nodup_nil, List.forall_mem_nil _⟩

theorem quiet {step : Line α} (h : Quiet step) : Draws locals step := by
  refine of_made_eq_nil (fun n => ⟨?_, ?_, ?_⟩) fun n => ?_
  · exact (h.nextTemp n).ge
  · exact (h.nextLocal n).ge
  · exact (h.nextArray n).ge
  · rw [Stretch.made, h.insts, h.slots]
    rfl

theorem write {inst : Inst} (hd : inst.defines = []) : Draws locals (emit inst) :=
  of_made_eq_nil (fun _ => ⟨le_rfl, le_rfl, le_rfl⟩) fun _ => by simp [Stretch.made, emit, hd]

/-- A step that draws a temporary and defines only it. -/
theorem of_temp {step : Line α} (hm : ∀ n, (step n).made = [(Origin.temp n.nextTemp).name])
    (ht : ∀ n, (step n).names.nextTemp = n.nextTemp + 1)
    (hl : ∀ n, (step n).names.nextLocal = n.nextLocal)
    (ha : ∀ n, (step n).names.nextArray = n.nextArray) : Draws locals step where
  before n := ⟨by rw [ht]; omega, (hl n).ge, (ha n).ge⟩
  made n := by
    refine ⟨[.temp n.nextTemp], ?_, List.nodup_singleton _, ?_⟩
    · rw [hm]
      rfl
    · intro o ho
      obtain rfl := List.mem_singleton.1 ho
      exact ⟨le_rfl, by rw [ht]; omega⟩

theorem computed {inst : String → Inst} (hd : ∀ x, (inst x).defines = [x]) :
    Draws locals (temp >>= fun x => emit (inst x) >>= fun _ => Pure.pure x) := by
  refine of_temp (fun n => ?_) (fun _ => rfl) (fun _ => rfl) fun _ => rfl
  change (inst (Origin.temp n.nextTemp).name).defines ++ [] = _
  rw [hd, List.append_nil]

theorem string (literal : String) (type : Ty) : Draws locals (pushString literal type) :=
  of_temp (fun _ => rfl) (fun _ => rfl) (fun _ => rfl) fun _ => rfl

/-- A hidden slot is named after the temporary that holds its address. -/
theorem hidden (type : String) : Draws locals (hiddenSlot type) where
  before _ := ⟨Nat.le_succ _, le_rfl, le_rfl⟩
  made n := by
    refine ⟨[.hidden n.nextTemp, .temp n.nextTemp], .refl _, by simp, ?_⟩
    have drawn : n.nextTemp < n.nextTemp + 1 := by omega
    simp only [List.mem_cons, List.not_mem_nil, or_false, forall_eq_or_imp, forall_eq]
    exact ⟨⟨le_rfl, drawn⟩, le_rfl, drawn⟩

theorem array (size : Nat) (element : String) : Draws locals (beginArray size element) where
  before _ := ⟨le_rfl, le_rfl, Nat.le_succ _⟩
  made n := by
    refine ⟨[.storage n.nextArray, .element n.nextArray], .refl _, by simp, ?_⟩
    have drawn : n.nextArray < n.nextArray + 1 := by omega
    simp only [List.mem_cons, List.not_mem_nil, or_false, forall_eq_or_imp, forall_eq]
    exact ⟨⟨le_rfl, drawn⟩, le_rfl, drawn⟩

theorem define {env : Env} {name : String} (h : name ∈ locals) (type : Ty) :
    Draws locals (beginDefine env name type) where
  before _ := ⟨le_rfl, Nat.le_succ _, le_rfl⟩
  made n := by
    refine ⟨[.defined name n.nextLocal], .refl _, List.nodup_singleton _, ?_⟩
    intro o ho
    obtain rfl := List.mem_singleton.1 ho
    exact ⟨h, le_rfl, Nat.lt_succ_self _⟩

theorem call {env : Env} (name type : String) (args : List (String × Value))
    (signature : Option String) (span : Span) :
    Draws locals (addLocation env span >>= fun location =>
      emit (.call name type (.null "void call") args signature location)) := by
  refine of_made_eq_nil (fun n => ?_) fun n => ?_ <;> unfold addLocation <;>
    cases env.record
  all_goals first | rfl | exact ⟨le_rfl, le_rfl, le_rfl⟩

theorem result {env : Env} (name type : String) (args : List (String × Value))
    (signature : Option String) (span : Span) :
    Draws locals (temp >>= fun x => addLocation env span >>= fun location =>
      emit (.call name type (.var x) args signature location) >>= fun _ => Pure.pure x) := by
  unfold addLocation
  cases env.record <;> exact of_temp (fun _ => rfl) (fun _ => rfl) (fun _ => rfl) fun _ => rfl

end Draws

/-- Every step of a walk makes the names that it defines from numbers that it draws. -/
def drawing (env : Env) (locals : Set String) : LineProperty env locals where
  Holds := Draws locals
  quiet := .quiet
  bind := .bind
  write hd _ := .write hd
  computed hd _ := .computed hd
  string := .string
  rescope _ := .of_made_eq_nil (fun _ => ⟨le_rfl, le_rfl, le_rfl⟩) fun _ => rfl
  hidden _ := .hidden _
  array _ _ _ := .array _ _
  define := .define
  call _ _ _ _ _ := .call ..
  result _ _ _ _ _ := .result ..

/-! ## Functions -/

/-- Parameters bring a stack slot each. -/
theorem made_lowerParams (env : Env) (params : List (String × Ty)) (n : Names) :
    (lowerParams env params n).made = params.map fun param => (Origin.slot param.1).name := by
  induction params generalizing n with
  | nil => rfl
  | cons param params ih => exact congrArg (List.cons _) (ih _)

theorem made_draftOf (env : Env) (f : Func) (strings : List String) (debugInfo : Ir.DebugInfo) :
    ∃ n, (draftOf env f strings debugInfo).flat.made.Perm
      ((f.params.map fun param => (Origin.slot param.1).name) ++
        ((bodyDraft env f).flat false n).made) := by
  let n : Names := { strings, debugInfo, scopes := [[]] }
  have split : (draftOf env f strings debugInfo).flat.made =
      ((lowerParams env f.params >>= fun _ => (bodyDraft env f).flat false) n).made :=
    congrArg Stretch.made (congrFun (flat_walkFunction env f) { strings, debugInfo })
  refine ⟨(lowerParams env f.params n).names, ?_⟩
  rw [split, ← made_lowerParams env f.params n]
  exact made_bind _ _ n

/-- Where the names of a function come from: its parameters, and what its body draws. -/
theorem exists_origins (env : Env) (f : Func) (strings : List String) (debugInfo : Ir.DebugInfo) :
    ∃ os : List Origin,
      ((f.params.map fun param => (Origin.argument param.1).name) ++
        (draftOf env f strings debugInfo).flat.made).Perm (os.map Origin.name) ∧
      ((f.params.map Prod.fst).Nodup → os.Nodup) ∧
      ∀ x i, .defined x i ∈ os → x ∈ Node.localsOf? f.body := by
  obtain ⟨n, hn⟩ := made_draftOf env f strings debugInfo
  obtain ⟨os, hos, hnodup, hdrawn⟩ :=
    ((drawing env {x | x ∈ Node.localsOf? f.body}).bodyDraft fun _ h => h).made n
  let arguments := f.params.map fun param => Origin.argument param.1
  let slots := f.params.map fun param => Origin.slot param.1
  have drawn {o : Origin} (ho : o ∈ os) : o ∉ arguments ∧ o ∉ slots := by
    have := hdrawn o ho
    constructor <;> intro hm <;> obtain ⟨param, -, rfl⟩ := List.mem_map.1 hm <;> exact this
  refine ⟨arguments ++ (slots ++ os), ?_, fun hparams => ?_, fun x i hx => ?_⟩
  · rw [List.map_append, List.map_append, List.map_map, List.map_map]
    exact (hn.trans (hos.append_left _)).append_left _
  · have each {mk : String → Origin} (hmk : Function.Injective mk) :
        (f.params.map fun param => mk param.1).Nodup := by
      have := hparams.map hmk
      rwa [List.map_map] at this
    refine List.nodup_append.2 ⟨each fun _ _ => Origin.argument.inj, ?_, ?_⟩
    · refine List.nodup_append.2 ⟨each fun _ _ => Origin.slot.inj, hnodup, ?_⟩
      rintro o ho _ ho' rfl
      exact (drawn ho').2 ho
    · rintro o ho _ ho' rfl
      rcases List.mem_append.1 ho' with ho' | ho'
      · obtain ⟨param, -, rfl⟩ := List.mem_map.1 ho
        obtain ⟨param', -, h⟩ := List.mem_map.1 ho'
        cases h
      · exact (drawn ho').1 ho
  · simp only [arguments, slots, List.mem_append, List.mem_map, reduceCtorEq, and_false,
      exists_false, false_or] at hx
    exact (hdrawn _ hx).1

/-- Blocks that nothing reaches take their names with them. -/
theorem defined_lowerFunction (env : Env) (f : Func) (strings : List String)
    (debugInfo : Ir.DebugInfo) :
    (lowerFunction env f strings debugInfo).function.defined.Sublist
      ((f.params.map fun param => (Origin.argument param.1).name) ++
        (draftOf env f strings debugInfo).flat.made) := by
  have params : (lowerFunction env f strings debugInfo).function.params.map Prod.fst =
    f.params.map fun param => (Origin.argument param.1).name := List.map_map
  rw [Ir.Function.defined, params, slots_lowerFunction]
  exact (((insts_lowerFunction env f strings debugInfo).flatMap _).append_left _).append_left _

/-- The passes define no other names. -/
theorem defined_passed (g : Ir.Function) : (passed g).defined = g.defined := by
  have replaced {r : Inst → Option Inst} (hr : Ir.Function.Keeps r) (g : Ir.Function) :
      (g.replace r).defined = g.defined := by
    have defines : (fun inst => (Ir.replaceInst r inst).defines) = Inst.defines :=
      funext fun inst => Ir.Function.defines_replaceInst hr inst
    rw [Ir.Function.defined, Ir.Function.defined, insts_replace, List.flatMap_map, defines]
    rfl
  rw [passed, replaced Ir.Function.keeps_ptrReplacement, replaced Ir.Function.keeps_sizeReplacement]

theorem nodup_defined {env : Env} {f : Func} {g : Ir.Function} (h : LoweredFrom env f g)
    (hparams : (f.params.map Prod.fst).Nodup) : g.defined.Nodup := by
  obtain ⟨strings, debugInfo, -, rfl⟩ := h
  obtain ⟨os, hos, hnodup, -⟩ := exists_origins env f strings debugInfo
  have names : (os.map Origin.name).Nodup :=
    (hnodup hparams).map fun _ _ => Origin.name_injective
  exact (hos.nodup_iff.2 names).sublist (defined_lowerFunction env f strings debugInfo)

/-- In a program that is lowered without an error, no name of a function is defined twice.  For
every function with different parameters, the names of its arguments and stack slots and the names
that instructions of its blocks define are pairwise different, whatever its parameters and locals
are called. -/
theorem names_are_defined_once {context : Context} {symbols : SymbolTable} {config : Config}
    {m : Ir.Module} (h : lowerProgram context symbols config = .ok m) :
    List.Forall₂ (fun f g => (f.params.map Prod.fst).Nodup → g.defined.Nodup)
      context.impls m.impls := by
  obtain ⟨env, gs, hlowered, himpls⟩ := lowerProgram_impls h
  rw [himpls, List.forall₂_map_right_iff]
  refine hlowered.imp fun f g hfg hparams => ?_
  rw [defined_passed]
  exact nodup_defined hfg hparams

namespace Sample

open Codegen.Sample

/-- Parameters and locals that are called like names that a walk makes up. -/
def clutter : Func where
  name := "clutter"
  params := [("x", i64), ("_0", i64), ("x.slot", i64)]
  returnType := i64
  body := some <| node <| .block
    [ node (.define "x" i64 (read "x" i64)),
      node (.define "_0" bool (node (.binary .cmpAnd bool
        (node (.binary .less bool (read "x" i64) (read "x.slot" i64)))
        (node (.binary .less bool (read "_0" i64) (number "7")))))),
      node (.define "arr.0" i64.pointer
        (node (.array 2 { i64.pointer with isArray := true } [number "1", read "x" i64]))),
      node (.block
        [ node (.define "x" i64 (read "x" i64)),
          node (.define "_0.r" bool (read "_0" bool)) ]),
      node (.define "x.slot" i64 (read "x" i64)),
      node (.ret (some (read "x.slot" i64)) false) ]

end Sample

theorem clutter_names_are_defined_once :
    (Sample.clutter.params.map Prod.fst).Nodup ∧
      ∃ m, lowerProgram { impls := [Sample.clutter] } {} {} = .ok m ∧
        m.impls.map (·.defined.length) = [30] ∧ ∀ g ∈ m.impls, g.defined.Nodup := by
  have params : (Sample.clutter.params.map Prod.fst).Nodup := by decide
  have sizes : (lowerProgram { impls := [Sample.clutter] } {} {}).toOption.map
      (fun m => m.impls.map (·.defined.length)) = some [30] := by decide +kernel
  cases h : lowerProgram { impls := [Sample.clutter] } {} {} with
  | error e =>
    rw [h] at sizes
    cases sizes
  | ok m =>
    rw [h] at sizes
    refine ⟨params, m, rfl, Option.some.inj sizes, ?_⟩
    have once := names_are_defined_once h
    cases hm : m.impls with
    | nil => exact List.forall_mem_nil _
    | cons g gs =>
      rw [hm] at once
      obtain ⟨hg, hgs⟩ := List.forall₂_cons.1 once
      cases hgs
      exact List.forall_mem_singleton.2 (hg params)

end Codegen.Lowering
