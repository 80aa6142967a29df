import Codegen.Proofs.Initializers
import Codegen.Proofs.Instructions
import Codegen.Proofs.Nesting
import Codegen.Proofs.Strings.Constant
import Codegen.Proofs.TwoRuns.Independence

/-!
# String constants stand for literals

The walk over a string literal adds its constant if it is new and emits one use of it.  As constants
are only ever added, the use stands for the literal in every later table too, whatever functions
share the constants of the module (`denotes_walked_string`).  A step of the walk that is built from
basic ones neither uses nor adds a constant (`Mute`).  So all uses in a function stand for string
literals of its body, in order (`Spells`).
-/

namespace Codegen.Ir

/-- The number and the length of the string constant that an instruction uses. -/
def Inst.constant? : Inst → Option (Nat × Nat)
  | .str _ index length => some (index, length)
  | _ => none

/-- The uses of string constants in a function, in order. -/
def Function.constants (f : Function) : List (Nat × Nat) := f.insts.filterMap Inst.constant?

theorem Inst.constant?_of_isPlain {inst : Inst} (h : inst.isPlain = true) :
    inst.constant? = none := by
  have unused := inst.string?_of_isPlain h
  cases inst with
  | str => cases unused
  | _ => rfl

/-- A use of a constant stands for a text: the text has the number among the constants, and the
length counts its bytes and a zero byte. -/
structure Denotes (strings : List String) (constant : Nat × Nat) (text : String) : Prop where
  found : strings[constant.1]? = some text
  length : constant.2 = (Text.bytes text).length + 1

theorem Denotes.mono {strings more : List String} {constant : Nat × Nat} {text : String}
    (h : Denotes strings constant text) (hm : strings <+: more) : Denotes more constant text where
  found := getElem?_of_isPrefix hm h.found
  length := h.length

/-- The constant that a text gets. -/
def useOf (strings : List String) (text : String) : Nat × Nat :=
  ((intern strings text).1, Text.byteLength text + 1)

theorem denotes_useOf (strings : List String) (text : String) :
    Denotes (intern strings text).2 (useOf strings text) text :=
  ⟨getElem?_intern strings text, congrArg (· + 1) (Text.byteLength_eq text)⟩

/-- No constant is there twice. -/
theorem nodup_intern {strings : List String} (h : strings.Nodup) (text : String) :
    (intern strings text).2.Nodup := by
  unfold intern
  split
  · exact h
  · rename_i missing
    refine List.nodup_append.2 ⟨h, List.pairwise_singleton _ _, fun s hs t ht => ?_⟩
    rw [List.mem_singleton.1 ht]
    rintro rfl
    exact List.idxOf?_eq_none_iff.1 missing hs

/-- Replacements of calls by what is no use of a constant leave the uses as they are. -/
theorem Function.constants_replace {r : Inst → Option Inst}
    (h : ∀ inst new, r inst = some new → inst.constant? = none ∧ new.constant? = none)
    (f : Function) : (f.replace r).constants = f.constants := by
  have each (inst : Inst) : (replaceInst r inst).constant? = inst.constant? := by
    rw [replaceInst]
    cases hr : r inst with
    | none => rfl
    | some new =>
      obtain ⟨old, replaced⟩ := h inst new hr
      exact replaced.trans old.symm
  rw [constants, Lowering.insts_replace, List.filterMap_map]
  exact List.filterMap_congr fun inst _ => each inst

end Codegen.Ir

namespace Codegen.Lowering

open Ir (Inst Value)

variable {α β : Type}

/-! ## Steps -/

/-- A step that neither uses nor adds a string constant. -/
structure Mute (step : Line α) : Prop where
  strings (n : Names) : (step n).names.strings = n.strings
  constants (n : Names) : (step n).insts.filterMap Inst.constant? = []

namespace Mute

theorem bind {x : Line α} {f : α → Line β} (hx : Mute x) (hf : ∀ a, Mute (f a)) :
    Mute (x >>= f) where
  strings n := ((hf _).strings _).trans (hx.strings n)
  constants n := by
    change List.filterMap _ (_ ++ _) = _
    rw [List.filterMap_append, hx.constants, (hf _).constants]
    rfl

theorem quiet {step : Line α} (h : Quiet step) : Mute step where
  strings := h.strings
  constants n := by rw [h.insts, List.filterMap_nil]

/-- A step with one instruction that uses no constant. -/
theorem of_inst {step : Line α} {inst : Names → Inst} (hi : ∀ n, (step n).insts = [inst n])
    (hs : ∀ n, (step n).names.strings = n.strings) (hc : ∀ n, (inst n).constant? = none) :
    Mute step where
  strings := hs
  constants n := by rw [hi, List.filterMap_cons_none (hc n), List.filterMap_nil]

theorem call (env : Env) (name type : String) (args : List (String × Value)) (dest : Value)
    (span : Span) :
    Mute (addLocation env span >>= fun location =>
      emit (.call name type dest args (env.variadic.get? name) location)) := by
  unfold addLocation
  cases env.record with
  | none => exact of_inst (fun _ => rfl) (fun _ => rfl) fun _ => rfl
  | some scope => exact of_inst (fun _ => rfl) (fun _ => rfl) fun _ => rfl

end Mute

/-- Only the step for a literal uses a constant. -/
def muting (env : Env) : StepProperty env Set.univ where
  Holds := Mute
  quiet := .quiet
  bind := .bind
  write _ ho := .of_inst (fun _ => rfl) (fun _ => rfl)
    fun _ => Inst.constant?_of_isPlain ho.isPlain
  computed _ ho := .of_inst (fun _ => rfl) (fun _ => rfl)
    fun _ => Inst.constant?_of_isPlain (ho _).isPlain
  hidden _ := .of_inst (fun _ => rfl) (fun _ => rfl) fun _ => rfl
  array _ _ _ := .of_inst (fun _ => rfl) (fun _ => rfl) fun _ => rfl
  define _ _ := ⟨fun _ => rfl, fun _ => rfl⟩
  call name _ _ _ span := .call env name _ _ _ span
  result name type args _ span := by
    refine .bind ⟨fun _ => rfl, fun _ => rfl⟩ fun x => ?_
    rw [← line_bind_assoc]
    exact (Mute.call env name type args _ span).bind fun _ => .quiet (.pure x)

theorem mute_spill (env : Env) (param : String × Ty) : Mute (spill env param) :=
  ⟨fun _ => rfl, fun _ => rfl⟩

/-- A step whose uses of constants stand for some of the given texts, in order; it only ever adds
constants, and none twice. -/
structure Spells (texts : List String) (step : Line α) : Prop where
  grows (n : Names) : n.strings <+: (step n).names.strings
  nodup (n : Names) : n.strings.Nodup → (step n).names.strings.Nodup
  denotes (n : Names) :
    List.SublistForall₂ (Ir.Denotes (step n).names.strings)
      ((step n).insts.filterMap Inst.constant?) texts

theorem Mute.spells {step : Line α} (h : Mute step) (texts : List String) : Spells texts step where
  grows n := ⟨[], by rw [List.append_nil, h.strings]⟩
  nodup n hn := by rwa [h.strings]
  denotes n := by
    rw [h.constants]
    exact .nil

namespace Spells

variable {texts others : List String}

theorem bind {x : Line α} {f : α → Line β} (hx : Spells texts x) (hf : ∀ a, Spells others (f a)) :
    Spells (texts ++ others) (x >>= f) where
  grows n := (hx.grows n).trans ((hf _).grows _)
  nodup n h := (hf _).nodup _ (hx.nodup n h)
  denotes n := by
    have later := hf (x n).value
    change List.SublistForall₂ _ (List.filterMap _ (_ ++ _)) _
    rw [List.filterMap_append]
    exact sublistForall₂_append
      (sublistForall₂_imp (fun _ _ h => h.mono (later.grows _)) (hx.denotes n)) (later.denotes _)

theorem pushString (literal : String) (type : Ty) :
    Spells [literal] (pushString literal type) where
  grows n := Ir.prefix_intern n.strings literal
  nodup _ h := Ir.nodup_intern h literal
  denotes n := .cons (Ir.denotes_useOf n.strings literal) .nil

end Spells

/-- Every walk spells literals of what it walks over. -/
def spelling (env : Env) : GradedProperty env Set.univ where
  Holds := Spells
  mono h hmore :=
    { h with denotes := fun n => sublistForall₂_of_sublist_right (h.denotes n) hmore }
  built h := Mute.spells ((muting env).built h) []
  bind := .bind
  string := .pushString
  rescope _ := Mute.spells ⟨fun _ => rfl, fun _ => rfl⟩ []

theorem spells_walkFunction (env : Env) (f : Func) :
    Spells (Node.literalsOf? f.body) ((walkFunction env f : Draft Unit).flat false) :=
  (spelling env).walkFunction (fun param => (mute_spill env param).spells []) fun x _ =>
    Set.mem_univ x

/-! ## Walks -/

/-- The uses of string constants in blocks, in order. -/
def Graph.constants (g : Graph) : List (Nat × Nat) := g.insts.filterMap Inst.constant?

/-- The walk over a string literal is the step for it: the stack needs no mending. -/
theorem walked_string (env : Env) (literal : String) (type : Ty) (span : Span) (s : State) :
    walked env (.mk (.string literal type) span) s =
      (Lower.line (pushString literal type) s).2 := by
  rw [walked, lowerNode, lowerKind]
  exact balanced_of_height rfl span

/-- The walk over a string literal emits one use of a constant, which stands for the literal in
every table of constants that comes later. -/
theorem denotes_walked_string (env : Env) (literal : String) (type : Ty) (span : Span)
    (s : State) :
    ∃ dest index length,
      (walked env (.mk (.string literal type) span) s).insts =
        s.insts ++ [.str dest index length] ∧
      ∀ later, (walked env (.mk (.string literal type) span) s).strings <+: later →
        Ir.Denotes later (index, length) literal := by
  rw [walked_string]
  exact ⟨_, _, _, insts_appendAll _ _, fun later => (Ir.denotes_useOf s.strings literal).mono⟩

/-- Parameters use no constant. -/
theorem mute_lowerParams (env : Env) (params : List (String × Ty)) :
    Mute (lowerParams env params) := by
  induction params with
  | nil => exact ⟨fun _ => rfl, fun _ => rfl⟩
  | cons param params ih =>
    rw [lowerParams_cons]
    exact (mute_spill env param).bind fun _ => ih

/-- The state before the walk over the body of a function. -/
def spilled (env : Env) (f : Func) (strings : List String) (debugInfo : Ir.DebugInfo) : State :=
  (Lower.line (lowerParams env f.params)
    (Lower.line pushScope ⟨{ strings, debugInfo }, {}, {}⟩).2).2

theorem constants_spilled (env : Env) (f : Func) (strings : List String)
    (debugInfo : Ir.DebugInfo) : (spilled env f strings debugInfo).constants = [] := by
  change List.filterMap _ (appendAll _ _).2.insts = []
  rw [insts_appendAll, List.filterMap_append]
  exact (mute_lowerParams env f.params).constants _

/-- The final state of the walk over a function, by the walk over its body. -/
theorem finalState_eq_spilled (env : Env) (f : Func) (strings : List String)
    (debugInfo : Ir.DebugInfo) :
    finalState env f strings debugInfo =
      let walk : Lower Unit := match f.body with
        | some body => lowerNode env body
        | none => Lower.line (fault f.span (.noBody f.name))
      let s := (walk (spilled env f strings debugInfo)).2
      ⟨s.toNames, (closeLast (fallback f) s.toGraph).2, s.notes⟩ := rfl

theorem finalState_of_body {f : Func} {body : Node} (h : f.body = some body) (env : Env)
    (strings : List String) (debugInfo : Ir.DebugInfo) :
    finalState env f strings debugInfo =
      let s := walked env body (spilled env f strings debugInfo)
      ⟨s.toNames, (closeLast (fallback f) s.toGraph).2, s.notes⟩ := by
  rw [finalState_eq_spilled, h]
  rfl

/-- A function without a fault has a body. -/
theorem exists_body {env : Env} {f : Func} {strings : List String} {debugInfo : Ir.DebugInfo}
    (h : (lowerFunction env f strings debugInfo).errors = []) : ∃ body, f.body = some body := by
  cases hbody : f.body with
  | some body => exact ⟨body, rfl⟩
  | none =>
    have faults : (finalState env f strings debugInfo).notes.faults =
        (spilled env f strings debugInfo).notes.faults ++ [(.noBody f.name, f.span)] := by
      rw [finalState_eq_spilled, hbody]
      rfl
    have none : (finalState env f strings debugInfo).notes.faults = [] := List.map_eq_nil_iff.1 h
    rw [faults] at none
    cases (List.append_eq_nil_iff.1 none).2

/-- The instructions of a function are among those of the walk over its body. -/
theorem insts_sublist_walked {f : Func} {body : Node} (h : f.body = some body) (env : Env)
    (strings : List String) (debugInfo : Ir.DebugInfo) :
    (lowerFunction env f strings debugInfo).function.insts.Sublist
      (walked env body (spilled env f strings debugInfo)).insts := by
  have closes := ((Composed.closeLast (fallback f)).keeps
    (walked env body (spilled env f strings debugInfo)).toGraph).insts
  have final : (finalState env f strings debugInfo).insts =
      (walked env body (spilled env f strings debugInfo)).insts := by
    rw [finalState_of_body h]
    exact closes
  rw [← final]
  refine (List.filter_sublist.flatMap _).trans ?_
  exact List.sublist_append_left _ _

/-! ## Functions and programs -/

theorem strings_lowerFunction (env : Env) (f : Func) (strings : List String)
    (debugInfo : Ir.DebugInfo) :
    (lowerFunction env f strings debugInfo).strings =
      (draftOf env f strings debugInfo).names.strings := by
  change (finalState env f strings debugInfo).strings = _
  rw [finalState_eq]

theorem nodup_lowerFunction (env : Env) (f : Func) {strings : List String} (h : strings.Nodup)
    (debugInfo : Ir.DebugInfo) : (lowerFunction env f strings debugInfo).strings.Nodup := by
  rw [strings_lowerFunction]
  exact (spells_walkFunction env f).nodup _ h

/-- Of the uses of constants in a function those that nothing reaches are left out. -/
theorem denotes_lowerFunction (env : Env) (f : Func) (strings : List String)
    (debugInfo : Ir.DebugInfo) :
    List.SublistForall₂ (Ir.Denotes (lowerFunction env f strings debugInfo).strings)
      (lowerFunction env f strings debugInfo).function.constants (Node.literalsOf? f.body) := by
  have drafted := (spells_walkFunction env f).denotes { strings, debugInfo }
  rw [strings_lowerFunction]
  exact sublistForall₂_of_sublist_left drafted
    ((insts_lowerFunction env f strings debugInfo).filterMap _)

theorem nodup_lowerFunctions (env : Func → Env) (fs : List Func) {m : Ir.Module}
    (h : m.strings.Nodup) : (lowerFunctions env fs m).1.strings.Nodup := by
  induction fs generalizing m with
  | nil => exact h
  | cons f fs ih => exact ih (nodup_lowerFunction (env f) f h m.debugInfo)

theorem nodup_buildModule (context : Context) (symbols : SymbolTable) (config : Config) :
    (buildModule context symbols config).1.strings.Nodup := by
  rw [buildModule_eq_lowerFunctions]
  exact nodup_lowerFunctions _ _ List.nodup_nil

theorem constants_passed (g : Ir.Function) : (passed g).constants = g.constants := by
  rw [passed, Ir.Function.constants_replace, Ir.Function.constants_replace]
  · intro inst new h
    obtain ⟨_, _, _, _, _, _, _, rfl, rfl⟩ := Ir.sizeReplacement?_eq_some h
    exact ⟨rfl, rfl⟩
  · intro inst new h
    obtain ⟨_, _, _, _, _, _, _, _, _, _, rfl, rfl, -, -, rfl⟩ := Ir.ptrReplacement?_eq_some h
    exact ⟨rfl, rfl⟩

/-- What holds of the constants of a function without a fault, by the constants of its module. -/
theorem denotes_part {env : Env} {f : Func} {strings table : List String}
    {debugInfo : Ir.DebugInfo} (ok : (lowerFunction env f strings debugInfo).errors = [])
    (stays : (lowerFunction env f strings debugInfo).strings <+: table) :
    ∃ body s, f.body = some body ∧ s.constants = [] ∧
      (lowerFunction env f strings debugInfo).function.constants.Sublist
        (walked env body s).constants ∧
      (walked env body s).strings <+: table ∧
      List.SublistForall₂ (Ir.Denotes table)
        (lowerFunction env f strings debugInfo).function.constants body.literals := by
  obtain ⟨body, hbody⟩ := exists_body ok
  have last : (lowerFunction env f strings debugInfo).strings =
      (walked env body (spilled env f strings debugInfo)).strings := by
    change (finalState env f strings debugInfo).strings = _
    rw [finalState_of_body hbody]
  have denotes := denotes_lowerFunction env f strings debugInfo
  rw [hbody] at denotes
  exact ⟨body, spilled env f strings debugInfo, hbody, constants_spilled env f strings debugInfo,
    (insts_sublist_walked hbody env strings debugInfo).filterMap _, last ▸ stays,
    sublistForall₂_imp (fun _ _ h => h.mono stays) denotes⟩

variable {context : Context} {symbols : SymbolTable} {config : Config} {m : Ir.Module}

/-- String constants stand for literals.  No constant of a lowered program is there twice.  From
whatever state, the walk over a string literal emits one use of a constant, with the number and the
length of the constant of the literal in every later table; no walk takes instructions or constants
back.  The uses of constants in a function are among those that the walk over its body emits, and
they stand for string literals of the body, in order, by the constants of the whole program.
Constants are printed under their numbers, and whatever its text is, a constant is printed as an
array of the UTF-8 bytes of the text and a zero byte. -/
theorem string_constants_denote_literals (h : lowerProgram context symbols config = .ok m) :
    m.strings.Nodup ∧
      (∀ env literal type span (s : State), ∃ dest index length,
        (walked env (.mk (.string literal type) span) s).insts =
          s.insts ++ [.str dest index length] ∧
        ∀ later, (walked env (.mk (.string literal type) span) s).strings <+: later →
          Ir.Denotes later (index, length) literal) ∧
      (∀ env node (s : State), s.insts <+: (walked env node s).insts ∧
        s.strings <+: (walked env node s).strings) ∧
      List.Forall₂ (fun f g => ∃ body s, f.body = some body ∧ s.constants = [] ∧
          g.constants.Sublist
            (walked (environments context symbols config f) body s).constants ∧
          (walked (environments context symbols config f) body s).strings <+: m.strings ∧
          List.SublistForall₂ (Ir.Denotes m.strings) g.constants body.literals)
        context.impls m.impls ∧
      (∀ index text, m.strings[index]? = some text →
        (Ir.stringTexts 0 m.strings)[index]? = some (Ir.stringText index text)) ∧
      ∀ index text, ∃ body,
        Ir.stringText index text =
          Text.line ("@.str." ++ Text.decimal index ++ " = private unnamed_addr constant [" ++
            Text.decimal ((Text.bytes text).length + 1) ++ " x i8] c\"" ++ body ++ "\"") ∧
        Text.constantBytes? body.toList = some (Text.bytes text ++ [0]) := by
  obtain ⟨hbuilt, hpassed, rfl⟩ := lowerProgram_ok h
  rw [runAll_standard_eq hpassed]
  obtain ⟨impls, errors, parts⟩ := buildModule_eq_lowerings context symbols config
  rw [hbuilt, eq_comm, List.append_eq_nil_iff, List.flatMap_eq_nil_iff] at errors
  refine ⟨nodup_buildModule context symbols config, denotes_walked_string, fun env node s => ?_, ?_,
    fun index text found => ?_, Ir.stringText_denotes⟩
  · have nests := lowerNode_nests env node s
    exact ⟨nests.insts, nests.names.strings⟩
  · have clean := ((List.forall₂_and_left _ _).2 ⟨errors.2, parts.flip⟩).flip
    change List.Forall₂ _ context.impls (List.map passed _)
    rw [impls, List.map_map, List.forall₂_map_right_iff]
    refine clean.imp fun f l ⟨ok, part⟩ => ?_
    obtain ⟨⟨strings, debugInfo, rfl⟩, stays⟩ := part
    rw [Function.comp_apply, constants_passed]
    exact denotes_part ok stays
  · rw [Ir.getElem?_stringTexts found 0, Nat.zero_add]

namespace Sample

open Codegen.Sample

/-- Says a text with a quote, a line break and a character of two bytes. -/
def toast : Func where
  name := "toast"
  returnType := .void
  body := some <| node <| .block [say "\"à\n", say "bye"]

/-- Says the same things the other way around. -/
def echo : Func where
  name := "echo"
  returnType := .void
  body := some <| node <| .block [say "bye", say "\"à\n"]

def toasting : Context where
  decls := [printf]
  impls := [toast, echo]

end Sample

/-- Two functions use the same constants, and one of these is printed with escapes. -/
theorem toasts_denote_literals :
    ∃ m, lowerProgram Sample.toasting Sample.printing {} = .ok m ∧
      m.strings = ["\"à\n", "bye"] ∧
      m.impls.map Ir.Function.constants = [[(0, 5), (1, 4)], [(1, 4), (0, 5)]] ∧
      m.strings.Nodup ∧
      (∃ dest index length,
        (walked Sample.env (.mk (.string "bye" .constStr) {}) { strings := ["\"à\n"] }).insts =
          [.str dest index length] ∧ Ir.Denotes m.strings (index, length) "bye") ∧
      List.Forall₂ (fun f g => ∃ body s, f.body = some body ∧ s.constants = [] ∧
          g.constants.Sublist
            (walked (environments Sample.toasting Sample.printing {} f) body s).constants ∧
          (walked (environments Sample.toasting Sample.printing {} f) body s).strings <+:
            m.strings ∧
          List.SublistForall₂ (Ir.Denotes m.strings) g.constants body.literals)
        [Sample.toast, Sample.echo] m.impls ∧
      (Ir.stringTexts 0 m.strings)[0]? = some (Ir.stringText 0 "\"à\n") ∧
      ∃ body,
        Ir.stringText 0 "\"à\n" =
          Text.line ("@.str." ++ Text.decimal 0 ++ " = private unnamed_addr constant [" ++
            Text.decimal 5 ++ " x i8] c\"" ++ body ++ "\"") ∧
        Text.constantBytes? body.toList = some [0x22, 0xc3, 0xa0, 0x0a, 0] := by
  have uses : (lowerProgram Sample.toasting Sample.printing {}).toOption.map (fun m =>
      decide (m.strings = ["\"à\n", "bye"] ∧
        m.impls.map Ir.Function.constants = [[(0, 5), (1, 4)], [(1, 4), (0, 5)]])) =
          some true := by
    decide +kernel
  cases h : lowerProgram Sample.toasting Sample.printing {} with
  | error e =>
    rw [h] at uses
    cases uses
  | ok m =>
    rw [h] at uses
    obtain ⟨hstrings, huses⟩ := of_decide_eq_true (Option.some.inj uses)
    obtain ⟨nodup, emitted, -, spelled, printed, denoted⟩ := string_constants_denote_literals h
    have first : m.strings[0]? = some "\"à\n" := by
      rw [hstrings]
      rfl
    have bytes : Text.bytes "\"à\n" = [0x22, 0xc3, 0xa0, 0x0a] := by decide +kernel
    obtain ⟨dest, index, length, insts, denotes⟩ :=
      emitted Sample.env "bye" .constStr {} { strings := ["\"à\n"] }
    have table : (walked Sample.env (.mk (.string "bye" .constStr) {})
        { strings := ["\"à\n"] }).strings = ["\"à\n", "bye"] := by decide +kernel
    obtain ⟨body, text, read⟩ := denoted 0 "\"à\n"
    rw [bytes] at text read
    exact ⟨m, rfl, hstrings, huses, nodup,
      ⟨dest, index, length, insts, denotes _ (hstrings ▸ table ▸ List.prefix_rfl)⟩, spelled,
      printed 0 _ first, body, text, read⟩

end Codegen.Lowering
