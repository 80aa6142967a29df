import Codegen.Proofs.CallOrder
import Codegen.Proofs.Emitted
import Codegen.Proofs.Instructions
import Codegen.Proofs.Records
import Mathlib.Data.List.Nodup
import Mathlib.Data.List.Range
import Mathlib.Data.Option.Basic

/-!
# Debug records of calls

While a body is walked, every call gets a record of its own, which names the record of the function
as its scope (`Located`).  These records extend those of the module (`Extends`), so the records stay
closed: `debug_records_are_closed`.
-/

namespace Codegen.Ir

/-- The debug records of the calls of a function, in the order of its instructions. -/
def Function.locations (f : Function) : List (Option Nat) := f.insts.filterMap Inst.location?

end Codegen.Ir

namespace Codegen.Lowering

open Ir (DebugInfo Entry Record Inst Value)

variable {α β : Type}

/-- The records behind `info` are the places `new`, whose scopes are among `scopes`. -/
structure Extends (scopes : Set Nat) (info info' : DebugInfo) (new : List Record) : Prop where
  named : info'.named = info.named
  records : info'.records = info.records ++ new
  next : info'.next = info.next + new.length
  indices : new.map Record.index = List.range' info.next new.length
  entries : ∀ r ∈ new, ∃ line column, ∃ scope ∈ scopes, r.entry = .location line column scope

namespace Extends

variable {scopes scopes' : Set Nat} {info info' info'' : DebugInfo} {new new' : List Record}

theorem refl (scopes : Set Nat) (info : DebugInfo) : Extends scopes info info [] :=
  ⟨rfl, (List.append_nil _).symm, rfl, rfl, List.forall_mem_nil _⟩

theorem trans (h : Extends scopes info info' new) (h' : Extends scopes info' info'' new') :
    Extends scopes info info'' (new ++ new') where
  named := h'.named.trans h.named
  records := by rw [h'.records, h.records, List.append_assoc]
  next := by rw [h'.next, h.next, List.length_append, Nat.add_assoc]
  indices := by
    rw [List.map_append, h.indices, h'.indices, h.next, List.length_append, List.range'_append_1]
  entries r hr := (List.mem_append.1 hr).elim (h.entries r) (h'.entries r)

theorem mono (h : Extends scopes info info' new) (hs : scopes ⊆ scopes') :
    Extends scopes' info info' new where
  named := h.named
  records := h.records
  next := h.next
  indices := h.indices
  entries r hr := by
    obtain ⟨line, column, scope, hm, he⟩ := h.entries r hr
    exact ⟨line, column, scope, hs hm, he⟩

theorem add (info : DebugInfo) (line column scope : Nat) :
    Extends {scope} info (info.add (.location line column scope))
      [⟨info.next, .location line column scope⟩] where
  named := rfl
  records := rfl
  next := rfl
  indices := rfl
  entries r hr := by
    obtain rfl := List.mem_singleton.1 hr
    exact ⟨line, column, scope, rfl, rfl⟩

/-- Places whose scopes are functions keep the records closed. -/
theorem recorded {units : Nat} (h : Extends scopes info info' new)
    (hi : Recorded { units := units } info)
    (hs : ∀ scope ∈ scopes, ∃ name source line typeIndex unit,
      Lists info.records scope (.subprogram name source line typeIndex unit)) :
    Recorded { units := units } info' := by
  have sub : info.records ⊆ info'.records := by
    rw [h.records]
    exact List.subset_append_left _ _
  have numbers : List.range info'.next = List.range info.next ++ new.map Record.index := by
    rw [h.indices, h.next, List.range_eq_range', List.range_eq_range',
      ← List.range'_append_1, Nat.zero_add]
  refine ⟨?_, fun n hn i hm => ?_, fun r hr => ?_, ?_⟩
  · rw [numbers, h.records, List.map_append, List.append_nil]
    have old := hi.numbered
    rw [List.append_nil] at old
    exact old.append_right _
  · rw [h.named] at hn
    exact (hi.named n hn i hm).imp fun _ hr => sub hr
  · rw [h.records] at hr
    rcases List.mem_append.1 hr with hr | hr
    · exact refers_mono sub (hi.refers r hr)
    · obtain ⟨line, column, scope, hm, he⟩ := h.entries r hr
      obtain ⟨name, source, line, typeIndex, unit, hr⟩ := hs scope hm
      rw [he]
      exact ⟨name, source, line, typeIndex, unit, sub hr⟩
  · rw [h.records, List.countP_append, hi.units, List.countP_eq_zero.2, Nat.add_zero]
    intro r hr
    obtain ⟨line, column, scope, -, he⟩ := h.entries r hr
    rw [he]
    exact Bool.false_ne_true

end Extends

/-! ## Steps -/

/-- A step records the place of each of its calls, in order, and nothing else. -/
def Located (scope : Nat) (step : Line α) : Prop :=
  ∀ n, ∃ new, Extends {scope} n.debugInfo (step n).names.debugInfo new ∧
    (step n).insts.filterMap Inst.location? = new.map fun r => some r.index

namespace Located

variable {scope : Nat}

theorem bind {x : Line α} {f : α → Line β} (hx : Located scope x)
    (hf : ∀ a, Located scope (f a)) : Located scope (x >>= f) := by
  intro n
  obtain ⟨new, hnew, hcalls⟩ := hx n
  obtain ⟨new', hnew', hcalls'⟩ := hf (x n).value (x n).names
  refine ⟨new ++ new', hnew.trans hnew', ?_⟩
  change List.filterMap _ (_ ++ _) = _
  rw [List.filterMap_append, hcalls, hcalls', List.map_append]

/-- A step without a call. -/
theorem of_no_call {step : Line α} (hd : ∀ n : Names, (step n).names.debugInfo = n.debugInfo)
    (hi : ∀ n, ∀ inst ∈ (step n).insts, inst.location? = none) : Located scope step := by
  intro n
  refine ⟨[], ?_, List.filterMap_eq_nil_iff.2 (hi n)⟩
  rw [hd]
  exact .refl _ _

/-- A call is emitted with the place that was recorded for it. -/
theorem call {env : Env} (henv : env.record = some scope) (span : Span)
    (inst : Option Nat → Inst) (hl : ∀ location, (inst location).location? = some location) :
    Located scope (addLocation env span >>= fun location => emit (inst location)) := by
  intro n
  refine ⟨[⟨n.debugInfo.next, .location span.line span.column scope⟩], ?_, ?_⟩
  · unfold addLocation
    rw [henv]
    exact .add _ _ _ _
  · unfold addLocation
    rw [henv]
    change List.filterMap _ [inst (some n.debugInfo.next)] = _
    rw [List.filterMap_cons, hl]
    rfl

end Located

/-- Every step of a walk records the places of its calls. -/
def locating {env : Env} {scope : Nat} (henv : env.record = some scope) :
    LineProperty env Set.univ where
  Holds := Located scope
  quiet h := .of_no_call h.debugInfo fun n inst hi => by
    rw [h.insts n] at hi
    cases hi
  bind := .bind
  write _ ho := .of_no_call (fun _ => rfl) fun _ =>
    List.forall_mem_singleton.2 (Inst.location?_of_isPlain ho.isPlain)
  computed _ ho := .of_no_call (fun _ => rfl) fun _ =>
    List.forall_mem_singleton.2 (Inst.location?_of_isPlain (ho _).isPlain)
  string _ _ := .of_no_call (fun _ => rfl) fun _ => List.forall_mem_singleton.2 rfl
  rescope _ := .of_no_call (fun _ => rfl) fun _ => List.forall_mem_nil _
  hidden _ := .of_no_call (fun _ => rfl) fun _ => List.forall_mem_singleton.2 rfl
  array _ _ _ := .of_no_call (fun _ => rfl) fun _ => List.forall_mem_singleton.2 rfl
  define _ _ := .of_no_call (fun _ => rfl) fun _ => List.forall_mem_nil _
  call name _ _ _ span := .call henv span _ fun _ => rfl
  result name type args _ span := by
    refine .bind (.of_no_call (fun _ => rfl) fun _ => List.forall_mem_nil _) fun x => ?_
    have emitted : Located scope (addLocation env span >>= fun location =>
      emit (.call name type (.var x) args (env.variadic.get? name) location)) :=
        .call henv span _ fun _ => rfl
    rw [← line_bind_assoc]
    exact emitted.bind fun _ => .of_no_call (fun _ => rfl) fun _ => List.forall_mem_nil _

theorem located_spill {env : Env} {scope : Nat} (param : String × Ty) :
    Located scope (spill env param) :=
  .of_no_call (fun _ => rfl) fun _ => List.forall_mem_singleton.2 rfl

/-! ## Functions -/

/-- A function records the places of its calls; those that nothing reaches are lost later. -/
theorem located_lowerFunction {env : Env} {scope : Nat} (henv : env.record = some scope) (f : Func)
    (strings : List String) (debugInfo : DebugInfo) :
    let lowered := lowerFunction env f strings debugInfo
    ∃ new, Extends {scope} debugInfo lowered.debugInfo new ∧
      lowered.function.locations.Sublist (new.map fun r => some r.index) := by
  have walk : Located scope ((walkFunction env f : Draft Unit).flat false) :=
    (locating henv).walkFunction located_spill fun x _ => Set.mem_univ x
  obtain ⟨new, hnew, hcalls⟩ := walk { strings, debugInfo }
  refine ⟨new, ?_, ?_⟩
  · change Extends {scope} debugInfo (finalState env f strings debugInfo).debugInfo new
    rw [finalState_eq]
    exact hnew
  · rw [← hcalls]
    exact (insts_lowerFunction env f strings debugInfo).filterMap _

/-- What functions are lowered to: each has the name and the record of its own, and the records of
its calls are among the places `new` that name this record as their scope. -/
def CallsListed (env : Func → Env) (new : List Record) (f : Func) (g : Ir.Function) : Prop :=
  g.name = f.name ∧ g.record = (env f).record ∧
    ∀ l ∈ g.locations, ∃ i line column scope, l = some i ∧ (env f).record = some scope ∧
      Lists new i (.location line column scope)

theorem CallsListed.mono {env : Func → Env} {new new' : List Record} {f : Func} {g : Ir.Function}
    (h : CallsListed env new f g) (hsub : new ⊆ new') : CallsListed env new' f g := by
  refine ⟨h.1, h.2.1, fun l hl => ?_⟩
  obtain ⟨i, line, column, scope, rfl, hs, hr⟩ := h.2.2 l hl
  exact ⟨i, line, column, scope, rfl, hs, hsub hr⟩

theorem callsListed_lowerFunction {env : Func → Env} {f : Func} {scope : Nat}
    (henv : (env f).record = some scope) {strings : List String} {debugInfo : DebugInfo}
    {new : List Record}
    (hnew : Extends {scope} debugInfo (lowerFunction (env f) f strings debugInfo).debugInfo new)
    (hcalls : (lowerFunction (env f) f strings debugInfo).function.locations.Sublist
      (new.map fun r => some r.index)) :
    CallsListed env new f (lowerFunction (env f) f strings debugInfo).function := by
  refine ⟨rfl, rfl, fun l hl => ?_⟩
  obtain ⟨⟨i, entry⟩, hr, rfl⟩ := List.mem_map.1 (hcalls.subset hl)
  obtain ⟨line, column, s, hs, he⟩ := hnew.entries _ hr
  obtain rfl : entry = _ := he
  have hs : s = scope := hs
  exact ⟨i, line, column, s, rfl, hs ▸ henv, hr⟩

/-- Functions one after the other record the places of all their calls. -/
theorem located_lowerFunctions {env : Func → Env} {fs : List Func}
    (henv : ∀ f ∈ fs, ∃ scope, (env f).record = some scope) (m : Ir.Module) :
    ∃ gs new, (lowerFunctions env fs m).1.impls = m.impls ++ gs ∧
      Extends {scope | ∃ f ∈ fs, (env f).record = some scope} m.debugInfo
        (lowerFunctions env fs m).1.debugInfo new ∧
      (gs.flatMap Ir.Function.locations).Sublist (new.map fun r => some r.index) ∧
      List.Forall₂ (CallsListed env new) fs gs := by
  induction fs generalizing m with
  | nil => exact ⟨[], [], (List.append_nil _).symm, .refl _ _, .slnil, .nil⟩
  | cons f fs ih =>
    obtain ⟨⟨scope, hscope⟩, hrest⟩ := List.forall_mem_cons.1 henv
    let lowered := lowerFunction (env f) f m.strings m.debugInfo
    obtain ⟨new, hnew, hcalls⟩ := located_lowerFunction hscope f m.strings m.debugInfo
    obtain ⟨gs, new', himpls, hnew', hcalls', hlisted⟩ := ih hrest
      { m with
        impls := m.impls ++ [lowered.function], strings := lowered.strings,
        debugInfo := lowered.debugInfo }
    refine ⟨lowered.function :: gs, new ++ new', himpls.trans (List.append_assoc ..), ?_, ?_, ?_⟩
    · refine (hnew.mono ?_).trans (hnew'.mono ?_)
      · rintro _ rfl
        exact ⟨f, List.mem_cons_self, hscope⟩
      · rintro s ⟨g, hg, hs⟩
        exact ⟨g, List.mem_cons_of_mem _ hg, hs⟩
    · rw [List.flatMap_cons, List.map_append]
      exact hcalls.append hcalls'
    · refine .cons ?_ (hlisted.imp fun _ _ h => h.mono (List.subset_append_right _ _))
      exact (callsListed_lowerFunction hscope hnew hcalls).mono (List.subset_append_left _ _)

/-! ## Modules -/

/-- Passes replace calls only by instructions that call nothing. -/
theorem locations_passed (g : Ir.Function) : (passed g).locations.Sublist g.locations := by
  have replaced {r : Inst → Option Inst} (hr : ∀ inst inst', r inst = some inst' →
      inst'.location? = none) (g : Ir.Function) :
      (g.replace r).locations.Sublist g.locations := by
    rw [Ir.Function.locations, Ir.Function.locations, insts_replace]
    induction g.insts with
    | nil => exact .slnil
    | cons inst insts ih =>
      rw [List.map_cons]
      cases h : r inst with
      | none =>
        have same : Ir.replaceInst r inst = inst := by rw [Ir.replaceInst, h]; rfl
        rw [same, List.filterMap_cons, List.filterMap_cons]
        cases inst.location? with
        | none => exact ih
        | some l => exact ih.cons_cons l
      | some inst' =>
        have other : (Ir.replaceInst r inst).location? = none := by
          rw [Ir.replaceInst, h]
          exact hr inst inst' h
        rw [List.filterMap_cons_none other]
        exact ih.trans ((List.sublist_cons_self inst insts).filterMap _)
  refine (replaced ?_ _).trans (replaced ?_ g)
  · intro inst inst' h
    obtain ⟨_, _, _, _, _, _, _, _, _, _, -, -, -, -, rfl⟩ := Ir.ptrReplacement?_eq_some h
    rfl
  · intro inst inst' h
    obtain ⟨_, _, _, _, _, _, _, -, rfl⟩ := Ir.sizeReplacement?_eq_some h
    rfl

theorem debugInfo_runAll (passes : List Ir.Pass) (m : Ir.Module) :
    (Ir.Pass.runAll passes m).1.debugInfo = m.debugInfo := by
  have one (pass : Ir.Pass) (m : Ir.Module) : (pass.run m).module.debugInfo = m.debugInfo := by
    cases pass <;> rfl
  induction passes generalizing m with
  | nil => rfl
  | cons pass passes ih =>
    rw [Ir.Pass.runAll]
    split
    · rw [ih, one]
    · exact one pass m

/-- The records of a module before its functions are lowered, with those of the functions. -/
theorem recorded_emptyModule (context : Context) (symbols : SymbolTable) (config : Config) :
    let m := emptyModule context symbols config
    Recorded { units := 1 } m.debugInfo ∧
      ∀ f ∈ context.impls, ∃ i source line typeIndex unit,
        (environments context symbols config f).record = some i ∧
          Lists m.debugInfo.records i (.subprogram f.name source line typeIndex unit) := by
  obtain ⟨hr, -, hf⟩ :=
    adds_recordModule context symbols config {} .start (List.Subset.refl _)
  simp only [record_environments, debugInfo_emptyModule]
  exact ⟨hr, hf⟩

/-- A lowered function can be traced in the debug records: it has the record of a function with its
name, and its calls have the records of places in that function.  `Has` says which entry a number
leads to. -/
structure Traceable (Has : Nat → Entry → Prop) (f : Func) (g : Ir.Function) : Prop where
  name : g.name = f.name
  record : ∃ scope source line typeIndex unit, g.record = some scope ∧
    Has scope (.subprogram g.name source line typeIndex unit)
  locations : ∀ l ∈ g.locations, ∃ i line column scope, l = some i ∧ g.record = some scope ∧
    Has i (.location line column scope)

theorem Traceable.passed {Has Has' : Nat → Entry → Prop} {f : Func} {g : Ir.Function}
    (h : Traceable Has f g) (hHas : ∀ i entry, Has i entry → Has' i entry) :
    Traceable Has' f (passed g) where
  name := h.name
  record := by
    obtain ⟨scope, source, line, typeIndex, unit, hs, hr⟩ := h.record
    exact ⟨scope, source, line, typeIndex, unit, hs, hHas _ _ hr⟩
  locations l hl := by
    obtain ⟨i, line, column, scope, hi, hs, hr⟩ := h.locations l ((locations_passed g).subset hl)
    exact ⟨i, line, column, scope, hi, hs, hHas _ _ hr⟩

/-- The records of a module before the passes. -/
theorem recorded_buildModule (context : Context) (symbols : SymbolTable) (config : Config) :
    let m := (buildModule context symbols config).1
    Recorded { units := 1 } m.debugInfo ∧
      List.Forall₂ (Traceable (Lists m.debugInfo.records)) context.impls m.impls ∧
      (m.impls.flatMap Ir.Function.locations).Nodup := by
  obtain ⟨hrecorded, hfunctions⟩ := recorded_emptyModule context symbols config
  have henv : ∀ f ∈ context.impls, ∃ scope,
      (environments context symbols config f).record = some scope :=
    fun f hf => (hfunctions f hf).imp fun _ ⟨_, _, _, _, hi, _⟩ => hi
  obtain ⟨gs, new, himpls, hnew, hcalls, hlisted⟩ :=
    located_lowerFunctions henv (emptyModule context symbols config)
  have fresh : (emptyModule context symbols config).impls = [] := rfl
  rw [fresh, List.nil_append] at himpls
  rw [buildModule_eq_lowerFunctions]
  dsimp only
  rw [himpls]
  have sub : new ⊆ _ := hnew.records ▸ List.subset_append_right _ new
  have sub₀ := hnew.records ▸ List.subset_append_left _ new
  refine ⟨hnew.recorded hrecorded fun scope hs => ?_, ?_, ?_⟩
  · obtain ⟨f, hf, hscope⟩ := hs
    obtain ⟨i, source, line, typeIndex, unit, hi, hr⟩ := hfunctions f hf
    obtain rfl := Option.some.inj (hi.symm.trans hscope)
    exact ⟨f.name, source, line, typeIndex, unit, hr⟩
  · refine ((List.forall₂_and_left _ _).2 ⟨hfunctions, hlisted⟩).imp fun f g hfg => ?_
    obtain ⟨⟨i, source, line, typeIndex, unit, hi, hr⟩, hname, hrecord, hlocations⟩ := hfg
    refine ⟨hname, ⟨i, source, line, typeIndex, unit, hrecord.trans hi, ?_⟩, fun l hl => ?_⟩
    · rw [hname]
      exact sub₀ hr
    · obtain ⟨j, line, column, scope, hj, hscope, hr⟩ := hlocations l hl
      exact ⟨j, line, column, scope, hj, hrecord.trans hscope, sub hr⟩
  · have indices : (new.map Record.index).Nodup := by
      rw [hnew.indices]
      exact List.nodup_range'
    have locations := indices.map fun _ _ => Option.some.inj
    rw [List.map_map] at locations
    exact locations.sublist hcalls

/-- The debug records of a program that is lowered without an error are closed: records have the
numbers up to the first one that is not taken, each once, and all numbers that named entries and
records mention lead to records of the right kind.  Every function has the record of a function with
its name, and every call the record of a place whose scope is that record; no two calls of the
module share one. -/
theorem debug_records_are_closed {context : Context} {symbols : SymbolTable} {config : Config}
    {m : Ir.Module} (h : lowerProgram context symbols config = .ok m) :
    m.debugInfo.Closed ∧
      List.Forall₂ (Traceable fun i entry => m.debugInfo.entry? i = some entry)
        context.impls m.impls ∧
      (m.impls.flatMap Ir.Function.locations).Nodup := by
  obtain ⟨-, hpassed, rfl⟩ := lowerProgram_ok h
  obtain ⟨recorded, traceable, distinct⟩ := recorded_buildModule context symbols config
  have closed := recorded.closed
  rw [runAll_standard hpassed, debugInfo_runAll]
  refine ⟨closed, ?_, ?_⟩
  · rw [List.forall₂_map_right_iff]
    exact traceable.imp fun f g hfg => hfg.passed fun _ _ hr =>
      DebugInfo.entry?_of_mem (closed.numbered.nodup_iff.2 List.nodup_range) hr
  · rw [List.flatMap_map]
    exact distinct.sublist (List.Sublist.flatMap_right _ fun g _ => locations_passed g)

namespace Sample

open Codegen.Sample

/-- Two functions with the same calls. -/
def twice : Context where
  structs := [{ name := "point", path := "m", parts := [i64, i64] }]
  impls := [drain, { drain with name := "drain_again" }]

/-- An enum, whose record stands behind those of its members. -/
def colors : SymbolTable :=
  symbols.addEnum "m" { name := "color", members := [("red", 0), ("green", 1)] }

end Sample

theorem twice_debug_records_are_closed :
    ∃ m, lowerProgram Sample.twice Sample.colors {} = .ok m ∧ m.debugInfo.next = 40 ∧
      m.impls.map Ir.Function.record = [some 26, some 29] ∧
      m.impls.flatMap Ir.Function.locations = (List.range' 30 10).map some ∧
      m.debugInfo.Closed ∧
      List.Forall₂ (Traceable fun i entry => m.debugInfo.entry? i = some entry)
        Sample.twice.impls m.impls ∧
      (m.impls.flatMap Ir.Function.locations).Nodup := by
  have numbers : (lowerProgram Sample.twice Sample.colors {}).toOption.map
      (fun m => (m.debugInfo.next, m.impls.map Ir.Function.record,
        m.impls.flatMap Ir.Function.locations)) =
      some (40, [some 26, some 29], (List.range' 30 10).map some) := by decide +kernel
  cases h : lowerProgram Sample.twice Sample.colors {} with
  | error e =>
    rw [h] at numbers
    cases numbers
  | ok m =>
    rw [h] at numbers
    obtain ⟨hnext, hrecords, hlocations⟩ := by simpa using Option.some.inj numbers
    exact ⟨m, rfl, hnext, hrecords, hlocations, debug_records_are_closed h⟩

end Codegen.Lowering
