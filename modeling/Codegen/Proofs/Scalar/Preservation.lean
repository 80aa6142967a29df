import Codegen.Proofs.CallOrder
import Codegen.Proofs.Scalar.Statements
import Codegen.Proofs.WriteOnce

/-!
# Scalar functions keep their meaning

A function of the scalar fragment that is lowered without an error gives what its tree gives: for
all arguments for which the evaluation of the tree ends, the blocks end with the same result.
-/

namespace Codegen.Lowering

open Ir (Frame Slot Inst scalarMachine)

/-! ## Parameters -/

theorem notes_lowerParams (env : Env) (name : String) (type : Ty) (params : List (String × Ty))
    (n : Names) :
    (lowerParams env ((name, type) :: params) n).notes =
      { slots := [⟨(Cell.param name).slot, env.map type⟩] } ++
        (lowerParams env params (bindLocal name (Cell.param name).slot n).names).notes :=
  rfl

theorem tracks_lowerParams (env : Env) {slots : List Slot} (params : List (String × Ty))
    {Γ : Scope} {n : Names} (ht : Tracks slots Γ n)
    (hl : (lowerParams env params n).notes.Listed slots) :
    Tracks slots (Scope.withParams params Γ) (lowerParams env params n).names := by
  induction params generalizing Γ n with
  | nil => exact ht
  | cons param params ih =>
    obtain ⟨name, type⟩ := param
    rw [notes_lowerParams] at hl
    obtain ⟨hslot, hrest⟩ := hl.append
    exact ih (ht.bound ⟨_, hslot.slots _ List.mem_cons_self, rfl⟩) hrest

/-- The stack slots of the parameters get the arguments. -/
theorem line_lowerParams (env : Env) {slots : List Slot} (params : List (String × Ty))
    {args : List Datum} {σ σ' : Store} {n : Names} {fr : Frame} (hm : Mirrors slots σ fr)
    (hl : (lowerParams env params n).notes.Listed slots)
    (hargs : ∀ pair ∈ params.zip args,
      fr.names (Origin.argument pair.1.1).name = some (.datum pair.2))
    (hσ : Store.withArgs params args σ = some σ') :
    ∃ fr', scalarMachine.line (lowerParams env params n).insts (some fr) = some fr' ∧
      Mirrors slots σ' fr' := by
  induction params generalizing args σ n fr with
  | nil =>
    cases args with
    | nil =>
      cases hσ
      exact ⟨fr, rfl, hm⟩
    | cons d args => cases hσ
  | cons param params ih =>
    obtain ⟨name, type⟩ := param
    cases args with
    | nil => cases hσ
    | cons d args =>
      rw [Store.withArgs] at hσ
      split at hσ
      · next htype =>
        obtain ⟨s, hs, hhas⟩ := (Option.any_eq_true _ _).1 htype
        obtain rfl := Scalar.of?_eq_some hs
        rw [notes_lowerParams] at hl
        obtain ⟨hslot, hrest⟩ := hl.append
        have address : fr.address? (.var (Cell.param name).slot) = some (Cell.param name).slot :=
          hm.address? (hslot.slots _ List.mem_cons_self) (.cell (.param name))
        have argument := hargs ((name, s.ty), d) List.mem_cons_self
        have given : fr.read s.printed (.var (Origin.argument name).name) = some d := by
          simp [Frame.read, argument, s.hasType_printed, hhas]
        obtain ⟨fr', hline, hm'⟩ := ih (hm.put (.param name) d) hrest
          (fun pair hp => hargs pair (List.mem_cons_of_mem _ hp)) hσ
        refine ⟨fr', Eq.trans ?_ hline, hm'⟩
        have stored := Frame.step_store given address
        rw [← env.map_ty s] at stored
        exact line_cons stored
      · cases hσ

/-! ## The first frame -/

theorem length_of_withArgs {params : List (String × Ty)} {args : List Datum} {σ σ' : Store}
    (h : Store.withArgs params args σ = some σ') : params.length = args.length := by
  fun_induction Store.withArgs params args σ with
  | case1 => rfl
  | case2 name type params d args σ _ ih => exact congrArg Nat.succ (ih h)
  | case3 => cases h
  | case4 => cases h

theorem lookup_of_mem {pairs : List (String × Datum)} (hn : (pairs.map Prod.fst).Nodup)
    {pair : String × Datum} (hp : pair ∈ pairs) : pairs.lookup pair.1 = some pair.2 := by
  obtain ⟨before, after, rfl⟩ := List.append_of_mem hp
  refine List.lookup_eq_some_iff.2 ⟨before, after, rfl, fun other ho => ?_⟩
  rw [List.map_append, List.map_cons] at hn
  have fresh := (List.nodup_append.1 hn).2.2 other.1 (List.mem_map_of_mem ho) pair.1
    List.mem_cons_self
  simpa using fresh.symm

section Enter

variable {env : Env} {f : Func} {strings : List String} {debugInfo : Ir.DebugInfo}
  {args : List Datum}

/-- At the start, the parameters hold the arguments. -/
theorem names_enter (hparams : (f.params.map Prod.fst).Nodup)
    (herrors : (lowerFunction env f strings debugInfo).errors = [])
    (hargs : f.params.length = args.length) :
    ∀ pair ∈ f.params.zip args,
      (Frame.enter (lowerFunction env f strings debugInfo).function args).names
        (Origin.argument pair.1.1).name = some (.datum pair.2) := by
  intro pair hp
  let g := (lowerFunction env f strings debugInfo).function
  have names : g.params.map Prod.fst = f.params.map fun param => (Origin.argument param.1).name :=
    List.map_map
  have once : g.defined.Nodup := nodup_defined ⟨strings, debugInfo, herrors, rfl⟩ hparams
  obtain ⟨hnames, -, apart⟩ := List.nodup_append.1 once
  have listed : ((Origin.argument pair.1.1).name, pair.2) ∈ (g.params.map Prod.fst).zip args := by
    rw [names, List.zip_map_left]
    exact List.mem_map_of_mem (f := Prod.map _ id) hp
  have notSlot : (g.slots.any (·.name = (Origin.argument pair.1.1).name)) = false := by
    rw [List.any_eq_false]
    intro slot hs heq
    exact apart _ (List.of_mem_zip listed).1 _ (List.mem_append_left _ (List.mem_map_of_mem hs))
      (of_decide_eq_true heq).symm
  have keys : (((g.params.map Prod.fst).zip args).map Prod.fst).Nodup := by
    rw [List.map_fst_zip (by simp [names, hargs])]
    exact hnames
  change (if g.slots.any (·.name = _) then _ else _) = _
  rw [notSlot, lookup_of_mem keys listed]
  rfl

theorem mirrors_enter (g : Ir.Function) (args : List Datum) :
    Mirrors g.slots (fun _ => none) (Frame.enter g args) where
  addresses slot hs _ := if_pos (List.any_eq_true.2 ⟨slot, hs, decide_eq_true rfl⟩)
  values cell d hd := by cases hd

/-! ## Functions -/

theorem draftOf_eq {body : Node} (hbody : f.body = some body) :
    draftOf env f strings debugInfo =
      let p := lowerParams env f.params { strings, debugInfo, scopes := [[]] }
      let d := (lowerNode env body : Draft Unit) false p.names
      ⟨d.value, d.names, .line p.insts ++ d.code, p.notes ++ d.notes⟩ := by
  rw [draftOf, walkFunction, hbody]
  dsimp only
  generalize (lowerNode env body : Draft Unit) = x
  rfl

/-- Behind the body, the function ends as its tree does. -/
theorem leave_of_resultOf {σ : Store} {r : Result} (h : f.resultOf (.normal σ) = some r)
    (fr : Frame) : scalarMachine.leave (fallback f) (some fr) = .error (some r) := by
  unfold Func.resultOf at h
  unfold fallback
  by_cases hv : f.returnType.isVoid = true
  · rw [if_pos hv] at h ⊢
    cases h
    rfl
  · rw [if_neg hv] at h ⊢
    cases h
    rfl

/-- The structured code of a scalar function ends with the result of its tree. -/
theorem finishes_of_evaluate (hf : f.IsScalar)
    (herrors : (lowerFunction env f strings debugInfo).errors = []) {fuel : Nat} {r : Result}
    (hr : f.evaluate fuel args = some r) :
    Finishes scalarMachine (draftOf env f strings debugInfo).code (fallback f)
      (some (Frame.enter (lowerFunction env f strings debugInfo).function args)) (some r) := by
  obtain ⟨body, hbody, hr⟩ := Option.bind_eq_some_iff.1 hr
  obtain ⟨σ, hσ, hr⟩ := Option.bind_eq_some_iff.1 hr
  obtain ⟨o, ho, hr⟩ := Option.bind_eq_some_iff.1 hr
  let g := (lowerFunction env f strings debugInfo).function
  have listed : (draftOf env f strings debugInfo).notes.Listed g.slots := by
    refine ⟨(errors_lowerFunction env f strings debugInfo).1 herrors, fun slot hs => ?_⟩
    rw [slots_lowerFunction]
    exact hs
  rw [draftOf_eq hbody] at listed ⊢
  obtain ⟨hlparams, hlbody⟩ := listed.append
  let n : Names := { strings, debugInfo, scopes := [[]] }
  have start : Tracks g.slots (Scope.opened {}) n :=
    ⟨⟨rfl, List.forall_mem_singleton.2 (List.forall_mem_nil _)⟩, rfl⟩
  have walked := lowerNode_walked env fuel body (hf.body body hbody)
    (tracks_lowerParams env f.params start hlparams) hlbody
  obtain ⟨fr, hline, hm⟩ := line_lowerParams env f.params (mirrors_enter g args) hlparams
    (names_enter hf.distinct herrors (length_of_withArgs hσ)) hσ
  obtain ⟨o', hruns, hmatch⟩ := walked.performs hm ho
  have runs := Code.runs_then (Code.runs_insts hline) hruns
  cases hmatch with
  | normal hm' => exact .behind runs (leave_of_resultOf hr _)
  | ended r' =>
    cases hr
    exact .ended runs
  | out => cases hr
  | on => cases hr

end Enter

/-- Lowering keeps the meaning of scalar functions.  Let a function of the scalar fragment, with
parameters of different names, be lowered without an error.  For all arguments, if the evaluation of
its tree ends with a result, a run of its blocks on these arguments ends with this result and with
no other one. -/
theorem scalar_functions_keep_their_meaning {env : Env} {f : Func} {strings : List String}
    {debugInfo : Ir.DebugInfo} (hf : f.IsScalar)
    (h : (lowerFunction env f strings debugInfo).errors = []) {args : List Datum} {fuel : Nat}
    {r : Result} (hr : f.evaluate fuel args = some r) (r' : Option Result) :
    scalarMachine.Ends (lowerFunction env f strings debugInfo).function Ir.entryLabel
        (some (Frame.enter (lowerFunction env f strings debugInfo).function args)) r' ↔
      r' = some r := by
  have ends := ends_of_finishes (finishes_of_evaluate hf h hr)
  exact ⟨fun h' => h'.unique ends, fun h' => h' ▸ ends⟩

namespace Sample

open Codegen.Sample

/-- Adds up what `switch (i % 3)` makes of the numbers below `n`, until the sum is over a hundred or
`i` is the limit. -/
def weigh : Func where
  name := "weigh"
  params := [("n", i64), ("limit", i64)]
  returnType := i64
  body := some <| node <| .block
    [ node (.define "sum" i64 (number "0")),
      node (.define "i" i64 (number "-1")),
      node <| .loop
        (node (.binary .cmpAnd bool
          (node (.binary .less bool (read "i" i64) (read "n" i64)))
          (node (.unary .lnot bool (node (.binary .grt bool (read "sum" i64) (number "100")))))))
        (node <| .block
          [ node (.assign .addEq (read "i" i64) (number "1")),
            node <| .switch (node (.binary .rem i64 (read "i" i64) (number "3")))
              [ .mk 0 (node .continueLoop) {},
                .mk 1 (node (.assign .subEq (read "sum" i64) (read "i" i64))) {} ]
              (some <| node <| .block
                [ node (.define "i" i64 (node (.binary .mult i64 (read "i" i64) (read "i" i64)))),
                  node (.assign .addEq (read "sum" i64) (read "i" i64)) ]),
            node <| .branch
              [ .mk (some (node (.binary .cmpEq bool (read "i" i64) (read "limit" i64))))
                  (node .breakLoop) {} ] ])
        none,
      node (.ret (some (read "sum" i64)) false) ]

theorem weigh_isScalar : weigh.IsScalar := ⟨by decide, by decide, by decide +kernel⟩

end Sample

theorem weigh_keeps_its_meaning :
    Sample.weigh.IsScalar ∧ (lowerFunction Sample.env Sample.weigh [] {}).errors = [] ∧
      Sample.weigh.evaluate 20 [.word 9, .word 8] = some (.value (.word 81)) ∧
      scalarMachine.Ends (lowerFunction Sample.env Sample.weigh [] {}).function Ir.entryLabel
        (some (Frame.enter (lowerFunction Sample.env Sample.weigh [] {}).function
          [.word 9, .word 8])) (some (.value (.word 81))) := by
  have errors : (lowerFunction Sample.env Sample.weigh [] {}).errors = [] := by decide +kernel
  have value : Sample.weigh.evaluate 20 [.word 9, .word 8] = some (.value (.word 81)) := by
    decide +kernel
  exact ⟨Sample.weigh_isScalar, errors, value,
    (scalar_functions_keep_their_meaning Sample.weigh_isScalar errors value _).2 rfl⟩

end Codegen.Lowering
