import Codegen.Proofs.Emitted
import Codegen.Proofs.Operands
import Codegen.Proofs.TwoRuns.Blocks
import Codegen.Proofs.TwoRuns.Surroundings
import Codegen.Proofs.Verified

/-!
# Positions do not influence code

Where something stands in a source file ends up in debug records and in the places of errors, and
nowhere else.  A module without its debug records is said by `Ir.Module.bare`: it is all that the
printed module shows when records are not asked for, the passes work on it alone, and it is the same
for a program at other places.
-/

namespace Codegen.Ir

def Block.bare (b : Block) : Block := { b with insts := b.insts.map Inst.bare }

/-- The function without its debug records and its place. -/
def Function.bare (f : Function) : Function :=
  { f with blocks := f.blocks.map Block.bare, record := none, span := {}, file := "" }

/-- The module without debug records and places. -/
def Module.bare (m : Module) : Module :=
  { m with
    decls := m.decls.map Function.bare
    impls := m.impls.map Function.bare
    debugInfo := {} }

/-! ## Printed modules -/

theorem Inst.text_bare (inst : Inst) : inst.bare.text false = inst.text false := by
  cases inst with
  | call name type dest args signature location => cases location <;> rfl
  | _ => rfl

theorem Block.body_bare (b : Block) : b.bare.body false = b.body false := by
  simp [Block.body, Block.bare, Function.comp_def, Inst.text_bare]

namespace Function

theorem isDeclaration_bare (f : Function) : f.bare.isDeclaration = f.isDeclaration :=
  List.isEmpty_map

theorem head_bare (f : Function) : f.bare.head false = f.head false := by
  have record : recordText " " false f.record = "" := by cases f.record <;> rfl
  rw [head, head, isDeclaration_bare, record]
  rfl

theorem text_bare (f : Function) : f.bare.text false = f.text false := by
  have later (b : Block) : laterBlock false b.bare = laterBlock false b := by
    rw [laterBlock, Block.body_bare]
    rfl
  have first (b : Block) : firstBlock false f.slots b.bare = firstBlock false f.slots b := by
    rw [firstBlock, Block.body_bare]
    rfl
  have blocks : f.bare.blocks = f.blocks.map Block.bare := rfl
  have slots : f.bare.slots = f.slots := rfl
  rw [text, text, head_bare, blocks, slots]
  cases f.blocks with
  | nil => rfl
  | cons b rest => simp [first, later, Function.comp_def]

end Function

theorem Module.text_bare (m : Module) : m.bare.text false = m.text false := by
  have declares : m.bare.declares "malloc" = m.declares "malloc" := by
    rw [Module.declares, Module.declares, Module.bare, ← List.map_append, List.any_map]
    rfl
  have decls : m.bare.declTexts false = m.declTexts false := by
    rw [Module.declTexts, Module.declTexts, declares]
    simp [Module.bare, Function.comp_def, Function.text_bare]
  have impls : m.bare.impls.map (fun f => f.text false ++ Text.line "") =
      m.impls.map fun f => f.text false ++ Text.line "" := by
    simp [Module.bare, Function.comp_def, Function.text_bare]
  rw [Module.text, Module.text, decls, impls]
  rfl

/-! ## Passes -/

/-- A replacement that does not look at debug records and adds none. -/
structure Unrecorded (replacement? : Inst → Option Inst) : Prop where
  looks (inst : Inst) : replacement? inst.bare = replacement? inst
  adds {inst new : Inst} (h : replacement? inst = some new) : new.bare = new

theorem unrecorded_sizeReplacement? : Unrecorded sizeReplacement? where
  looks inst := by cases inst <;> rfl
  adds h := by
    obtain ⟨_, _, _, _, _, _, _, -, rfl⟩ := sizeReplacement?_eq_some h
    rfl

theorem unrecorded_ptrReplacement? : Unrecorded ptrReplacement? where
  looks inst := by
    cases inst with
    | call _ _ _ args => rcases args with _ | ⟨_, _ | _⟩ <;> rfl
    | _ => rfl
  adds h := by
    obtain ⟨_, _, _, _, _, _, _, _, _, _, -, -, -, -, rfl⟩ := ptrReplacement?_eq_some h
    rfl

namespace Unrecorded

variable {replacement? : Inst → Option Inst} (h : Unrecorded replacement?)

include h

theorem bare_replaceInst (inst : Inst) :
    (replaceInst replacement? inst).bare = replaceInst replacement? inst.bare := by
  rw [replaceInst, replaceInst, h.looks]
  cases hr : replacement? inst with
  | none => rfl
  | some new => exact h.adds hr

theorem bare_replace (f : Function) :
    (f.replace replacement?).bare = f.bare.replace replacement? := by
  simp [Function.replace, Function.bare, Block.replace, Block.bare, Function.comp_def,
    h.bare_replaceInst]

end Unrecorded

theorem redeclared_bare (seen : List String) (fs : List Function) :
    redeclared seen (fs.map Function.bare) = (redeclared seen fs).map Function.bare := by
  induction fs generalizing seen with
  | nil => rfl
  | cons f fs ih =>
    have name : f.bare.name = f.name := rfl
    rw [List.map_cons, redeclared, redeclared, name, ih, ih]
    split <;> rfl

/-- With shared constants, what is left of blocks and functions is the same. -/
theorem Block.Alike.bare {R : Inst → Inst → Prop} (hR : ∀ i i', R i i' → i'.bare = i.bare)
    {b b' : Block} (h : b.Alike R b') : b'.bare = b.bare := by
  have insts := map_eq_map_of_forall₂ h.insts hR
  rw [Block.bare, insts]
  exact congrArg (fun o : Block => { o with insts := b.insts.map Inst.bare }) h.outline

theorem Function.Alike.bare {r : Relocation} {R : Inst → Inst → Prop}
    (hR : ∀ i i', R i i' → i'.bare = i.bare) {f f' : Function} (h : f.Alike r R f') :
    f'.bare = f.bare := by
  have blocks := map_eq_map_of_forall₂ h.blocks fun _ _ hb => hb.bare hR
  rw [Function.bare, blocks]
  exact congrArg (fun g : Function =>
    { g with blocks := f.blocks.map Block.bare, span := {}, file := "" }) h.head

end Codegen.Ir

namespace Codegen.Lowering

open Ir (Module)

theorem bare_passed (g : Ir.Function) : (passed g).bare = passed g.bare := by
  rw [passed, Ir.unrecorded_ptrReplacement?.bare_replace,
    Ir.unrecorded_sizeReplacement?.bare_replace]
  rfl

/-- Modules that are the same without records, with the same messages. -/
structure SameOutcome (x x' : Module × List Error) : Prop where
  bare : x'.1.bare = x.1.bare
  messages : x'.2.map Error.message = x.2.map Error.message

theorem SameOutcome.isEmpty {x x' : Module × List Error} (h : SameOutcome x x') :
    x'.2.isEmpty = x.2.isEmpty := by
  rw [← List.isEmpty_map, h.messages, List.isEmpty_map]

/-- The passes work on what is left of a module without records. -/
theorem sameOutcome_runAll {m m' : Module} (h : m'.bare = m.bare) :
    SameOutcome (Ir.Pass.runAll Ir.Pass.standard m) (Ir.Pass.runAll Ir.Pass.standard m') := by
  have decls : m'.decls.map Ir.Function.bare = m.decls.map Ir.Function.bare :=
    congrArg Module.decls h
  have again := congrArg (Ir.redeclared []) decls
  rw [Ir.redeclared_bare, Ir.redeclared_bare] at again
  have empty : (Ir.redeclared [] m'.decls).isEmpty = (Ir.redeclared [] m.decls).isEmpty := by
    rw [← List.isEmpty_map, again, List.isEmpty_map]
  have passes (m : Module) :
      ({ m with impls := m.impls.map passed } : Module).bare =
        { m.bare with impls := m.bare.impls.map passed } := by
    simp [Module.bare, Function.comp_def, bare_passed]
  rw [runAll_standard_cases, runAll_standard_cases, empty]
  split
  · refine ⟨?_, rfl⟩
    rw [passes, passes, h]
  · refine ⟨h, ?_⟩
    have messages := congrArg (List.map fun f => (Ir.redefinitionError f).message) again
    rw [List.map_map, List.map_map] at messages
    rw [List.map_map, List.map_map]
    exact messages

/-! ## Programs -/

variable (r : Relocation)

theorem bare_addTo (l : Lowered) (m : Module) :
    (l.addTo m).bare =
      { m.bare with impls := m.bare.impls ++ [l.function.bare], strings := l.strings } := by
  simp [Lowered.addTo, Module.bare]

variable {r} in
theorem Lowered.Alike.addTo {base base' : List String} {l l' : Lowered}
    (h : l.Alike r True base base' l') {m m' : Module} (hm : m'.bare = m.bare) :
    (l'.addTo m').bare = (l.addTo m).bare := by
  have function := h.function.bare fun _ _ hi => hi.bare trivial
  rw [bare_addTo, bare_addTo, hm, function, h.strings trivial]

/-- Functions at other places, walked in order. -/
theorem lowerFunctions_relocate {env env' : Func → Env}
    (henv : ∀ f, ∃ record, env' (f.relocate r) = (env f).relocate r record) (fs : List Func)
    {m m' : Module} (h : m'.bare = m.bare) :
    SameOutcome (lowerFunctions env fs m) (lowerFunctions env' (fs.map (Func.relocate r)) m') := by
  induction fs generalizing m m' with
  | nil => exact ⟨h, rfl⟩
  | cons f fs ih =>
    obtain ⟨record, looked⟩ := henv f
    have strings : m'.strings = m.strings := by
      have same := congrArg Module.strings h
      exact same
    have alike := lowerFunction_alike r (env f) record f m.debugInfo m'.debugInfo
      fun _ : True => strings
    rw [← looked] at alike
    have messages := congrArg (List.map Error.message) alike.errors
    rw [List.map_map, Error.message_comp_relocate] at messages
    have later := ih (alike.addTo h)
    refine ⟨later.bare, ?_⟩
    rw [List.map_cons, lowerFunctions_cons, lowerFunctions_cons]
    dsimp only
    rw [List.map_append, List.map_append, messages, later.messages]

theorem emptyModule_relocate (context : Context) (symbols : SymbolTable) {config config' : Config}
    (h : config'.triple = config.triple) :
    (emptyModule (context.relocate r) (symbols.relocate r) config').bare =
      (emptyModule context symbols config).bare := by
  unfold emptyModule
  rw [h, TypeMap.ofSymbols_relocate, LayoutTable.compute_relocate, Context.relocate]
  simp only [Module.bare, List.map_map, List.filterMap_map]
  rfl

/-- The module of a program at other places, before the passes. -/
theorem buildModule_relocate (context : Context) (symbols : SymbolTable) {config config' : Config}
    (h : config'.triple = config.triple) :
    SameOutcome (buildModule context symbols config)
      (buildModule (context.relocate r) (symbols.relocate r) config') := by
  have unions (layouts : LayoutTable) :
      ((context.relocate r).unions.filterMap (unionError? layouts)).map Error.message =
        (context.unions.filterMap (unionError? layouts)).map Error.message := by
    have error (a : Aggregate) : (unionError? layouts (a.relocate r)).map Error.message =
        (unionError? layouts a).map Error.message := by
      have type : (a.relocate r).type = a.type := rfl
      rw [unionError?, unionError?, type]
      cases layouts.union? a.type <;> rfl
    rw [Context.relocate, List.filterMap_map, List.map_filterMap, List.map_filterMap]
    exact congrArg (List.filterMap · context.unions) (funext error)
  have functions := lowerFunctions_relocate r
    (fun f => ⟨_, environments_relocate r context symbols config config' f⟩) context.impls
    (emptyModule_relocate r context symbols h)
  rw [buildModule_eq_lowerFunctions, buildModule_eq_lowerFunctions, LayoutTable.compute_relocate]
  refine ⟨functions.bare, ?_⟩
  dsimp only
  rw [List.map_append, List.map_append, unions]
  exact congrArg (_ ++ ·) functions.messages

/-- The module of a program behind the passes, which run only when there is no error yet. -/
def conclude (built : Module × List Error) : Module × List Error :=
  if built.2.isEmpty then Ir.Pass.runAll Ir.Pass.standard built.1 else built

theorem SameOutcome.conclude {x x' : Module × List Error} (h : SameOutcome x x') :
    SameOutcome (conclude x) (conclude x') := by
  rw [Lowering.conclude, Lowering.conclude, h.isEmpty]
  split
  · exact sameOutcome_runAll h.bare
  · exact h

/-- A program is refused for what was found before or by the passes; the check of its functions
never finds more. -/
theorem lowerProgram_eq_conclude (context : Context) (symbols : SymbolTable) (config : Config) :
    lowerProgram context symbols config =
      let final := conclude (buildModule context symbols config)
      if final.2.isEmpty then .ok final.1 else .error (.lowering final.2) := by
  have checked : (conclude (buildModule context symbols config)).1.verify = [] := by
    have built := verify_buildModule context symbols config
    rw [conclude]
    split
    · rwa [verify_runAll]
    · exact built
  have lowered : lowerProgram context symbols config =
    let final := conclude (buildModule context symbols config)
    let errors := final.2 ++ if config.verify then final.1.verify.map flowError else []
    if errors.isEmpty then .ok final.1 else .error (.lowering errors) := rfl
  rw [lowered]
  dsimp only
  rw [checked, List.map_nil, ite_self, List.append_nil]

/-- What is shown of a result without debug records: the text of the module, or the messages of
all errors. -/
def report : Except Error Module → Except (List String) String
  | .ok m => .ok (m.text false)
  | .error e => .error (e.parts.map Error.message)

theorem report_lowerProgram_relocate (context : Context) (symbols : SymbolTable)
    {config config' : Config} (h : config'.triple = config.triple) :
    report (lowerProgram (context.relocate r) (symbols.relocate r) config') =
      report (lowerProgram context symbols config) := by
  have final := (buildModule_relocate r context symbols h).conclude
  rw [lowerProgram_eq_conclude, lowerProgram_eq_conclude]
  dsimp only
  rw [final.isEmpty]
  split
  · rw [report, report, ← Module.text_bare, final.bare, Module.text_bare]
  · exact congrArg Except.error final.messages

/-- Positions do not influence code.  Two programs that are the same when spans, the names of files
and the lines of symbols are forgotten are both lowered or both refused, for one target.  When they
are lowered, their modules have the same text without debug records, and when they are refused,
their errors have the same messages. -/
theorem positions_do_not_influence_code {p p' : Program} {config config' : Config}
    (h : p.relocate .forget = p'.relocate .forget) (htriple : config.triple = config'.triple) :
    report (lowerProgram p.context p.symbols config) =
      report (lowerProgram p'.context p'.symbols config') := by
  calc report (lowerProgram p.context p.symbols config)
      = report (lowerProgram (p.relocate .forget).context (p.relocate .forget).symbols config) :=
        (report_lowerProgram_relocate .forget p.context p.symbols rfl).symm
    _ = report (lowerProgram (p'.relocate .forget).context (p'.relocate .forget).symbols
          config) := by rw [h]
    _ = report (lowerProgram p'.context p'.symbols config') :=
        report_lowerProgram_relocate .forget p'.context p'.symbols htriple

namespace Sample

/-- Prints a text and does one thing more, in a program where everything stands at one place. -/
def visit (file : String) (span : Span) (last : NodeKind) : Program where
  symbols :=
    { (SymbolTable.addFunction {} "c" { name := "printf", isExternal := true }).addEnum "m"
        { name := "color", members := [("red", 0)], line := span.line } with inputFile := file }
  context :=
    { structs := [{ name := "pair", path := "m", file, span, parts := [.i64, .u8] }]
      decls :=
        [ { name := "printf", file, span, params := [("format", .constStr)], returnType := .i32,
            isVariadic := true } ]
      impls :=
        [ { name := "visit", file, span, returnType := .void
            body := some <| .mk (.block
              [ .mk (.call .i32
                  [ .mk (.callId "printf" { name := "printf", path := "c", isGlobal := true }) span,
                    .mk (.callFunc .i32 [.mk (.string "hello" .constStr) span] []) span ]) span,
                .mk last span ]) span } ] }

def here (last : NodeKind) : Program := visit "a.colgm" { line := 1, column := 2 } last

def there (last : NodeKind) : Program := visit "lib/b.colgm" { line := 31, column := 8 } last

end Sample

/-- A program and its copy at another place differ in their debug records. -/
theorem visit_positions_do_not_influence_code :
    (∀ last, (Sample.here last).relocate .forget = (Sample.there last).relocate .forget) ∧
    (let p := Sample.here (.ret none false)
     let p' := Sample.there (.ret none false)
     ∃ m m', lowerProgram p.context p.symbols {} = .ok m ∧
       lowerProgram p'.context p'.symbols { verify := true } = .ok m' ∧
       m.debugInfo ≠ m'.debugInfo ∧ m.text false = m'.text false) ∧
    (let p := Sample.here .breakLoop
     let p' := Sample.there .breakLoop
     report (lowerProgram p.context p.symbols {}) = .error ["break outside of a loop"] ∧
       report (lowerProgram p'.context p'.symbols { verify := true }) =
         .error ["break outside of a loop"]) := by
  have same (last : NodeKind) :
      (Sample.here last).relocate .forget = (Sample.there last).relocate .forget := rfl
  have shown (last : NodeKind) :
      report (lowerProgram (Sample.here last).context (Sample.here last).symbols {}) =
        report (lowerProgram (Sample.there last).context (Sample.there last).symbols
          { verify := true }) :=
    positions_do_not_influence_code (same last) rfl
  refine ⟨same, ?_, ?_⟩
  · intro p p'
    have texts : report (lowerProgram p.context p.symbols {}) =
      report (lowerProgram p'.context p'.symbols { verify := true }) := shown _
    have records : (lowerProgram p.context p.symbols {}).toOption.map Module.debugInfo ≠
      (lowerProgram p'.context p'.symbols { verify := true }).toOption.map Module.debugInfo := by
      decide +kernel
    have accepted : (lowerProgram p.context p.symbols {}).toOption.isSome := by decide +kernel
    cases h : lowerProgram p.context p.symbols {} with
    | error e =>
      rw [h] at accepted
      cases accepted
    | ok m =>
      rw [h] at texts records
      cases h' : lowerProgram p'.context p'.symbols { verify := true } with
      | error e =>
        rw [h'] at texts
        cases texts
      | ok m' =>
        rw [h'] at texts records
        exact ⟨m, m', rfl, rfl, fun hd => records (congrArg some hd), Except.ok.inj texts⟩
  · intro p p'
    have refused : report (lowerProgram p.context p.symbols {}) =
      .error ["break outside of a loop"] := by decide +kernel
    exact ⟨refused, (shown .breakLoop).symm.trans refused⟩

end Codegen.Lowering
