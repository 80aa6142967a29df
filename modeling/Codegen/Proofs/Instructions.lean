import Codegen.Ir.Pass
import Codegen.Proofs.Factor
import Mathlib.Data.List.Flatten

/-!
# The instructions of a lowered function

Control flow puts instructions into blocks and never changes them: the blocks of structured code
hold its instructions in the order in which they were drafted (`Code.insts_blocks`).  So a draft,
with control flow forgotten, is a single straight-line step (`Draft.flat`), and a property of
straight-line steps that sequencing keeps is one of the walk over a whole function
(`GradedProperty.bodyDraft`).
-/

namespace Codegen.Lowering

open Ir (Inst Value Label Terminator Block)

variable {α β : Type} {inLoop : Bool}

mutual

/-- The instructions of structured code. -/
def Code.insts : {inLoop : Bool} → Code inLoop → List Inst
  | _, .done => []
  | _, .cons step rest => step.insts ++ rest.insts

def Step.insts : {inLoop : Bool} → Step inLoop → List Inst
  | _, .inst inst => [inst]
  | _, .guard _ _ right => right.insts
  | _, .branch arms => arms.insts
  | _, .switch _ _ cases => cases.insts
  | _, .loop check _ body update => check.insts ++ (body.insts ++ update.insts)
  | _, .jumpOut => []
  | _, .jumpOn => []
  | _, .ret _ _ => []

def Arms.insts : {inLoop : Bool} → Arms inLoop → List Inst
  | _, .nil => []
  | _, .always body rest => body.insts ++ rest.insts
  | _, .when check _ body rest => check.insts ++ (body.insts ++ rest.insts)

def Cases.insts : {inLoop : Bool} → Cases inLoop → List Inst
  | _, .nil => []
  | _, .otherwise body => body.insts
  | _, .case _ body rest => body.insts ++ rest.insts

end

@[simp]
theorem Code.insts_append : (a b : Code inLoop) → (a ++ b).insts = a.insts ++ b.insts
  | .done, _ => rfl
  | .cons step rest, b => by
    rw [cons_append, Code.insts, Code.insts, insts_append rest b, List.append_assoc]

@[simp]
theorem Code.insts_line (insts : List Inst) : (line insts : Code inLoop).insts = insts := by
  induction insts with
  | nil => rfl
  | cons inst insts ih => exact congrArg (List.cons inst) ih

@[simp]
theorem Code.insts_of (step : Step inLoop) : (of step).insts = step.insts := List.append_nil _

/-! ## Blocks -/

/-- The instructions of blocks. -/
def instsOf (blocks : List Block) : List Inst := blocks.flatMap Block.insts

@[simp]
theorem instsOf_nil : instsOf [] = [] := rfl

@[simp]
theorem instsOf_cons (b : Block) (blocks : List Block) :
    instsOf (b :: blocks) = b.insts ++ instsOf blocks := List.flatMap_cons

@[simp]
theorem instsOf_append (a b : List Block) : instsOf (a ++ b) = instsOf a ++ instsOf b :=
  List.flatMap_append

namespace Site

/-- The instructions of the block in progress. -/
def insts (s : Site) : List Inst := (s.current.map OpenBlock.insts).getD []

@[simp]
theorem insts_close (s : Site) (t : Terminator) : (s.last.close t).insts = s.insts := by
  obtain ⟨_ | block, next⟩ := s <;> rfl

@[simp]
theorem insts_ended (s : Site) : s.ended.insts = [] := rfl

@[simp]
theorem insts_joined (s : Site) (comment : String) : (s.joined comment).insts = [] := rfl

@[simp]
theorem insts_forked (s : Site) (comment : String) : (s.forked comment).insts = [] := rfl

@[simp]
theorem insts_fork (s : Site) (holds : Bool) (cond : Value) (other : Label) :
    (s.fork holds cond other).insts = s.insts := s.drawn.insts_close _

@[simp]
theorem insts_leaving (s : Site) (target : Label) : instsOf (s.leaving target) = s.insts := by
  obtain ⟨_ | block, next⟩ := s
  · rfl
  · exact List.append_nil _

@[simp]
theorem insts_falling (s : Site) : instsOf s.falling = s.insts := s.insts_leaving _

@[simp]
theorem insts_opened (s : Site) (comment : String) : (s.opened comment).insts = s.insts := by
  obtain ⟨_ | block, next⟩ := s <;> rfl

@[simp]
theorem insts_appended (s : Site) (inst : Inst) : (s.appended inst).insts = s.insts ++ [inst] := by
  obtain ⟨_ | block, next⟩ := s <;> rfl

end Site

-- No instruction is lost between the block in progress and the blocks behind it: what stands in
-- the blocks and at the site behind the code is what stood at the site before, and the code.
mutual

theorem Code.insts_place : {inLoop : Bool} → (code : Code inLoop) → (s : Site) →
    (w : Way → Label) →
    instsOf ((code.place s).blocks w) ++ (code.place s).site.insts = s.insts ++ code.insts
  | _, .done, s, _ => (List.append_nil s.insts).symm
  | _, .cons step rest, s, w => by
    have first := step.insts_place s w
    have second := rest.insts_place (step.place s).site w
    simp only [Code.place, Code.insts, instsOf_append, List.append_assoc]
    rw [second, ← List.append_assoc, first, List.append_assoc]

theorem Step.insts_place : {inLoop : Bool} → (step : Step inLoop) → (s : Site) →
    (w : Way → Label) →
    instsOf ((step.place s).blocks w) ++ (step.place s).site.insts = s.insts ++ step.insts
  | _, .inst inst, s, _ => by simp [Step.place, Step.insts]
  | _, .guard isAnd cond right, s, w => by
    have inner := right.insts_place (s.forked (if isAnd then "and.true" else "or.false")) w
    simpa [Step.place, Step.insts] using inner
  | _, .branch arms, s, w => by
    simpa [Step.place, Step.insts] using arms.insts_place s _
  | _, .switch value type cases, s, w => by
    simpa [Step.place, Step.insts] using cases.insts_place s.ended.next _
  | _, .loop check cond body update, s, w => by
    let c := check.place (s.joined "loop.entry")
    let b := body.place (c.site.forked "loop.body")
    let e := b.site.opened "loop.ret.end"
    let u := update.place (e.joined "loop.continue")
    let w' := Function.update (Function.update w .on e.next) .out u.site.ended.next
    have hc : instsOf (c.blocks w') ++ c.site.insts = check.insts := check.insts_place _ w'
    have hb : instsOf (b.blocks w') ++ b.site.insts = body.insts := body.insts_place _ w'
    have hu : instsOf (u.blocks w') ++ u.site.insts = update.insts := update.insts_place _ w'
    rw [Step.insts, ← hc, ← hb, ← hu]
    simp only [Step.place, instsOf_append, instsOf_cons, instsOf_nil, Site.insts_falling,
      Site.insts_fork, Site.insts_close, Site.insts_opened, Site.insts_joined, List.append_nil,
      List.append_assoc]
    rfl
  | _, .jumpOut, s, _ => by simp [Step.place, Step.insts]
  | _, .jumpOn, s, _ => by simp [Step.place, Step.insts]
  | _, .ret type value, s, _ => by simp [Step.place, Step.insts]

theorem Arms.insts_place : {inLoop : Bool} → (arms : Arms inLoop) → (s : Site) →
    (w : Way → Label) →
    instsOf ((arms.place s).blocks w) ++ (arms.place s).site.insts = s.insts ++ arms.insts
  | _, .nil, s, _ => (List.append_nil s.insts).symm
  | _, .always body rest, s, w => by
    have first := body.insts_place s w
    have second := rest.insts_place ((body.place s).site.opened "block.end.ret").ended w
    simp only [Site.insts_ended, List.nil_append] at second
    simp only [Arms.place, Arms.insts, instsOf_append, instsOf_cons, instsOf_nil,
      Site.insts_close, Site.insts_opened, List.append_nil, List.append_assoc]
    rw [second, ← List.append_assoc, first, List.append_assoc]
  | _, .when check cond body rest, s, w => by
    let c := check.place s
    let b := body.place (c.site.forked "cond.true")
    let e := b.site.opened "block.end.ret"
    let r := rest.place (if rest.isNil then e.ended else e.ended.joined "cond.false")
    have hc : instsOf (c.blocks w) ++ c.site.insts = s.insts ++ check.insts :=
      check.insts_place s w
    have hb : instsOf (b.blocks w) ++ b.site.insts = body.insts := body.insts_place _ w
    have hr : instsOf (r.blocks w) ++ r.site.insts = rest.insts := by
      refine (rest.insts_place _ w).trans ?_
      cases rest.isNil <;> rfl
    simp only [Arms.place, Arms.insts, instsOf_append, instsOf_cons, instsOf_nil,
      Site.insts_fork, Site.insts_close, Site.insts_opened, List.append_nil]
    rw [← List.append_assoc s.insts, ← hc, ← hb, ← hr]
    simp only [List.append_assoc]
    rfl

theorem Cases.insts_place : {inLoop : Bool} → (cases : Cases inLoop) → (next : Label) →
    (w : Way → Label) →
    instsOf ((cases.place next).blocks w) ++ (cases.place next).site.insts = cases.insts
  | _, .nil, _, _ => rfl
  | _, .otherwise body, next, w => by
    simpa [Cases.place, Cases.insts] using
      body.insts_place (Site.joined ⟨none, next⟩ "switch.default") w
  | _, .case value body rest, next, w => by
    let b := body.place (Site.joined ⟨none, next⟩ ("switch.case " ++ Text.signed value))
    have hb : instsOf (b.blocks w) ++ b.site.insts = body.insts := body.insts_place _ w
    have hr := rest.insts_place b.site.next w
    simp only [Cases.place, Cases.insts, instsOf_append, Site.insts_leaving, ← hb, ← hr,
      List.append_assoc]
    rfl

end

/-- The blocks of a body hold its instructions in order. -/
theorem Code.insts_blocks (code : Code false) (t : Terminator) :
    instsOf (code.blocks t) = code.insts := by
  have placed := code.insts_place (Graph.site {}) fun _ => Ir.entryLabel
  have last (s : Site) : instsOf (s.current.toList.map fun b => b.close t) = s.insts := by
    obtain ⟨_ | block, next⟩ := s
    · rfl
    · exact List.append_nil _
  rw [Code.blocks, instsOf_append, last, placed]
  rfl

/-! ## Drafts without control flow -/

/-- What a draft leaves behind, with control flow forgotten. -/
def Drafted.flat (d : Drafted α (Code inLoop)) : Stretch α :=
  ⟨d.value, d.names, d.code.insts, d.notes⟩

/-- A draft as a straight-line step. -/
def Draft.flat (d : Draft α) (inLoop : Bool) : Line α := fun n => (d inLoop n).flat

theorem Draft.flat_bind (d : Draft α) (e : α → Draft β) :
    (d >>= e).flat inLoop = d.flat inLoop >>= fun a => (e a).flat inLoop := by
  funext n
  change Stretch.mk _ _ (Code.insts (_ ++ _)) _ = Stretch.mk _ _ (_ ++ _) _
  rw [Code.insts_append]
  rfl

theorem Draft.flat_line (step : Line α) : (Draft.line step).flat inLoop = step := by
  funext n
  change Stretch.mk (step n).value (step n).names (Code.insts (Code.line _)) (step n).notes = step n
  rw [Code.insts_line]

/-- The walk over the body of a function. -/
def bodyDraft (env : Env) (f : Func) : Draft Unit :=
  match f.body with
  | some body => lowerNode env body
  | none => Draft.line (fault f.span (.noBody f.name))

theorem line_bind_assoc {γ : Type} (x : Line α) (f : α → Line β) (g : β → Line γ) :
    x >>= f >>= g = x >>= fun a => f a >>= g := by
  funext n
  change Stretch.mk _ _ (_ ++ _ ++ _) (_ ++ _ ++ _) = _
  rw [List.append_assoc, Notes.append_assoc]
  rfl

/-- A parameter is stored in a slot of its own, and its name is bound to the slot. -/
def spill (env : Env) (param : String × Ty) : Line Unit := do
  addSlot (param.1 ++ ".slot") (env.map param.2)
  emit (.store (env.map param.2) (.var (param.1 ++ ".param")) (.var (param.1 ++ ".slot")))
  bindLocal param.1 (param.1 ++ ".slot")

theorem lowerParams_cons (env : Env) (param : String × Ty) (params : List (String × Ty)) :
    lowerParams env (param :: params) = spill env param >>= fun _ => lowerParams env params := by
  rw [spill, line_bind_assoc]
  rfl

/-- A function first opens a scope and spills its parameters. -/
theorem flat_walkFunction (env : Env) (f : Func) :
    (walkFunction env f : Draft Unit).flat inLoop =
      pushScope >>= fun _ => lowerParams env f.params >>= fun _ =>
        (bodyDraft env f).flat inLoop := by
  change (Draft.line pushScope >>= fun _ => Draft.line (lowerParams env f.params) >>= fun _ =>
    bodyDraft env f).flat inLoop = _
  simp only [Draft.flat_bind, Draft.flat_line]

/-! ## Properties graded by literals -/

/-- A property of straight-line steps that is graded by the string literals which they come by: it
holds without literals of what is built from basic steps and of what changes scopes only, and
sequencing keeps it. -/
structure GradedProperty (env : Env) (locals : Set String) where
  Holds : {α : Type} → List String → Line α → Prop
  mono {α : Type} {texts more : List String} {step : Line α} (h : Holds texts step)
    (hmore : texts.Sublist more) : Holds more step
  built {α : Type} {step : Line α} (h : Built env locals step) : Holds [] step
  bind {α β : Type} {texts others : List String} {x : Line α} {f : α → Line β}
    (hx : Holds texts x) (hf : ∀ a, Holds others (f a)) : Holds (texts ++ others) (x >>= f)
  string (literal : String) (type : Ty) : Holds [literal] (pushString literal type)
  rescope (f : Names → List (List (String × String))) :
    Holds [] (modify fun n => { n with scopes := f n } : Line Unit)

namespace GradedProperty

variable {env : Env} {locals : Set String} (P : GradedProperty env locals)
variable {texts others : List String}

theorem pure (a : α) : P.Holds [] (Pure.pure a : Line α) := P.built (.pure a)

/-- A draft with the property, wherever it stands. -/
def Flat (texts : List String) (d : Draft α) : Prop := ∀ inLoop, P.Holds texts (d.flat inLoop)

variable {P}

theorem Flat.bind {d : Draft α} {e : α → Draft β} (hd : P.Flat texts d)
    (he : ∀ a, P.Flat others (e a)) : P.Flat (texts ++ others) (d >>= e) := fun inLoop => by
  rw [Draft.flat_bind]
  exact P.bind (hd inLoop) fun a => he a inLoop

/-- A draft without literals stands in front. -/
theorem Flat.lead {d : Draft α} {e : α → Draft β} (hd : P.Flat [] d)
    (he : ∀ a, P.Flat texts (e a)) : P.Flat texts (d >>= e) := .bind hd he

theorem flat_line {step : Line α} (h : P.Holds texts step) : P.Flat texts (Draft.line step) :=
  fun _ => by
    rw [Draft.flat_line]
    exact h

/-- A step of control flow with the instructions of `x` that adds nothing. -/
theorem holds_closing {step : Names → Step inLoop} {x : Line Unit} (hx : P.Holds texts x)
    (hstep : ∀ n, (step n).insts = (x n).insts) :
    P.Holds texts fun n => (Draft.closing (step n) (x n).names (x n).notes).flat := by
  have same : (fun n => (Draft.closing (step n) (x n).names (x n).notes).flat) = x := by
    funext n
    change Stretch.mk () (x n).names (Code.insts (.of (step n))) (x n).notes = x n
    rw [Code.insts_of, hstep]
  rw [same]
  exact hx

theorem Flat.guarded (isAnd : Bool) (cond : Value) {d : Draft Unit} (h : P.Flat texts d) :
    P.Flat texts (Assembler.guarded isAnd cond d) := fun inLoop =>
  holds_closing (h inLoop) fun _ => rfl

/-- The arms of a branch as a straight-line step. -/
def flatArms (inLoop : Bool) (ds : List (ArmWalk Draft)) : Line Unit := fun n =>
  let arms := Draft.arms inLoop ds n
  ⟨arms.value, arms.names, arms.code.insts, arms.notes⟩

theorem holds_arms {ds es : List (ArmWalk Draft)}
    (h : ArmWalk.Graded (fun _ texts d _ => P.Flat texts d) texts ds es) (inLoop : Bool) :
    P.Holds texts (flatArms inLoop ds) := by
  induction h with
  | nil => exact P.pure ()
  | @always _ _ body _ ds _ hbody _ ih =>
    have tried : flatArms inLoop (⟨none, body⟩ :: ds) =
      body.flat inLoop >>= fun _ => flatArms inLoop ds := rfl
    rw [tried]
    exact P.bind (hbody inLoop) fun _ => ih
  | @when _ _ _ check _ body _ ds _ hcheck hbody _ ih =>
    have tried : flatArms inLoop (⟨some check, body⟩ :: ds) = check.flat inLoop >>= fun _ =>
        body.flat inLoop >>= fun _ => flatArms inLoop ds := by
      funext n
      exact congrArg (Stretch.mk _ _ _) (Notes.append_assoc ..)
    rw [tried]
    exact P.bind (hcheck inLoop) fun _ => P.bind (hbody inLoop) fun _ => ih

/-- The cases of a switch as a straight-line step. -/
def flatCases (inLoop : Bool) (otherwise : Option (Draft Unit)) (ds : List (Int × Draft Unit)) :
    Line Unit := fun n =>
  let cases := Draft.cases inLoop otherwise ds n
  ⟨cases.value, cases.names, cases.code.insts, cases.notes⟩

theorem holds_cases {ds es : List (Int × Draft Unit)}
    (h : CaseWalk.Graded (fun texts d _ => P.Flat texts d) texts ds es)
    {otherwise other : Option (Draft Unit)}
    (ho : DefaultWalk.Graded (fun texts d _ => P.Flat texts d) others otherwise other)
    (inLoop : Bool) : P.Holds (texts ++ others) (flatCases inLoop otherwise ds) := by
  induction h with
  | nil =>
    cases ho with
    | none => exact P.pure ()
    | some hbody => exact hbody inLoop
  | cons value hbody _ ih =>
    rw [List.append_assoc]
    exact P.bind (hbody inLoop) fun _ => ih

theorem Flat.looping {checked : List String} {check : Draft Value} {body update : Draft Unit}
    (hcheck : P.Flat checked check) (hbody : P.Flat texts body) (hupdate : P.Flat others update) :
    P.Flat (checked ++ (texts ++ others)) (Assembler.looping check body update) :=
  fun inLoop => by
    have round : (Assembler.looping check body update : Draft Unit).flat inLoop =
        check.flat true >>= fun _ => body.flat true >>= fun _ => update.flat true := by
      funext n
      change Stretch.mk () _ (Code.insts (.of _)) (_ ++ _ ++ _) = _
      rw [Code.insts_of, Notes.append_assoc]
      rfl
    rw [round]
    exact P.bind (hcheck true) fun _ => P.bind (hbody true) fun _ => hupdate true

/-- What has the property has it in a scope of its own. -/
theorem Flat.enclosed {d : Draft Unit} (h : P.Flat texts d) :
    P.Flat texts (do Assembler.line pushScope; d; Assembler.line popScope) := by
  have inside := h.bind fun _ => flat_line (P.rescope fun n => n.scopes.tail)
  rw [List.append_nil] at inside
  exact .lead (flat_line (P.rescope fun n => [] :: n.scopes)) fun _ => inside

/-- A jump does nothing, or is a fault outside of loops. -/
theorem flat_jumping (kind : Jump) (span : Span) : P.Flat [] (Assembler.jumping kind span) := by
  have nothing : (Assembler.jumping kind span : Draft Unit).flat true = Pure.pure () := by
    cases kind <;> rfl
  intro inLoop
  cases inLoop with
  | true => exact nothing ▸ P.pure ()
  | false => exact P.built (.fault span kind.outside)

variable (P) in
/-- The property is kept by everything that a walk does. -/
def walks : GradedRelation .stay env env.record locals Draft Draft where
  Relates texts d _ := P.Flat texts d
  mono h hmore inLoop := P.mono (h inLoop) hmore
  pure a _ := P.pure a
  bind := .bind
  line h := flat_line (P.built h.built)
  string literal type := flat_line (P.string literal type)
  enclosed := .enclosed
  guarded isAnd cond _ _ _ := .guarded isAnd cond
  branching h inLoop := holds_closing (holds_arms h inLoop) fun _ => rfl
  switching _ _ _ _ _ _ _ h _ _ ho := .lead (flat_line (P.built (.switchOperand _ _ _)))
    fun _ inLoop => holds_closing (holds_cases h ho inLoop) fun _ => rfl
  looping := .looping
  jumping := flat_jumping
  returning _ _ _ := P.pure ()

/-- The property holds of the walk over a body, with the literals of the body. -/
theorem bodyDraft {f : Func} (hbody : ∀ x ∈ Node.localsOf? f.body, x ∈ locals) :
    P.Holds (Node.literalsOf? f.body) ((Lowering.bodyDraft env f).flat false) := by
  revert hbody
  unfold Lowering.bodyDraft
  cases f.body with
  | some body => exact fun hbody => lowerNode_related P.walks body hbody false
  | none => exact fun _ => flat_line (P.built (.fault _ _)) false

/-- The property holds of the walk over a function if it holds of how parameters are spilled. -/
theorem walkFunction (hspill : ∀ param, P.Holds [] (spill env param)) {f : Func}
    (hbody : ∀ x ∈ Node.localsOf? f.body, x ∈ locals) :
    P.Holds (Node.literalsOf? f.body) ((Lowering.walkFunction env f : Draft Unit).flat false) := by
  have params (params : List (String × Ty)) : P.Holds [] (lowerParams env params) := by
    induction params with
    | nil => exact P.pure ()
    | cons param params ih =>
      rw [lowerParams_cons]
      exact P.bind (hspill param) fun _ => ih
  rw [flat_walkFunction]
  exact P.bind (P.rescope fun n => [] :: n.scopes) fun _ => P.bind (params f.params) fun _ =>
    bodyDraft hbody

end GradedProperty

/-! ## Properties without grades -/

/-- A property that the basic steps have and that sequencing keeps. -/
structure StepProperty (env : Env) (locals : Set String) where
  Holds : {α : Type} → Line α → Prop
  quiet {α : Type} {step : Line α} (h : Quiet step) : Holds step
  bind {α β : Type} {x : Line α} {f : α → Line β} (hx : Holds x) (hf : ∀ a, Holds (f a)) :
    Holds (x >>= f)
  write {inst : Inst} (hd : inst.defines = []) (ho : Ordinary env inst) : Holds (emit inst)
  computed {inst : String → Inst} (hd : ∀ x, (inst x).defines = [x])
    (ho : ∀ x, Ordinary env (inst x)) :
    Holds (temp >>= fun x => emit (inst x) >>= fun _ => Pure.pure x)
  hidden {type : String} (h : env.Prints type) : Holds (hiddenSlot type)
  array (size : Nat) {element : String} (h : env.Prints element) : Holds (beginArray size element)
  define {name : String} (h : name ∈ locals) (type : Ty) : Holds (beginDefine env name type)
  call (name : String) {type : String} {args : List (String × Value)}
    (ht : env.PrintsAll (type :: args.map Prod.fst)) (span : Span) :
    Holds (addLocation env span >>= fun location =>
      emit (.call name type (.null "void call") args (env.variadic.get? name) location))
  result (name : String) {type : String} {args : List (String × Value)}
    (ht : env.PrintsAll (type :: args.map Prod.fst)) (span : Span) :
    Holds (temp >>= fun x => addLocation env span >>= fun location =>
      emit (.call name type (.var x) args (env.variadic.get? name) location) >>= fun _ =>
        Pure.pure x)

variable {env : Env} {locals : Set String}

theorem StepProperty.built (P : StepProperty env locals) {step : Line α}
    (h : Built env locals step) : P.Holds step := by
  induction h with
  | quiet h => exact P.quiet h
  | bind _ _ ihx ihf => exact P.bind ihx ihf
  | write hd ho => exact P.write hd ho
  | @compute α inst hd ho k _ ih =>
    change P.Holds ((temp >>= fun x => emit (inst x) >>= fun _ => Pure.pure x) >>= k)
    exact P.bind (P.computed hd ho) ih
  | hidden h => exact P.hidden h
  | array size h => exact P.array size h
  | define h type => exact P.define h type
  | call name ht span _ ih =>
    rw [← line_bind_assoc]
    exact P.bind (P.call name ht span) fun _ => ih
  | @result α name type args ht span k _ ih =>
    have split : (temp >>= fun x => addLocation env span >>= fun location =>
        emit (.call name type (.var x) args (env.variadic.get? name) location) >>= fun _ => k x) =
        (temp >>= fun x => addLocation env span >>= fun location =>
          emit (.call name type (.var x) args (env.variadic.get? name) location) >>= fun _ =>
            Pure.pure x) >>= k := by
      simp only [line_bind_assoc]
      rfl
    rw [split]
    exact P.bind (P.result name ht span) ih

/-- A property of all straight-line steps of a walk, those for string literals and scopes
included. -/
structure LineProperty (env : Env) (locals : Set String) extends StepProperty env locals where
  string (literal : String) (type : Ty) : Holds (pushString literal type)
  rescope (f : Names → List (List (String × String))) :
    Holds (modify fun n => { n with scopes := f n } : Line Unit)

namespace LineProperty

variable (P : LineProperty env locals)

/-- The property, whatever the literals are. -/
def graded : GradedProperty env locals where
  Holds _ step := P.Holds step
  mono h _ := h
  built := P.built
  bind := P.bind
  string := P.string
  rescope := P.rescope

variable {P} in
/-- The property holds of the walk over a body. -/
theorem bodyDraft {f : Func} (hbody : ∀ x ∈ Node.localsOf? f.body, x ∈ locals) :
    P.Holds ((Lowering.bodyDraft env f).flat false) := P.graded.bodyDraft hbody

variable {P} in
theorem walkFunction (hspill : ∀ param, P.Holds (spill env param)) {f : Func}
    (hbody : ∀ x ∈ Node.localsOf? f.body, x ∈ locals) :
    P.Holds ((Lowering.walkFunction env f : Draft Unit).flat false) :=
  P.graded.walkFunction hspill hbody

end LineProperty

/-! ## Functions -/

/-- The instructions of a lowered function are those of its draft, without those that nothing
reaches. -/
theorem insts_lowerFunction (env : Env) (f : Func) (strings : List String)
    (debugInfo : Ir.DebugInfo) :
    (lowerFunction env f strings debugInfo).function.insts.Sublist
      (draftOf env f strings debugInfo).code.insts := by
  have blocks := (draftOf env f strings debugInfo).code.insts_blocks (fallback f)
  rw [← finalState_blocks] at blocks
  rw [← blocks]
  exact List.filter_sublist.flatMap _

theorem slots_lowerFunction (env : Env) (f : Func) (strings : List String)
    (debugInfo : Ir.DebugInfo) :
    (lowerFunction env f strings debugInfo).function.slots =
      (draftOf env f strings debugInfo).notes.slots := by
  change (finalState env f strings debugInfo).notes.slots = _
  rw [finalState_eq]

theorem insts_replace (r : Inst → Option Inst) (g : Ir.Function) :
    (g.replace r).insts = g.insts.map (Ir.replaceInst r) := by
  simp [Ir.Function.insts, Ir.Function.replace, Ir.Block.replace, List.flatMap_map,
    List.map_flatMap]

end Codegen.Lowering
