import Codegen.Proofs.Placement

/-!
# How blocks end

The blocks of structured code end with jumps whose targets are known, and with the switches and
returns of the code.  So what is true of those terminators is true of all of them
(`Code.ending_blocks`).
-/

namespace Codegen.Lowering

open Ir (Value Label Terminator Block)

mutual

/-- The types of what structured code switches on and of what it returns. -/
def Code.endTypes : {inLoop : Bool} → Code inLoop → List String
  | _, .done => []
  | _, .cons step rest => step.endTypes ++ rest.endTypes

def Step.endTypes : {inLoop : Bool} → Step inLoop → List String
  | _, .inst _ => []
  | _, .guard _ _ right => right.endTypes
  | _, .branch arms => arms.endTypes
  | _, .switch _ type cases => type :: cases.endTypes
  | _, .loop check _ body update => check.endTypes ++ (body.endTypes ++ update.endTypes)
  | _, .jumpOut => []
  | _, .jumpOn => []
  | _, .ret type _ => [type]

def Arms.endTypes : {inLoop : Bool} → Arms inLoop → List String
  | _, .nil => []
  | _, .always body rest => body.endTypes ++ rest.endTypes
  | _, .when check _ body rest => check.endTypes ++ (body.endTypes ++ rest.endTypes)

def Cases.endTypes : {inLoop : Bool} → Cases inLoop → List String
  | _, .nil => []
  | _, .otherwise body => body.endTypes
  | _, .case _ body rest => body.endTypes ++ rest.endTypes

end

@[simp]
theorem Code.endTypes_append {inLoop : Bool} :
    (a b : Code inLoop) → (a ++ b).endTypes = a.endTypes ++ b.endTypes
  | .done, _ => rfl
  | .cons step rest, b => by
    rw [cons_append, Code.endTypes, Code.endTypes, endTypes_append rest b, List.append_assoc]

@[simp]
theorem Code.endTypes_line {inLoop : Bool} (insts : List Ir.Inst) :
    (line insts : Code inLoop).endTypes = [] := by
  induction insts with
  | nil => rfl
  | cons inst insts ih => exact ih

@[simp]
theorem Code.endTypes_of {inLoop : Bool} (step : Step inLoop) :
    (of step).endTypes = step.endTypes :=
  List.append_nil _

/-- The property holds of all terminators that code with ends of these types can have. -/
structure Ends (P : Terminator → Prop) (types : Set String) : Prop where
  goto (l : Label) : P (.goto (some l))
  branch (cond : Value) (onTrue onFalse : Label) : P (.branch cond (some onTrue) (some onFalse))
  switch {type : String} (h : type ∈ types) (value : Value) (cases : List (Int × Label))
    (otherwise : Label) : P (.switch value type cases (some otherwise))
  ret {type : String} (h : type ∈ types) (value : Option Value) : P (.ret type value)

/-- Every block ends with a terminator that has the property. -/
def Ending (P : Terminator → Prop) (blocks : List Block) : Prop := ∀ b ∈ blocks, P b.terminator

section Ending

variable {P : Terminator → Prop} {types : Set String} {a b : List Block}

theorem ending_nil : Ending P [] := fun _ h => nomatch h

theorem Ending.append (ha : Ending P a) (hb : Ending P b) : Ending P (a ++ b) := fun c hc =>
  (List.mem_append.1 hc).elim (ha c) (hb c)

theorem ending_close (o : OpenBlock) {t : Terminator} (ht : P t) : Ending P [o.close t] :=
  List.forall_mem_singleton.2 ht

variable (hP : Ends P types)

include hP

theorem ending_goto (o : OpenBlock) (l : Label) : Ending P [o.close (.goto (some l))] :=
  ending_close o (hP.goto l)

theorem ending_leaving (s : Site) (l : Label) : Ending P (s.leaving l) := by
  obtain ⟨_ | b, _⟩ := s
  · exact ending_nil
  · exact ending_goto hP b l

theorem ending_fork (s : Site) (holds : Bool) (cond : Value) (other : Label) :
    Ending P [s.fork holds cond other] := by
  cases holds <;> exact ending_close _ (hP.branch _ _ _)

end Ending

section Place

variable {P : Terminator → Prop} {types : Set String}

-- One case for each way to put code together; the ends of a part are among those of the whole.
mutual

theorem Code.ending_place (hP : Ends P types) : {inLoop : Bool} → (code : Code inLoop) →
    (∀ t ∈ code.endTypes, t ∈ types) → (s : Site) → (w : Way → Label) →
    Ending P ((code.place s).blocks w)
  | _, .done, _, _, _ => ending_nil
  | _, .cons step rest, h, s, w => by
    obtain ⟨hstep, hrest⟩ := List.forall_mem_append.1 h
    exact (step.ending_place hP hstep s w).append (rest.ending_place hP hrest _ w)

theorem Step.ending_place (hP : Ends P types) : {inLoop : Bool} → (step : Step inLoop) →
    (∀ t ∈ step.endTypes, t ∈ types) → (s : Site) → (w : Way → Label) →
    Ending P ((step.place s).blocks w)
  | _, .inst _, _, _, _ => ending_nil
  | _, .guard isAnd cond right, h, s, w =>
    (ending_fork hP s isAnd cond _).append <|
      (right.ending_place hP h _ w).append (ending_leaving hP _ _)
  | _, .branch arms, h, s, w => (arms.ending_place hP h s _).append (ending_leaving hP _ _)
  | _, .switch value type cases, h, s, w => by
    obtain ⟨htype, hcases⟩ := List.forall_mem_cons.1 h
    exact (ending_close s.last (hP.switch htype _ _ _)).append (cases.ending_place hP hcases _ _)
  | _, .loop check cond body update, h, s, w => by
    obtain ⟨hcheck, h⟩ := List.forall_mem_append.1 h
    obtain ⟨hbody, hupdate⟩ := List.forall_mem_append.1 h
    exact (ending_leaving hP s _).append (check.ending_place hP hcheck _ _)
      |>.append (ending_fork hP _ _ _ _)
      |>.append (body.ending_place hP hbody _ _) |>.append (ending_leaving hP _ _)
      |>.append (update.ending_place hP hupdate _ _) |>.append (ending_goto hP _ _)
  | _, .jumpOut, _, s, w => ending_goto hP s.last (w .out)
  | _, .jumpOn, _, s, w => ending_goto hP s.last (w .on)
  | _, .ret _ _, h, s, _ => ending_close s.last (hP.ret (h _ List.mem_cons_self) _)

theorem Arms.ending_place (hP : Ends P types) : {inLoop : Bool} → (arms : Arms inLoop) →
    (∀ t ∈ arms.endTypes, t ∈ types) → (s : Site) → (w : Way → Label) →
    Ending P ((arms.place s).blocks w)
  | _, .nil, _, _, _ => ending_nil
  | _, .always body rest, h, s, w => by
    obtain ⟨hbody, hrest⟩ := List.forall_mem_append.1 h
    exact (body.ending_place hP hbody s w).append (ending_goto hP _ _)
      |>.append (rest.ending_place hP hrest _ w)
  | _, .when check _ body rest, h, s, w => by
    obtain ⟨hcheck, h⟩ := List.forall_mem_append.1 h
    obtain ⟨hbody, hrest⟩ := List.forall_mem_append.1 h
    exact (check.ending_place hP hcheck s w).append (ending_fork hP _ _ _ _)
      |>.append (body.ending_place hP hbody _ w) |>.append (ending_goto hP _ _)
      |>.append (rest.ending_place hP hrest _ w)

theorem Cases.ending_place (hP : Ends P types) : {inLoop : Bool} → (cases : Cases inLoop) →
    (∀ t ∈ cases.endTypes, t ∈ types) → (next : Label) → (w : Way → Label) →
    Ending P ((cases.place next).blocks w)
  | _, .nil, _, _, _ => ending_nil
  | _, .otherwise body, h, _, w => (body.ending_place hP h _ w).append (ending_leaving hP _ _)
  | _, .case _ body rest, h, _, w => by
    obtain ⟨hbody, hrest⟩ := List.forall_mem_append.1 h
    exact (body.ending_place hP hbody _ w).append (ending_leaving hP _ _)
      |>.append (rest.ending_place hP hrest _ w)

end

/-- The blocks of a body end as its code does, or with the terminator behind it. -/
theorem Code.ending_blocks (hP : Ends P types) (code : Code false)
    (h : ∀ t ∈ code.endTypes, t ∈ types) {t : Terminator} (ht : P t) :
    Ending P (code.blocks t) := by
  refine (code.ending_place hP h _ _).append ?_
  cases (code.place (Graph.site {})).site.current with
  | none => exact ending_nil
  | some b => exact ending_close b ht

end Place

end Codegen.Lowering
