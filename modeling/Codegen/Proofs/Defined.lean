import Codegen.Proofs.Known
import Codegen.Proofs.Simulation

/-!
# Structured code that reads only known names

`Code.Safe` checks structured code from its start to its end: every name it reads is known where
control gets there, whichever way it goes.  Its blocks have the same property along every path
(`Code.covered`), for as many blocks as one likes to follow.
-/

namespace Codegen.Ir

/-- For the next `k` blocks from a label on, on every way, only known names are read. -/
def Function.Covered (f : Function) : (k : Nat) → Label → (known : Set String) → Prop
  | 0, _, _ => True
  | k + 1, l, known => ∃ b, f.block? l = some b ∧ Readable known b.insts ∧
      (∀ v ∈ b.terminator.reads, v.Known (extendAll known b.insts)) ∧
      ∀ l ∈ b.successors, f.Covered k l (extendAll known b.insts)

section Covered

variable {f : Function} {known known' : Set String}

theorem extendAll_mono (h : known ⊆ known') (insts : List Inst) :
    extendAll known insts ⊆ extendAll known' insts := by
  induction insts generalizing known known' with
  | nil => exact h
  | cons inst insts ih => exact ih (inst.extend_mono h)

theorem Readable.mono {insts : List Inst} (hr : Readable known insts) (h : known ⊆ known') :
    Readable known' insts := by
  induction insts generalizing known known' with
  | nil => trivial
  | cons inst insts ih =>
    exact ⟨fun v hv => (hr.1 v hv).mono h, ih hr.2 (inst.extend_mono h)⟩

theorem Function.Covered.mono {k : Nat} {l : Label} (hc : f.Covered k l known)
    (h : known ⊆ known') : f.Covered k l known' := by
  induction k generalizing l known known' with
  | zero => trivial
  | succ k ih =>
    obtain ⟨b, hb, hi, ht, hl⟩ := hc
    have hext := extendAll_mono h b.insts
    exact ⟨b, hb, hi.mono h, fun v hv => (ht v hv).mono hext, fun l hm => ih (hl l hm) hext⟩

theorem Function.Covered.le {j k : Nat} {l : Label} (hc : f.Covered k l known) (hj : j ≤ k) :
    f.Covered j l known := by
  induction j generalizing k l known with
  | zero => trivial
  | succ j ih =>
    cases k with
    | zero => cases hj
    | succ k =>
      obtain ⟨b, hb, hi, ht, hl⟩ := hc
      exact ⟨b, hb, hi, ht, fun l hm => ih (hl l hm) (Nat.le_of_succ_le_succ hj)⟩

theorem Function.Covered.pred {k : Nat} {l : Label} (hc : f.Covered (k + 1) l known) :
    f.Covered k l known := hc.le k.le_succ

end Covered

end Codegen.Ir

namespace Codegen.Lowering

open Ir (Inst Value Label Terminator Block Readable extendAll)

/-- The names behind a step.  What is defined on one of several ways is not known behind them. -/
def Step.after {inLoop : Bool} : Step inLoop → Set String → Set String
  | .inst i, known => i.extend known
  | _, known => known

/-- The names behind structured code. -/
def Code.after {inLoop : Bool} : Code inLoop → Set String → Set String
  | .done, known => known
  | .cons step rest, known => rest.after (step.after known)

mutual

/-- Structured code reads only what is known. -/
def Code.Safe : {inLoop : Bool} → Code inLoop → Set String → Prop
  | _, .done, _ => True
  | _, .cons step rest, known => step.Safe known ∧ rest.Safe (step.after known)

/-- A step reads only what is known. -/
def Step.Safe : {inLoop : Bool} → Step inLoop → Set String → Prop
  | _, .inst i, known => ∀ v ∈ i.reads, v.Known known
  | _, .guard _ cond right, known => cond.Known known ∧ right.Safe known
  | _, .branch arms, known => arms.Safe known
  | _, .switch value _ cases, known => value.Known known ∧ cases.Safe known
  | _, .loop check cond body update, known =>
    check.Safe known ∧ cond.Known (check.after known) ∧ body.Safe known ∧ update.Safe known
  | _, .jumpOut, _ => True
  | _, .jumpOn, _ => True
  | _, .ret _ value, known => ∀ v ∈ value, v.Known known

/-- The arms of a branch read only what is known. -/
def Arms.Safe : {inLoop : Bool} → Arms inLoop → Set String → Prop
  | _, .nil, _ => True
  | _, .always body rest, known => body.Safe known ∧ rest.Safe known
  | _, .when check cond body rest, known =>
    check.Safe known ∧ cond.Known (check.after known) ∧ body.Safe known ∧ rest.Safe known

/-- The cases of a switch read only what is known. -/
def Cases.Safe : {inLoop : Bool} → Cases inLoop → Set String → Prop
  | _, .nil, _ => True
  | _, .otherwise body, known => body.Safe known
  | _, .case _ body rest, known => body.Safe known ∧ rest.Safe known

end

section Code

variable {inLoop : Bool} {known : Set String}

theorem Step.subset_after (step : Step inLoop) : known ⊆ step.after known := by
  cases step with
  | inst i => exact i.subset_extend
  | _ => exact Set.Subset.rfl

theorem Code.subset_after : (code : Code inLoop) → {known : Set String} → known ⊆ code.after known
  | .done, _ => Set.Subset.rfl
  | .cons step rest, _ => step.subset_after.trans rest.subset_after

@[simp]
theorem Code.after_append : (a b : Code inLoop) → (known : Set String) →
    (a ++ b).after known = b.after (a.after known)
  | .done, _, _ => rfl
  | .cons step rest, b, known => rest.after_append b (step.after known)

theorem Code.safe_append : (a b : Code inLoop) → (known : Set String) →
    ((a ++ b).Safe known ↔ a.Safe known ∧ b.Safe (a.after known))
  | .done, _, _ => (and_iff_right trivial).symm
  | .cons step rest, b, known => by
    have ih := rest.safe_append b (step.after known)
    change step.Safe known ∧ (rest ++ b).Safe (step.after known) ↔ _
    rw [ih, ← and_assoc]
    rfl

@[simp]
theorem Code.after_line (insts : List Inst) :
    (Code.line insts : Code inLoop).after known = extendAll known insts := by
  induction insts generalizing known with
  | nil => rfl
  | cons inst insts ih => exact ih

theorem Code.safe_line {insts : List Inst} :
    (Code.line insts : Code inLoop).Safe known ↔ Readable known insts := by
  induction insts generalizing known with
  | nil => exact Iff.rfl
  | cons inst insts ih => exact and_congr Iff.rfl ih

end Code

/-! ## Sites -/

variable {f : Ir.Function}

variable (f) in
/-- From a site on, for the next `k` blocks, only known names are read. -/
def Site.Covered (k : Nat) (site : Site) (known : Set String) : Prop :=
  ∀ o, site.current = some o → ∃ b rest, f.block? o.label = some b ∧ b.insts = o.insts ++ rest ∧
    Readable known rest ∧ (∀ v ∈ b.terminator.reads, v.Known (extendAll known rest)) ∧
    ∀ l ∈ b.successors, f.Covered k l (extendAll known rest)

section Sites

variable {s : Site} {k : Nat} {known known' : Set String}

theorem Site.Covered.mono (hc : s.Covered f k known) (h : known ⊆ known') :
    s.Covered f k known' := by
  intro o ho
  obtain ⟨b, rest, hb, hi, hr, ht, hl⟩ := hc o ho
  have hext := Ir.extendAll_mono h rest
  exact ⟨b, rest, hb, hi, hr.mono h, fun v hv => (ht v hv).mono hext,
    fun l hm => (hl l hm).mono hext⟩

theorem covered_of_start {l : Label} {comment : String} {next : Label}
    (h : Site.Covered f k ⟨some { label := l, comment }, next⟩ known) :
    f.Covered (k + 1) l known := by
  obtain ⟨b, rest, hb, hi, hr, ht, hl⟩ := h _ rfl
  obtain rfl : b.insts = rest := hi
  exact ⟨b, hb, hr, ht, hl⟩

theorem covered_of_joined {comment : String} (h : (s.joined comment).Covered f k known) :
    f.Covered (k + 1) s.next known := covered_of_start h

theorem covered_of_forked {comment : String} (h : (s.forked comment).Covered f k known) :
    f.Covered (k + 1) s.next known := covered_of_start h

theorem covered_close {t : Terminator} (hf : Holds f [s.last.close t])
    (ht : ∀ v ∈ t.reads, v.Known known)
    (hl : ∀ l ∈ t.targets.filterMap id, f.Covered k l known) : s.Covered f k known := by
  intro o ho
  have hb := hf _ (List.mem_singleton_self _)
  rw [Site.last, ho] at hb
  exact ⟨_, [], hb, (List.append_nil _).symm, trivial, ht, hl⟩

theorem covered_leaving {l : Label} (hf : Holds f (s.leaving l)) (h : f.Covered k l known) :
    s.Covered f k known := by
  intro o ho
  have hb := hf (o.close (.goto (some l))) (by simp [Site.leaving, ho])
  exact ⟨_, [], hb, (List.append_nil _).symm, trivial, List.forall_mem_nil _,
    List.forall_mem_singleton.2 h⟩

theorem covered_opened {comment : String} (h : (s.opened comment).Covered f k known) :
    s.Covered f k known := by
  intro o ho
  rw [Site.opened, ho] at h
  exact h o ho

theorem covered_fork {holds : Bool} {cond : Value} {other : Label}
    (hf : Holds f [s.fork holds cond other]) (hc : cond.Known known)
    (hn : f.Covered k s.next known) (ho : f.Covered k other known) : s.Covered f k known := by
  intro o hcur
  have hb := hf _ (List.mem_singleton_self _)
  rw [Site.fork, Site.last, Site.drawn, hcur] at hb
  refine ⟨_, [], hb, (List.append_nil _).symm, trivial, ?_, ?_⟩
  · cases holds <;> exact List.forall_mem_singleton.2 hc
  · cases holds with
    | true => exact List.forall_mem_cons.2 ⟨hn, List.forall_mem_singleton.2 ho⟩
    | false => exact List.forall_mem_cons.2 ⟨ho, List.forall_mem_singleton.2 hn⟩

theorem covered_appended {inst : Inst} (hr : ∀ v ∈ inst.reads, v.Known known)
    (h : (s.appended inst).Covered f k (inst.extend known)) : s.Covered f k known := by
  intro o ho
  have current : (s.appended inst).current = some { o with insts := o.insts ++ [inst] } := by
    simp [Site.appended, Site.opened, ho]
  obtain ⟨b, rest, hb, hi, hrest, ht, hl⟩ := h _ current
  exact ⟨b, inst :: rest, hb, by simpa using hi, ⟨hr, hrest⟩, ht, hl⟩

end Sites

theorem Cases.covered_behind : {inLoop : Bool} → (cases : Cases inLoop) → {next : Label} →
    {k : Nat} → {known : Set String} → (cases.place next).site.Covered f k known →
    f.Covered k (cases.place next).behind known
  | _, .nil, _, _, _, h => (covered_of_joined h).pred
  | _, .otherwise _, _, _, _, h => (covered_of_joined h).pred
  | _, .case _ _ rest, _, _, _, h => rest.covered_behind h

/-! ## Structured code -/

/-- The ways out of a loop around code lead to blocks that read only what is known. -/
def LoopCovered (f : Ir.Function) (inLoop : Bool) (k : Nat) (w : Way → Label) (known : Set String) :
    Prop :=
  inLoop = true → f.Covered k (w .out) known ∧ f.Covered k (w .on) known

theorem LoopCovered.mono {inLoop : Bool} {k : Nat} {w : Way → Label} {known known' : Set String}
    (hw : LoopCovered f inLoop k w known) (h : known ⊆ known') :
    LoopCovered f inLoop k w known' := fun hl => (hw hl).imp (·.mono h) (·.mono h)

/-- The rounds of a loop, by the number of blocks: a round comes back to the entry, and a continue
to the update, only with a block more behind it. -/
theorem covered_rounds {k : Nat} {known : Set String} {entry out : Label} (inner next : Label)
    (hout : f.Covered k out known)
    (hcheck : ∀ j, f.Covered j out known → f.Covered j next known → f.Covered j inner known →
      f.Covered (j + 1) entry known)
    (hbody : ∀ j, f.Covered j out known → f.Covered j next known → f.Covered (j + 1) inner known)
    (hupdate : ∀ j, f.Covered j out known → f.Covered j next known → f.Covered j entry known →
      f.Covered (j + 1) next known) : f.Covered k entry known := by
  have rounds (j : Nat) (hj : j ≤ k) : f.Covered j entry known ∧ f.Covered j next known := by
    induction j with
    | zero => exact ⟨trivial, trivial⟩
    | succ j ih =>
      obtain ⟨hentry, hnext⟩ := ih (Nat.le_of_succ_le hj)
      have hout := hout.le (Nat.le_of_succ_le hj)
      exact ⟨hcheck j hout hnext (hbody j hout hnext).pred, hupdate j hout hnext hentry⟩
  exact (rounds k le_rfl).1

mutual

/-- Blocks read only what is known if the structured code does that they come from. -/
theorem Code.covered : {inLoop : Bool} → (code : Code inLoop) → {s : Site} → {w : Way → Label} →
    {k : Nat} → {known : Set String} → Holds f ((code.place s).blocks w) → code.Safe known →
    (code.place s).site.Covered f k (code.after known) → LoopCovered f inLoop k w known →
    s.Covered f k known
  | _, .done, _, _, _, _, _, _, hs, _ => hs
  | _, .cons step rest, _, _, _, _, hf, h, hs, hw =>
    step.covered hf.left h.1 (rest.covered hf.right h.2 hs (hw.mono step.subset_after)) hw

theorem Step.covered : {inLoop : Bool} → (step : Step inLoop) → {s : Site} → {w : Way → Label} →
    {k : Nat} → {known : Set String} → Holds f ((step.place s).blocks w) → step.Safe known →
    (step.place s).site.Covered f k (step.after known) → LoopCovered f inLoop k w known →
    s.Covered f k known
  | _, .inst _, _, _, _, _, _, h, hs, _ => covered_appended h hs
  | _, .guard isAnd cond right, s, w, k, known, hf, h, hs, hw => by
    have hf : Holds f ([s.fork isAnd cond _] ++ (_ ++ _)) := hf
    have behind := (covered_of_joined hs).pred
    have after := (covered_leaving hf.right.right behind).mono right.subset_after
    exact covered_fork hf.left h.1
      (covered_of_forked (right.covered hf.right.left h.2 after hw)).pred behind
  | _, .branch arms, s, w, k, known, hf, h, hs, hw => by
    refine arms.covered hf.left ?_ h ?_ (fun hl => hw hl)
    · rw [Function.update_self]
      exact hf.right
    · rw [Function.update_self]
      exact (covered_of_joined hs).pred
  | _, .switch value type cases, s, w, k, known, hf, h, hs, hw => by
    have hf : Holds f ([s.last.close _] ++ _) := hf
    refine covered_close hf.left (List.forall_mem_singleton.2 h.1) fun l hl => ?_
    refine cases.covered hf.right (Function.update_self _ _ _) h.2 (cases.covered_behind hs)
      (fun hl => hw hl) l ?_
    simpa [Terminator.targets] using hl
  | _, .loop check cond body update, s, w, k, known, hf, h, hs, hw => by
    have hf : Holds f (_ ++ _ ++ [_] ++ _ ++ _ ++ _ ++ [_]) := hf
    obtain ⟨hcheck, hcond, hbody, hupdate⟩ := h
    let c := check.place (s.joined "loop.entry")
    let b := body.place (c.site.forked "loop.body")
    refine covered_leaving hf.left.left.left.left.left.left ?_
    refine covered_rounds c.site.next (b.site.opened "loop.ret.end").next
      (covered_of_joined hs).pred (fun j hout hnext hin => ?_) (fun j hout hnext => ?_)
      (fun j hout hnext hentry => ?_)
    · have test := covered_fork hf.left.left.left.left.right hcond (hin.mono check.subset_after)
        (hout.mono check.subset_after)
      exact covered_of_joined <|
        check.covered hf.left.left.left.left.left.right hcheck test fun _ => ⟨hout, hnext⟩
    · have behind := covered_opened (covered_leaving hf.left.left.right
        (hnext.mono body.subset_after))
      exact covered_of_forked <|
        body.covered hf.left.left.left.right hbody behind fun _ => ⟨hout, hnext⟩
    · have again := covered_close hf.right (List.forall_mem_nil _)
        (List.forall_mem_singleton.2 (hentry.mono update.subset_after))
      exact covered_of_joined <|
        update.covered hf.left.right hupdate again fun _ => ⟨hout, hnext⟩
  | _, .jumpOut, s, w, k, known, hf, _, _, hw =>
    covered_close hf (List.forall_mem_nil _) (List.forall_mem_singleton.2 (hw rfl).1)
  | _, .jumpOn, s, w, k, known, hf, _, _, hw =>
    covered_close hf (List.forall_mem_nil _) (List.forall_mem_singleton.2 (hw rfl).2)
  | _, .ret type value, s, w, k, known, hf, h, _, _ =>
    covered_close hf (fun v hv => h v (Option.mem_toList.1 hv)) (List.forall_mem_nil _)

/-- Behind a branch all of its arms come together at `w .behind`. -/
theorem Arms.covered : {inLoop : Bool} → (arms : Arms inLoop) → {s : Site} → {w : Way → Label} →
    {k : Nat} → {known : Set String} → Holds f ((arms.place s).blocks w) →
    Holds f ((arms.place s).site.leaving (w .behind)) → arms.Safe known →
    f.Covered k (w .behind) known → LoopCovered f inLoop k w known → s.Covered f k known
  | _, .nil, s, w, k, known, _, hl, _, hb, _ => covered_leaving hl hb
  | _, .always body rest, s, w, k, known, hf, hl, h, hb, hw => by
    have behind := covered_opened (covered_close hf.left.right (List.forall_mem_nil _)
      (List.forall_mem_singleton.2 (hb.mono body.subset_after)))
    exact body.covered hf.left.left h.1 behind hw
  | _, .when check cond body rest, s, w, k, known, hf, hl, h, hb, hw => by
    obtain ⟨hcheck, hcond, hbody, hrest⟩ := h
    have behind := covered_opened (covered_close hf.left.right (List.forall_mem_nil _)
      (List.forall_mem_singleton.2 (hb.mono body.subset_after)))
    have taken := covered_of_forked (body.covered hf.left.left.right hbody behind hw)
    refine check.covered hf.left.left.left.left hcheck ?_ hw
    refine covered_fork hf.left.left.left.right hcond (taken.pred.mono check.subset_after) ?_
    cases rest with
    | nil => exact hb.mono check.subset_after
    | always body' rest =>
      exact (covered_of_joined ((Arms.always body' rest).covered hf.right hl hrest hb hw)).pred.mono
        check.subset_after
    | when check' cond' body' rest =>
      exact (covered_of_joined ((Arms.when check' cond' body' rest).covered hf.right hl hrest hb
        hw)).pred.mono check.subset_after

theorem Cases.covered : {inLoop : Bool} → (cases : Cases inLoop) → {next : Label} →
    {w : Way → Label} → {k : Nat} → {known : Set String} →
    Holds f ((cases.place next).blocks w) → w .behind = (cases.place next).behind →
    cases.Safe known → f.Covered k (cases.place next).behind known →
    LoopCovered f inLoop k w known →
    ∀ l, (∃ value, (value, l) ∈ (cases.place next).targets) ∨ l = (cases.place next).otherwise →
      f.Covered k l known
  | _, .nil, next, w, k, known, _, _, _, hb, _, l, hl => by
    obtain rfl := hl.resolve_left fun ⟨_, h⟩ => nomatch h
    exact hb
  | _, .otherwise body, next, w, k, known, hf, hw, h, hb, hl, l, hm => by
    obtain rfl := hm.resolve_left fun ⟨_, h⟩ => nomatch h
    refine (covered_of_joined (body.covered hf.left h ?_ hl)).pred
    exact covered_leaving hf.right ((hw.symm ▸ hb).mono body.subset_after)
  | _, .case value body rest, next, w, k, known, hf, hw, h, hb, hl, l, hm => by
    have first := covered_of_joined <| body.covered hf.left.left h.1
      (covered_leaving hf.left.right ((hw.symm ▸ hb).mono body.subset_after)) hl
    have others := rest.covered hf.right hw h.2 hb hl l
    rcases hm with ⟨v, hv⟩ | hm
    · rcases List.mem_cons.1 hv with heq | hv
      · obtain rfl := (Prod.mk.inj heq).2
        exact first.pred
      · exact others (.inl ⟨v, hv⟩)
    · exact others (.inr hm)

end

end Codegen.Lowering
