import Codegen.Proofs.Runs
import Codegen.Proofs.Walk

/-!
# Calls are made in the order of the tree

For every tree with values where values belong and updates that stay in their loops, and for every
list of decisions, a walk along the blocks meets the calls that the tree makes, in this order.
-/

namespace Codegen.Lowering

/-- The calls that a course makes until it ends or the decisions run out. -/
def Course.made (c : Course) (decisions : List Decision) : List String :=
  match c.run { decisions } with
  | .normal t => t.calls
  | .out t => t.calls
  | .on t => t.calls
  | .ended calls => calls

theorem leave_fallback (f : Func) (t : Trace) :
    tracer.leave (fallback f) t = .error t.calls := by
  rw [fallback]
  split <;> rfl

/-- Code that follows a course makes its calls. -/
theorem Code.Follows.finishes {code : Code false} {c : Course} (h : code.Follows c) (f : Func)
    (decisions : List Decision) :
    Finishes tracer code (fallback f) { decisions } (c.made decisions) := by
  have runs := h { decisions }
  have stays := code.runs_stays runs
  rw [Course.made]
  cases ho : c.run { decisions } with
  | normal t =>
    rw [ho] at runs
    exact .behind runs (leave_fallback f t)
  | ended calls =>
    rw [ho] at runs
    exact .ended runs
  | out t =>
    rw [ho] at stays
    exact stays.elim
  | on t =>
    rw [ho] at stays
    exact stays.elim

/-- Control flow and the order of evaluation are those of the tree.  Let a function have a body
with values where values belong, in which the update of a loop has no jump of that loop, and let it
be lowered without an error.  Then for all decisions, one for each test and each switch, a walk
along the blocks from the entry, up to a return, an end of control or the last decision, meets
exactly the calls that the tree makes under these decisions, in this order. -/
theorem calls_follow_the_tree {env : Env} {f : Func} {body : Node} {strings : List String}
    {debugInfo : Ir.DebugInfo} (hbody : f.body = some body) (hwell : body.WellFormed)
    (h : (lowerFunction env f strings debugInfo).errors = []) (decisions : List Decision)
    (calls : List String) :
    tracer.Ends (lowerFunction env f strings debugInfo).function Ir.entryLabel { decisions } calls ↔
      calls = (nodeCourse env body).made decisions := by
  have course : bodyCourse env f = nodeCourse env body := by rw [bodyCourse, hbody]; rfl
  have fits : ∀ body ∈ f.body, body.Fits true := by
    intro body' hm
    obtain rfl : body = body' := Option.some.inj (hbody.symm.trans hm)
    exact hwell.fits
  obtain ⟨-, follows⟩ := draftOf_follows env fits h
  have ends := ends_of_finishes ((follows rfl).finishes f decisions)
  rw [course] at ends
  exact ⟨fun h => h.unique ends, fun h => h ▸ ends⟩

namespace Sample

open Codegen.Sample

/-- A call of a function of the module `m`. -/
def invoke (name : String) (type : Ty) (args : List Node) : Node :=
  node <| .call type
    [ node (.callId name { name, path := "m", isGlobal := true }),
      node (.callFunc type args []) ]

/-- Loops while `more() && !done()` over `step(next(), last())`. -/
def drainBody : Node := node <| .loop
  (node (.binary .cmpAnd bool (invoke "more" bool [])
    (node (.unary .lnot bool (invoke "done" bool [])))))
  (node (.block [invoke "step" i64 [invoke "next" i64 [], invoke "last" i64 []]]))
  none

def drain : Func := { name := "drain", returnType := .void, body := some drainBody }

def symbols : SymbolTable :=
  ["more", "done", "step", "next", "last"].foldl
    (fun table name => table.addFunction "m" { name }) {}

def env : Env where
  symbols := symbols
  types := .ofSymbols symbols
  layouts := .compute {} symbols
  variadic := ∅
  record := none

end Sample

theorem drain_calls_follow_the_tree :
    Sample.drain.body = some Sample.drainBody ∧ Sample.drainBody.WellFormed ∧
      (lowerFunction Sample.env Sample.drain [] {}).errors = [] ∧
      tracer.Ends (lowerFunction Sample.env Sample.drain [] {}).function Ir.entryLabel
        { decisions := [.test true, .test true, .test true, .test false, .test false] }
        ["m.more", "m.done", "m.next", "m.last", "m.step", "m.more", "m.done"] := by
  have well : Sample.drainBody.WellFormed := by decide
  have errors : (lowerFunction Sample.env Sample.drain [] {}).errors = [] := by decide +kernel
  exact ⟨rfl, well, errors, (calls_follow_the_tree rfl well errors _ _).2 (by decide +kernel)⟩

end Codegen.Lowering
