import Codegen.Ir.Printer
import Codegen.Proofs.WriteOnce

/-!
# Labels and names

A block is printed under `label.` and its number in hexadecimal digits, the slot of a local under
its name, a dot and another number in decimal digits.  The two meet when a local is called `label`
(`exists_label_like_a_slot`), and never otherwise (`label_names_meet_only_slots_of_label`): the part
of a name in front of its last dot tells them apart from everything else.
-/

namespace Codegen.Text

/-- The characters that hexadecimal digits are written with. -/
def hexDigits : List Char := "0123456789abcdef".toList

theorem mem_hexDigits_of_mem {n : Nat} {c : Char} (h : c ∈ (hexadecimal n).toList) :
    c ∈ hexDigits := by
  rw [hexadecimal, String.toList_ofList] at h
  have digit : ∀ d < 16, d.digitChar ∈ hexDigits := by decide
  induction n using Nat.strong_induction_on with
  | h n ih =>
    rw [Nat.toDigits_eq_if (by decide)] at h
    split at h
    · rename_i hn
      obtain rfl := List.mem_singleton.1 h
      exact digit n hn
    · rename_i hn
      rcases List.mem_append.1 h with h | h
      · exact ih (n / 16) (by omega) h
      · obtain rfl := List.mem_singleton.1 h
        exact digit (n % 16) (by omega)

end Codegen.Text

namespace Codegen.Ir

/-- What stands behind the last dot of a printed label. -/
def labelEnding (label : Label) : String :=
  if label = entryLabel then "entry" else Text.hexadecimal label

theorem labelName_eq (label : Label) : labelName label = "label" ++ "." ++ labelEnding label := by
  rw [labelName, labelEnding]
  split <;> rfl

/-- A label ends in `entry` or in hexadecimal digits. -/
theorem labelEnding_ne {label : Label} {s : String} (he : s ≠ "entry")
    (hs : s.toList.all (Text.hexDigits.contains ·) = false) : labelEnding label ≠ s := by
  rintro rfl
  obtain ⟨c, hc, hd⟩ := List.all_eq_false.1 hs
  unfold labelEnding at he hc
  split at hc
  · rename_i h
    simp [h] at he
  · exact hd (List.contains_iff_mem.2 (Text.mem_hexDigits_of_mem hc))

theorem dot_notMem_labelEnding (label : Label) : '.' ∉ (labelEnding label).toList := by
  unfold labelEnding
  split
  · decide
  · intro h
    exact absurd (Text.mem_hexDigits_of_mem h) (by decide)

end Codegen.Ir

namespace Codegen.Lowering

open Ir (Label labelName labelEnding)

/-- Of all names that a walk makes up, a label can only be the slot of a local called `label`. -/
theorem Origin.eq_of_labelName {o : Origin} {label : Label} (h : labelName label = o.name) :
    ∃ number, o = .defined "label" number ∧ Text.hexadecimal label = Text.decimal number := by
  cases he : o.ending? with
  | none =>
    have dot : '.' ∈ (labelName label).toList := by
      rw [Ir.labelName_eq]
      simp [String.toList_append]
    exact absurd (h ▸ dot) (Origin.dot_notMem_name he)
  | some ending =>
    rw [Ir.labelName_eq, Origin.name_of_ending he] at h
    obtain ⟨hstem, rfl⟩ :=
      Text.dot_append_inj h (Ir.dot_notMem_labelEnding label) (Origin.dot_notMem_ending he)
    cases o <;> simp only [Origin.ending?, Option.some.injEq, reduceCtorEq] at he
    case defined x number =>
      refine ⟨number, congrArg (Origin.defined · number) hstem.symm, ?_⟩
      unfold labelEnding at he
      split at he
      · exact absurd he (Text.decimal_ne (by decide) number)
      · exact he.symm
    all_goals exact absurd he.symm (Ir.labelEnding_ne (by decide) (by decide))

/-- In a program that is lowered without an error, the printed label of a block is the name of an
argument, a stack slot or a result of an instruction of the same function only if it is the slot of
a local called `label`.  So labels and names stay apart in every function without such a local. -/
theorem label_names_meet_only_slots_of_label {context : Context} {symbols : SymbolTable}
    {config : Config} {m : Ir.Module} (h : lowerProgram context symbols config = .ok m) :
    List.Forall₂ (fun f g => ∀ b ∈ g.blocks, labelName b.label ∈ g.defined →
      "label" ∈ Node.localsOf? f.body ∧
        ∃ number, labelName b.label = "label." ++ Text.decimal number)
      context.impls m.impls := by
  obtain ⟨env, gs, hlowered, himpls⟩ := lowerProgram_impls h
  rw [himpls, List.forall₂_map_right_iff]
  refine hlowered.imp fun f g hfg b _ hb => ?_
  obtain ⟨strings, debugInfo, -, rfl⟩ := hfg
  obtain ⟨os, hos, -, hlocals⟩ := exists_origins (env f) f strings debugInfo
  rw [defined_passed] at hb
  have made := hos.subset ((defined_lowerFunction (env f) f strings debugInfo).subset hb)
  obtain ⟨o, ho, hname⟩ := List.mem_map.1 made
  obtain ⟨number, rfl, -⟩ := Origin.eq_of_labelName hname.symm
  exact ⟨hlocals _ _ ho, number, hname.symm⟩

namespace Sample

open Codegen.Sample

/-- The second local is called `name`, and the loop starts the block with the number 1. -/
def looped (name : String) : Func where
  name := "looped"
  returnType := .void
  body := some <| node <| .block
    [ node (.define "first" i64 (number "0")),
      node (.define name i64 (number "0")),
      node (.loop (node (.bool true bool)) (node (.block [node .breakLoop])) none) ]

/-- Whether a block of the function is printed under one of its names. -/
def meets (g : Ir.Function) : Bool := g.blocks.any fun b => g.defined.contains (labelName b.label)

end Sample

theorem looped_label_names_meet_nothing :
    "label" ∉ Node.localsOf? (Sample.looped "labels").body ∧
      ∃ m, lowerProgram { impls := [Sample.looped "labels"] } {} {} = .ok m ∧
        m.impls.map (·.blocks.length) = [4] ∧
        ∀ g ∈ m.impls, ∀ b ∈ g.blocks, labelName b.label ∉ g.defined := by
  have locals : "label" ∉ Node.localsOf? (Sample.looped "labels").body := by decide
  have sizes : (lowerProgram { impls := [Sample.looped "labels"] } {} {}).toOption.map
      (fun m => m.impls.map (·.blocks.length)) = some [4] := by decide +kernel
  cases h : lowerProgram { impls := [Sample.looped "labels"] } {} {} with
  | error e =>
    rw [h] at sizes
    cases sizes
  | ok m =>
    rw [h] at sizes
    refine ⟨locals, m, rfl, Option.some.inj sizes, ?_⟩
    have meet := label_names_meet_only_slots_of_label h
    cases hm : m.impls with
    | nil => exact List.forall_mem_nil _
    | cons g gs =>
      rw [hm] at meet
      obtain ⟨hg, hgs⟩ := List.forall₂_cons.1 meet
      cases hgs
      exact List.forall_mem_singleton.2 fun b hb hd => locals (hg b hb hd).1

/-- The stack slot of a local called `label` can have the name of a block. -/
theorem exists_label_like_a_slot :
    ∃ m, lowerProgram { impls := [Sample.looped "label"] } {} {} = .ok m ∧
      ∃ g ∈ m.impls, ∃ b ∈ g.blocks, labelName b.label ∈ g.defined := by
  have meets : ((lowerProgram { impls := [Sample.looped "label"] } {} {}).toOption.any
      fun m => m.impls.any Sample.meets) = true := by decide +kernel
  cases h : lowerProgram { impls := [Sample.looped "label"] } {} {} with
  | error e =>
    rw [h] at meets
    cases meets
  | ok m =>
    rw [h] at meets
    obtain ⟨g, hg, hm⟩ := List.any_eq_true.1 meets
    obtain ⟨b, hb, hm⟩ := List.any_eq_true.1 hm
    exact ⟨m, rfl, g, hg, b, hb, List.contains_iff_mem.1 hm⟩

end Codegen.Lowering
