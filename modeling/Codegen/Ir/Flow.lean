import Codegen.Ir.Module

/-!
# Control flow of a function

Which blocks control can reach, what a well-formed function must satisfy, and the removal of
blocks that nothing reaches.

A function is well formed when its first block is the entry, labels are defined once, every target
is present and defined, and every block can be reached from the entry.
-/

namespace Codegen.Ir

/-- The labels of `unseen` reached from `frontier`: every label found is taken out of `unseen`, so
that each is looked at once. -/
def explore (next : Label → List Label) (unseen frontier : List Label) : List Label :=
  match _found : frontier.filter unseen.contains with
  | [] => []
  | label :: rest => label :: explore next (unseen.erase label) (next label ++ rest)
termination_by unseen.length
decreasing_by
  have hmem : label ∈ frontier.filter unseen.contains := by rw [_found]; simp
  have hunseen : label ∈ unseen := by simpa using (List.mem_filter.1 hmem).2
  have := List.length_erase_of_mem hunseen
  have := List.length_pos_of_mem hunseen
  omega

namespace Function

/-- The block that a jump to the label leads to: the last one with it. -/
def blockAt? (f : Function) (label : Label) : Option Block :=
  (f.blocks.filter fun block => block.label = label).getLast?

/-- The labels that control may go to from a label. -/
def successors (f : Function) (label : Label) : List Label :=
  ((f.blockAt? label).map Block.successors).getD []

/-- Every label that a terminator of the function names, and the entry. -/
def mentioned (f : Function) : List Label :=
  (entryLabel :: f.blocks.flatMap Block.successors).eraseDups

/-- Whether the function starts with its entry. -/
def hasEntry (f : Function) : Bool :=
  (f.blocks.head?.map Block.label) = some entryLabel

/-- The labels that control can reach from the entry. -/
def reachable (f : Function) : List Label :=
  if f.hasEntry then explore f.successors f.mentioned [entryLabel] else []

end Function

/-- A rule that a function breaks. -/
inductive FlowError where
  | missingEntry (function : String)
  | duplicateLabel (function : String) (label : Label)
  | missingTarget (function : String) (block : Label)
  | undefinedTarget (function : String) (block target : Label)
  | unreachableBlock (function : String) (label : Label)
  deriving DecidableEq, Inhabited

/-- The wording of a broken rule. -/
def FlowError.message : FlowError → String
  | missingEntry function => function ++ ": first block is not the entry block"
  | duplicateLabel function label =>
    function ++ ": label " ++ Text.decimal label ++ " defined more than once"
  | missingTarget function block =>
    function ++ ": block " ++ Text.decimal block ++ " has an unpatched branch target"
  | undefinedTarget function block target =>
    function ++ ": block " ++ Text.decimal block ++ " jumps to undefined label " ++
      Text.decimal target
  | unreachableBlock function label =>
    function ++ ": block " ++ Text.decimal label ++ " is unreachable"

/-- The labels that stand in the list before, in order. -/
def repeated (seen : List Label) : List Label → List Label
  | [] => []
  | label :: rest =>
    if seen.contains label then label :: repeated seen rest else repeated (label :: seen) rest

namespace Function

/-- What is wrong with one target of a block. -/
def targetError? (f : Function) (block : Block) : Option Label → Option FlowError
  | none => some (.missingTarget f.name block.label)
  | some target =>
    if (f.blocks.map Block.label).contains target then none
    else some (.undefinedTarget f.name block.label target)

/-- Every rule that the function breaks; a declaration breaks none. -/
def verify (f : Function) : List FlowError :=
  let reached := f.reachable
  if f.isDeclaration then []
  else
    (if f.hasEntry then [] else [.missingEntry f.name]) ++
    (repeated [] (f.blocks.map Block.label)).map (.duplicateLabel f.name) ++
    f.blocks.flatMap (fun block => block.terminator.targets.filterMap (f.targetError? block)) ++
    (f.blocks.filter fun block => !reached.contains block.label).map
      (fun block => .unreachableBlock f.name block.label)

/-- The function without the blocks that control cannot reach. -/
def prune (f : Function) : Function :=
  let reached := f.reachable
  { f with blocks := f.blocks.filter fun block => reached.contains block.label }

/-- The number of blocks that control cannot reach. -/
def pruneCount (f : Function) : Nat := f.blocks.length - f.prune.blocks.length

end Function

/-- Every rule that an implemented function of the module breaks. -/
def Module.verify (m : Module) : List FlowError := m.impls.flatMap Function.verify

end Codegen.Ir
