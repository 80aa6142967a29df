import Codegen.Program

/-!
# Trees with values where values belong

A tree may hold any node anywhere.  `operandsOk` asks that every place where a value is needed
holds a node that has one, and `updateStays` that the update of a loop does not leave the loop.
Both look at one node at a time; `Node.all` asks them of all nodes of a tree, or of all nodes that
are found without going down below some of them.
-/

namespace Codegen

mutual

/-- Whether `p` holds at every node of a tree, where only the nodes with `below` are gone down
below. -/
def Node.all (below p : NodeKind → Bool) : Node → Bool
  | .mk kind _ => p kind && (!below kind || kind.allBelow below p)

/-- Whether `p` holds at every node below a node. -/
def NodeKind.allBelow (below p : NodeKind → Bool) : NodeKind → Bool
  | .block content => Node.allOf below p content
  | .unary _ _ value => value.all below p
  | .binary _ _ left right => left.all below p && right.all below p
  | .convert source _ => source.all below p
  | .array _ _ values => Node.allOf below p values
  | .structInit _ fields => FieldInit.allOf below p fields
  | .call _ chain => Node.allOf below p chain
  | .callIndex _ index => index.all below p
  | .callFunc _ args _ => Node.allOf below p args
  | .define _ _ init => init.all below p
  | .assign _ left right => left.all below p && right.all below p
  | .branch arms => Arm.allOf below p arms
  | .switch condition cases otherwise =>
    condition.all below p && Case.allOf below p cases && Node.allOf? below p otherwise
  | .loop condition body update =>
    condition.all below p && body.all below p && Node.allOf? below p update
  | .ret value _ => Node.allOf? below p value
  | _ => true

/-- Whether `p` holds at every node of some trees. -/
def Node.allOf (below p : NodeKind → Bool) : List Node → Bool
  | [] => true
  | node :: rest => node.all below p && Node.allOf below p rest

/-- Whether `p` holds at every node of a tree, if there is one. -/
def Node.allOf? (below p : NodeKind → Bool) : Option Node → Bool
  | none => true
  | some node => node.all below p

/-- Whether `p` holds at every node of the contents of an initializer. -/
def FieldInit.allOf (below p : NodeKind → Bool) : List FieldInit → Bool
  | [] => true
  | .mk _ content _ :: rest => content.all below p && FieldInit.allOf below p rest

/-- Whether `p` holds at every node of the arms of a branch. -/
def Arm.allOf (below p : NodeKind → Bool) : List Arm → Bool
  | [] => true
  | .mk condition body _ :: rest =>
    Node.allOf? below p condition && body.all below p && Arm.allOf below p rest

/-- Whether `p` holds at every node of the cases of a switch. -/
def Case.allOf (below p : NodeKind → Bool) : List Case → Bool
  | [] => true
  | .mk _ body _ :: rest => body.all below p && Case.allOf below p rest

end

/-- The condition of an arm. -/
def Arm.condition : Arm → Option Node
  | .mk condition _ _ => condition

/-- The content of a field. -/
def FieldInit.content : FieldInit → Node
  | .mk _ content _ => content

namespace NodeKind

/-- Whether a node that has a value stands everywhere the node needs one. -/
def operandsOk : NodeKind → Bool
  | .unary _ _ value => value.isExpression
  | .binary _ _ left right => left.isExpression && right.isExpression
  | .convert source _ => source.isExpression
  | .array _ _ values => values.all Node.isExpression
  | .structInit _ fields => fields.all fun field => field.content.isExpression
  | .call _ (head :: _) => head.isExpression
  | .callIndex _ index => index.isExpression
  | .callFunc _ args _ => args.all Node.isExpression
  | .define _ _ init => init.isExpression
  | .assign _ left right => left.isExpression && right.isExpression
  | .branch arms => arms.all fun arm => arm.condition.all Node.isExpression
  | .switch condition _ _ => condition.isExpression
  | .loop condition _ _ => condition.isExpression
  | .ret value _ => value.all Node.isExpression
  | _ => true

/-- Whether the node jumps out of a loop or to its next round. -/
def isJump : NodeKind → Bool
  | .breakLoop | .continueLoop => true
  | _ => false

/-- Whether the node is a loop. -/
def isLoop : NodeKind → Bool
  | .loop .. => true
  | _ => false

/-- Whether the update of a loop has no jump that belongs to the loop. -/
def updateStays : NodeKind → Bool
  | .loop _ _ (some update) => update.all (!·.isLoop) (!·.isJump)
  | _ => true

/-- Whether both are so. -/
def wellFormed (kind : NodeKind) : Bool := kind.operandsOk && kind.updateStays

/-- What is asked of a node: the update of a loop matters only where `strict`. -/
def fits (strict : Bool) (kind : NodeKind) : Bool :=
  kind.operandsOk && (!strict || kind.updateStays)

variable {strict : Bool} {kind : NodeKind}

theorem operandsOk_of_fits (h : kind.fits strict = true) : kind.operandsOk = true :=
  (Bool.and_eq_true_iff.1 h).1

theorem updateStays_of_fits (h : kind.fits strict = true) (hs : strict = true) :
    kind.updateStays = true := by
  subst hs
  exact (Bool.and_eq_true_iff.1 h).2

theorem fits_false : fits false = operandsOk := funext fun _ => Bool.and_true _

end NodeKind

/-- A tree with values where values belong. -/
def Node.OperandsOk (node : Node) : Prop := node.all (fun _ => true) (·.operandsOk)

/-- A tree with values where values belong, in which the update of a loop stays in the loop. -/
def Node.WellFormed (node : Node) : Prop :=
  node.all (fun _ => true) (·.wellFormed)

instance (node : Node) : Decidable node.OperandsOk := inferInstanceAs (Decidable (_ = true))

instance (node : Node) : Decidable node.WellFormed := inferInstanceAs (Decidable (_ = true))

/-- A tree with what is asked of every node. -/
def Node.Fits (strict : Bool) (node : Node) : Prop := node.all (fun _ => true) (·.fits strict)

theorem Node.OperandsOk.fits {node : Node} (h : node.OperandsOk) : node.Fits false := by
  rw [Node.Fits, NodeKind.fits_false]
  exact h

theorem Node.WellFormed.fits {node : Node} (h : node.WellFormed) : node.Fits true := h

/-! ## A function to look at -/

namespace Sample

def i64 : Ty := { name := "i64" }

def bool : Ty := { name := "bool" }

/-- A tree without a position. -/
def node (kind : NodeKind) : Node := .mk kind {}

/-- The value of a local. -/
def read (name : String) (type : Ty) : Node := node (.call type [node (.callId name type)])

def number (literal : String) : Node := node (.number literal i64)

/-- Counts up to `n`, or to 7 if that comes first. -/
def countUp : Func where
  name := "count_up"
  params := [("n", i64)]
  returnType := i64
  body := some <| node <| .block
    [ node (.define "i" i64 (number "0")),
      node <| .loop
        (node (.binary .cmpAnd bool
          (node (.binary .less bool (read "i" i64) (read "n" i64)))
          (node (.binary .cmpNeq bool (read "i" i64) (number "7")))))
        (node (.block [node (.assign .addEq (read "i" i64) (number "1"))]))
        none,
      node (.ret (some (read "i" i64)) false) ]

end Sample

end Codegen
