import Codegen.Proofs.Course
import Codegen.Proofs.Operands
import Codegen.Proofs.Sketch

/-!
# The calls that a tree makes

`nodeCourse` gives the course of a tree: operands run before what they are operands of and from
left to right, arguments before the call, contents of an initializer in the order they are
written, the left side of an assignment before its right side, and the right operand of a
conjunction or disjunction only if the left one does not decide it.  A left operand that is the
deciding constant decides without a test.
-/

namespace Codegen.Lowering

mutual

/-- What a node does. -/
def nodeCourse (env : Env) : Node → Course
  | .mk kind _ => kindCourse env kind

/-- What a node of a kind does. -/
def kindCourse (env : Env) : NodeKind → Course
  | .block content => nodesCourse env content
  | .unary _ _ value => nodeCourse env value
  | .binary op _ left right =>
    match operation op with
    | .shortCircuit isAnd =>
      nodeCourse env left ++
        if decides isAnd (nodeSketch env left) then .skip else .guard isAnd (nodeCourse env right)
    | _ => nodeCourse env left ++ nodeCourse env right
  | .convert source _ => nodeCourse env source
  | .array _ _ values => nodesCourse env values
  | .structInit _ fields => fieldsCourse env fields
  | .call _ chain => chainCourse env chain
  | .define _ _ init => nodeCourse env init
  | .assign _ left right => nodeCourse env left ++ nodeCourse env right
  | .branch arms => .branch (armCourses env arms)
  | .switch condition cases otherwise =>
    nodeCourse env condition ++ .switch (caseCourses env cases) (defaultCourse env otherwise)
  | .breakLoop => .leave
  | .continueLoop => .next
  | .loop condition body update =>
    .loop (nodeCourse env condition) (nodeCourse env body) (updateCourse env update)
  | .ret none _ => .stop
  | .ret (some value) _ => nodeCourse env value ++ .stop
  | _ => .skip

/-- What nodes do in order. -/
def nodesCourse (env : Env) : List Node → Course
  | [] => .skip
  | node :: rest => nodeCourse env node ++ nodesCourse env rest

/-- What the contents of an initializer do. -/
def fieldsCourse (env : Env) : List FieldInit → Course
  | [] => .skip
  | .mk _ content _ :: rest => nodeCourse env content ++ fieldsCourse env rest

/-- What a chain does. -/
def chainCourse (env : Env) : List Node → Course
  | [] => .skip
  | head :: links => nodeCourse env head ++ linksCourse env (nodeSketch env head) links

/-- What the links of a chain do. -/
def linksCourse (env : Env) (reached : Operand) : List Node → Course
  | [] => .skip
  | link :: rest =>
    linkCourse env reached link ++ linksCourse env (linkSketch env reached link) rest

/-- What a link does to what the chain has reached. -/
def linkCourse (env : Env) (reached : Operand) : Node → Course
  | .mk (.callIndex _ index) _ => nodeCourse env index
  | .mk (.callFunc _ args _) _ =>
    nodesCourse env args ++ .calls [Text.mangle reached.content]
  | .mk _ _ => .skip

/-- What the arms of a branch do. -/
def armCourses (env : Env) : List Arm → List (Option Course × Course)
  | [] => []
  | .mk none body _ :: rest => (none, nodeCourse env body) :: armCourses env rest
  | .mk (some condition) body _ :: rest =>
    (some (nodeCourse env condition), nodeCourse env body) :: armCourses env rest

/-- What the cases of a switch do. -/
def caseCourses (env : Env) : List Case → List (Int × Course)
  | [] => []
  | .mk value body _ :: rest => (value, nodeCourse env body) :: caseCourses env rest

/-- What the default of a switch does. -/
def defaultCourse (env : Env) : Option Node → Option Course
  | none => none
  | some body => some (nodeCourse env body)

/-- What the update of a loop does. -/
def updateCourse (env : Env) : Option Node → Course
  | none => .skip
  | some update => nodeCourse env update

end

/-! ## Trees that stay in the loop around them -/

section Stays

open Course (stays_skip stays_calls stays_stop stays_branch stays_switch stays_loop)

variable (env : Env)

mutual

/-- A tree stays in the loop around it if it is an expression or has no jump of that loop. -/
theorem node_stays : (node : Node) → node.WellFormed →
    node.isExpression = true ∨ node.all (!·.isLoop) (!·.isJump) = true →
    (nodeCourse env node).Stays
  | .mk kind _, h, hj => by
    obtain ⟨hk, hb⟩ := Bool.and_eq_true_iff.1 h
    obtain ⟨hk, hu⟩ := Bool.and_eq_true_iff.1 hk
    exact kind_stays kind hk hu hb hj

theorem kind_stays : (kind : NodeKind) → kind.operandsOk = true → kind.updateStays = true →
    kind.allBelow (fun _ => true) NodeKind.wellFormed = true →
    kind.isExpression = true ∨
      (!kind.isJump && (!!kind.isLoop || kind.allBelow (!·.isLoop) (!·.isJump))) = true →
    (kindCourse env kind).Stays
  | .block content, _, _, hb, hj => nodes_stay content hb (.inr (hj.resolve_left nofun))
  | .unary _ _ value, hk, _, hb, _ => node_stays value hb (.inl hk)
  | .binary op _ left right, hk, _, hb, _ => by
    obtain ⟨hl, hr⟩ := Bool.and_eq_true_iff.1 hk
    obtain ⟨hbl, hbr⟩ := Bool.and_eq_true_iff.1 hb
    have left := node_stays left hbl (.inl hl)
    have right := node_stays right hbr (.inl hr)
    rw [kindCourse]
    split
    · rename_i isAnd _
      refine left.append ?_
      split
      · exact stays_skip
      · cases isAnd with
        | true => exact right.test stays_skip
        | false => exact stays_skip.test right
    · exact left.append right
  | .convert source _, hk, _, hb, _ => node_stays source hb (.inl hk)
  | .array _ _ values, hk, _, hb, _ => nodes_stay values hb (.inl hk)
  | .structInit _ fields, hk, _, hb, _ => fields_stay fields hk hb
  | .call type chain, hk, _, hb, _ => chain_stays type chain hk hb
  | .define _ _ init, hk, _, hb, _ => node_stays init hb (.inl hk)
  | .assign _ left right, hk, _, hb, _ => by
    obtain ⟨hl, hr⟩ := Bool.and_eq_true_iff.1 hk
    obtain ⟨hbl, hbr⟩ := Bool.and_eq_true_iff.1 hb
    exact (node_stays left hbl (.inl hl)).append (node_stays right hbr (.inl hr))
  | .branch arms, hk, _, hb, hj => stays_branch (arms_stay arms hk hb (hj.resolve_left nofun))
  | .switch condition cases otherwise, hk, _, hb, hj => by
    obtain ⟨hb, hbo⟩ := Bool.and_eq_true_iff.1 hb
    obtain ⟨hbc, hbs⟩ := Bool.and_eq_true_iff.1 hb
    obtain ⟨-, hj⟩ := Bool.and_eq_true_iff.1 (hj.resolve_left nofun)
    obtain ⟨hj, hjo⟩ := Bool.and_eq_true_iff.1 hj
    obtain ⟨-, hjs⟩ := Bool.and_eq_true_iff.1 hj
    exact (node_stays condition hbc (.inl hk)).append
      (stays_switch (cases_stay cases hbs hjs) (default_stays otherwise hbo hjo))
  | .breakLoop, _, _, _, hj => nomatch hj.resolve_left nofun
  | .continueLoop, _, _, _, hj => nomatch hj.resolve_left nofun
  | .loop condition body update, hk, hu, hb, _ => by
    obtain ⟨hb, hbu⟩ := Bool.and_eq_true_iff.1 hb
    obtain ⟨hbc, -⟩ := Bool.and_eq_true_iff.1 hb
    exact stays_loop (node_stays condition hbc (.inl hk)) (update_stays update hbu hu)
  | .ret none _, _, _, _, _ => stays_stop
  | .ret (some value) _, hk, _, hb, _ => (node_stays value hb (.inl hk)).append stays_stop
  | .nil _, _, _, _, _ => stays_skip
  | .number .., _, _, _, _ => stays_skip
  | .string .., _, _, _, _ => stays_skip
  | .char .., _, _, _, _ => stays_skip
  | .bool .., _, _, _, _ => stays_skip
  | .callId .., _, _, _, _ => stays_skip
  | .callIndex .., _, _, _, _ => stays_skip
  | .callFunc .., _, _, _, _ => stays_skip
  | .getField .., _, _, _, _ => stays_skip
  | .getPath .., _, _, _, _ => stays_skip
  | .ptrGetField .., _, _, _, _ => stays_skip

theorem nodes_stay : (nodes : List Node) →
    Node.allOf (fun _ => true) NodeKind.wellFormed nodes = true →
    nodes.all Node.isExpression = true ∨ Node.allOf (!·.isLoop) (!·.isJump) nodes = true →
    (nodesCourse env nodes).Stays
  | [], _, _ => stays_skip
  | node :: rest, hb, hj => by
    obtain ⟨hbn, hbr⟩ := Bool.and_eq_true_iff.1 hb
    refine (node_stays node hbn ?_).append (nodes_stay rest hbr ?_)
    · exact hj.imp (fun h => (Bool.and_eq_true_iff.1 h).1) fun h => (Bool.and_eq_true_iff.1 h).1
    · exact hj.imp (fun h => (Bool.and_eq_true_iff.1 h).2) fun h => (Bool.and_eq_true_iff.1 h).2

theorem fields_stay : (fields : List FieldInit) →
    (fields.all fun field => field.content.isExpression) = true →
    FieldInit.allOf (fun _ => true) NodeKind.wellFormed fields = true →
    (fieldsCourse env fields).Stays
  | [], _, _ => stays_skip
  | .mk _ content _ :: rest, hk, hb => by
    obtain ⟨hc, hr⟩ := Bool.and_eq_true_iff.1 hk
    obtain ⟨hbc, hbr⟩ := Bool.and_eq_true_iff.1 hb
    exact (node_stays content hbc (.inl hc)).append (fields_stay rest hr hbr)

theorem chain_stays (type : Ty) : (chain : List Node) →
    (NodeKind.call type chain).operandsOk = true →
    Node.allOf (fun _ => true) NodeKind.wellFormed chain = true →
    (chainCourse env chain).Stays
  | [], _, _ => stays_skip
  | head :: links, hk, hb => by
    obtain ⟨hbh, hbl⟩ := Bool.and_eq_true_iff.1 hb
    exact (node_stays head hbh (.inl hk)).append (links_stay _ links hbl)

theorem links_stay (reached : Operand) : (links : List Node) →
    Node.allOf (fun _ => true) NodeKind.wellFormed links = true →
    (linksCourse env reached links).Stays
  | [], _ => stays_skip
  | link :: rest, hb => by
    obtain ⟨hbl, hbr⟩ := Bool.and_eq_true_iff.1 hb
    exact (link_stays reached link hbl).append (links_stay _ rest hbr)

theorem link_stays (reached : Operand) : (link : Node) → link.WellFormed →
    (linkCourse env reached link).Stays
  | .mk kind _, h => by
    obtain ⟨hk, hb⟩ := Bool.and_eq_true_iff.1 h
    obtain ⟨hk, -⟩ := Bool.and_eq_true_iff.1 hk
    cases kind with
    | callIndex _ index => exact node_stays index hb (.inl hk)
    | callFunc _ args _ => exact (nodes_stay args hb (.inl hk)).append (stays_calls _)
    | _ => exact stays_skip

theorem arms_stay : (arms : List Arm) →
    (arms.all fun arm => arm.condition.all Node.isExpression) = true →
    Arm.allOf (fun _ => true) NodeKind.wellFormed arms = true →
    Arm.allOf (!·.isLoop) (!·.isJump) arms = true →
    ∀ arm ∈ armCourses env arms, (∀ check ∈ arm.1, check.Stays) ∧ arm.2.Stays
  | [], _, _, _ => List.forall_mem_nil _
  | .mk none body _ :: rest, hk, hb, hj => by
    obtain ⟨hbb, hbr⟩ := Bool.and_eq_true_iff.1 hb
    obtain ⟨hjb, hjr⟩ := Bool.and_eq_true_iff.1 hj
    refine List.forall_mem_cons.2 ⟨⟨?_, node_stays body hbb (.inr hjb)⟩, arms_stay rest hk hbr hjr⟩
    rintro _ ⟨⟩
  | .mk (some condition) body _ :: rest, hk, hb, hj => by
    obtain ⟨hc, hr⟩ := Bool.and_eq_true_iff.1 hk
    obtain ⟨hb, hbr⟩ := Bool.and_eq_true_iff.1 hb
    obtain ⟨hbc, hbb⟩ := Bool.and_eq_true_iff.1 hb
    obtain ⟨hj, hjr⟩ := Bool.and_eq_true_iff.1 hj
    obtain ⟨-, hjb⟩ := Bool.and_eq_true_iff.1 hj
    refine List.forall_mem_cons.2 ⟨⟨?_, node_stays body hbb (.inr hjb)⟩, arms_stay rest hr hbr hjr⟩
    rintro _ ⟨⟩
    exact node_stays condition hbc (.inl hc)

theorem cases_stay : (cases : List Case) →
    Case.allOf (fun _ => true) NodeKind.wellFormed cases = true →
    Case.allOf (!·.isLoop) (!·.isJump) cases = true →
    ∀ case ∈ caseCourses env cases, case.2.Stays
  | [], _, _ => List.forall_mem_nil _
  | .mk _ body _ :: rest, hb, hj => by
    obtain ⟨hbb, hbr⟩ := Bool.and_eq_true_iff.1 hb
    obtain ⟨hjb, hjr⟩ := Bool.and_eq_true_iff.1 hj
    exact List.forall_mem_cons.2 ⟨node_stays body hbb (.inr hjb), cases_stay rest hbr hjr⟩

theorem default_stays : (otherwise : Option Node) →
    Node.allOf? (fun _ => true) NodeKind.wellFormed otherwise = true →
    Node.allOf? (!·.isLoop) (!·.isJump) otherwise = true →
    ∀ body ∈ defaultCourse env otherwise, body.Stays
  | none, _, _ => fun _ h => nomatch h
  | some body, hb, hj => by
    rintro _ ⟨⟩
    exact node_stays body hb (.inr hj)

theorem update_stays {condition body : Node} : (update : Option Node) →
    Node.allOf? (fun _ => true) NodeKind.wellFormed update = true →
    (NodeKind.loop condition body update).updateStays = true → (updateCourse env update).Stays
  | none, _, _ => stays_skip
  | some update, hb, hu => node_stays update hb (.inr hu)

end

end Stays

end Codegen.Lowering
