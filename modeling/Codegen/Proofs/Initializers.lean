import Codegen.Proofs.StackDiscipline
import Mathlib.Data.List.Pairwise
import Mathlib.Data.List.Perm.Basic

/-!
# Initializers of structs

The contents of an initializer are evaluated in the order they are written, and the values are
stored in the order of the fields.  In between the values are carried over whatever the contents do:
they may open blocks, take names and note down slots.  So the order of an initializer matters for
what its contents do and for nothing else, and if they only put constants on the stack, it does not
matter at all.
-/

namespace Codegen

/-- The name of the field. -/
def FieldInit.name : FieldInit → String
  | .mk name _ _ => name

end Codegen

namespace Codegen.Lowering

open Ir (Inst Block)

/-- A straight-line step that notes nothing down. -/
theorem Lower.line_eq {α : Type} {step : Line α} {s : State} {value : α} {names : Names}
    {insts : List Inst} (h : step s.toNames = { value, names, insts }) :
    Lower.line step s = (value, ⟨names, (appendAll insts s.toGraph).2, s.notes⟩) := by
  rw [Lower.line, h]
  dsimp only
  rw [Notes.append_nil]

theorem Lower.line_pure (s : State) : Lower.line (pure ()) s = ((), s) :=
  have nothing : (pure () : Line Unit) s.toNames = { value := (), names := s.toNames } := rfl
  Lower.line_eq nothing

theorem Lower.line_height (s : State) : Lower.line height s = (s.stack.length, s) :=
  have counted : height s.toNames = { value := s.stack.length, names := s.toNames } := rfl
  Lower.line_eq counted

theorem Lower.line_push (operand : Operand) (s : State) :
    Lower.line (push operand) s = ((), { s with stack := operand :: s.stack }) :=
  have pushed : push operand s.toNames =
    { value := (), names := { s.toNames with stack := operand :: s.stack } } := rfl
  Lower.line_eq pushed

/-! ## Evaluation -/

section Evaluate

variable {m : Type → Type} [Assembler m]

/-- What a node evaluates to: the top of the stack behind it, which is taken off. -/
def evaluate (env : Env) (node : Node) : m Operand := do
  lowerNode env node
  pop node.span

/-- What nodes evaluate to, one after the other. -/
def evaluateAll (env : Env) : List Node → m (List Operand)
  | [] => pure []
  | node :: rest => do
    let value ← evaluate env node
    let values ← evaluateAll env rest
    pure (value :: values)

end Evaluate

/-- Nodes are evaluated one after the other, and each has a value of its own: it puts it on top of
the stack and leaves the stack below as it was. -/
inductive Evaluated (env : Env) : List Node → State → List Operand → State → Prop where
  | nil (s : State) : Evaluated env [] s [] s
  | cons {node : Node} {nodes : List Node} {s s' : State} {value : Operand} {values : List Operand}
      (own : (walked env node s).stack = value :: s.stack)
      (rest : Evaluated env nodes { walked env node s with stack := s.stack } values s') :
    Evaluated env (node :: nodes) s (value :: values) s'

theorem evaluateAll_cons (env : Env) (node : Node) (nodes : List Node) (s : State) :
    (evaluateAll env (node :: nodes) : Lower _) s =
      let first := (evaluate env node : Lower Operand) s
      let rest := (evaluateAll env nodes : Lower _) first.2
      (first.1 :: rest.1, rest.2) := rfl

theorem length_evaluateAll (env : Env) (nodes : List Node) (s : State) :
    ((evaluateAll env nodes : Lower _) s).1.length = nodes.length := by
  induction nodes generalizing s with
  | nil => rfl
  | cons node nodes ih =>
    rw [evaluateAll_cons]
    exact congrArg (· + 1) (ih _)

section Quiet

variable {α β : Type} {env : Env}

theorem echoes_lowerNode (env : Env) (node : Node) :
    Echoes (lowerNode env node) (lowerNode env node) :=
  lowerNode_related (echoing env).graded node fun x _ => Set.mem_univ x

theorem echoes_evaluate (env : Env) (node : Node) :
    Echoes (evaluate env node) (evaluate env node) :=
  (echoes_lowerNode env node).bind fun _ => .line _

theorem echoes_evaluateAll (env : Env) (nodes : List Node) :
    Echoes (evaluateAll env nodes) (evaluateAll env nodes) := by
  induction nodes with
  | nil => exact .pure []
  | cons node nodes ih =>
    exact (echoes_evaluate env node).bind fun _ => ih.bind fun _ => .pure _

/-- If two steps in a row find no fault, neither does one of them. -/
theorem Echoes.quiet_of_bind {x : Lower α} {d : Draft α} {f : α → Lower β} {e : α → Draft β}
    (hx : Echoes x d) (hf : ∀ a, Echoes (f a) (e a)) {s : State}
    (quiet : ((x >>= f) s).2.notes.faults = s.notes.faults) :
    (x s).2.notes.faults = s.notes.faults ∧
      (f (x s).1 (x s).2).2.notes.faults = (x s).2.notes.faults := by
  obtain ⟨new, hnew, -⟩ := hx s
  obtain ⟨new', hnew', -⟩ := hf (x s).1 (x s).2
  have both : s.notes.faults ++ (new.faults ++ new'.faults) = s.notes.faults := by
    rw [← List.append_assoc, ← Notes.faults_append, ← hnew, ← Notes.faults_append, ← hnew']
    exact quiet
  obtain ⟨none, none'⟩ := List.append_eq_nil_iff.1 (List.append_right_eq_self.1 both)
  constructor
  · rw [hnew, Notes.faults_append, none, List.append_nil]
  · rw [hnew', Notes.faults_append, none', List.append_nil]

/-- What a draft leaves on the stack, a walk leaves there that echoes it and finds no fault. -/
theorem Echoes.stack {x : Lower α} {d : Draft α} (echoes : Echoes x d) {strict : Bool}
    {course : Course} {post : α → List Operand → Set String → Prop}
    (leaves : Leaves strict Set.univ Set.univ [] course d post) {s : State}
    (quiet : (x s).2.notes.faults = s.notes.faults) :
    ∃ values known, (x s).2.stack = values ++ s.stack ∧ post (x s).1 values known := by
  obtain ⟨new, hnotes, htold⟩ := echoes s
  have noFault : new.faults = [] := by
    rw [hnotes] at quiet
    exact List.append_right_eq_self.1 quiet
  obtain ⟨hvalue, hnames, rfl⟩ : _ ∧ _ ∧ _ := by
    simpa only [Drafted.told, Prod.mk.injEq] using htold noFault
  obtain ⟨-, -, -, values, hstack, hpost⟩ := leaves true s.toNames s.stack (Set.Subset.refl _) rfl
    (fun _ _ _ _ => Set.mem_univ _) noFault fun _ _ => Set.mem_univ _
  refine ⟨values, _, ?_, hvalue ▸ hpost⟩
  rw [hnames]
  exact hstack

theorem walked_has_value {node : Node} (ok : node.OperandsOk) (expr : node.isExpression)
    {s : State} (quiet : (walked env node s).notes.faults = s.notes.faults) :
    ∃ value, (walked env node s).stack = value :: s.stack := by
  obtain ⟨values, _, stack, left⟩ :=
    (echoes_lowerNode env node).stack (lowerNode_leaves env node ok.fits) quiet
  rw [NodeLeft, if_pos expr] at left
  obtain ⟨value, rfl, -⟩ := left
  exact ⟨value, stack⟩

theorem evaluate_eq {node : Node} {s : State} {value : Operand}
    (own : (walked env node s).stack = value :: s.stack) :
    (evaluate env node : Lower Operand) s =
      (value, { walked env node s with stack := s.stack }) := by
  have popped : pop node.span (walked env node s).toNames =
      { value, names := { (walked env node s).toNames with stack := s.stack } } := by
    unfold pop
    dsimp only [bind, get, getThe, MonadStateOf.get]
    rw [own]
    rfl
  exact Lower.line_eq popped

/-- Expressions that are evaluated without a fault have values of their own. -/
theorem evaluated_of_quiet {nodes : List Node}
    (ok : ∀ node ∈ nodes, node.OperandsOk ∧ node.isExpression) {s : State}
    (quiet : ((evaluateAll env nodes : Lower _) s).2.notes.faults = s.notes.faults) :
    Evaluated env nodes s ((evaluateAll env nodes : Lower _) s).1
      ((evaluateAll env nodes : Lower _) s).2 := by
  induction nodes generalizing s with
  | nil => exact .nil s
  | cons node nodes ih =>
    obtain ⟨⟨hok, expr⟩, hnodes⟩ := List.forall_mem_cons.1 ok
    obtain ⟨first, behind⟩ := (echoes_evaluate env node).quiet_of_bind
      (fun _ => (echoes_evaluateAll env nodes).bind fun _ => .pure _) quiet
    obtain ⟨walk, -⟩ := (echoes_lowerNode env node).quiet_of_bind (fun _ => .line _) first
    obtain ⟨value, own⟩ := walked_has_value hok expr walk
    rw [evaluate_eq own] at behind
    rw [evaluateAll_cons, evaluate_eq own]
    exact .cons own (ih hnodes behind)

end Quiet

/-! ## Fields in order -/

/-- The stores of values into fields: each value once, in the order of the fields, where values of
one field stay in the order they had. -/
structure InFieldOrder (values stores : List (Nat × Operand)) : Prop where
  perm : stores.Perm values
  sorted : stores.Pairwise fun a b => a.1 ≤ b.1
  ties (index : Nat) : stores.filter (fun store => store.1 = index) =
    values.filter fun value => value.1 = index

theorem inFieldOrder_inFieldOrder (values : List (Nat × Operand)) :
    InFieldOrder values (inFieldOrder values) := by
  have trans (a b c : Nat × Operand) (hab : decide (a.1 ≤ b.1) = true)
      (hbc : decide (b.1 ≤ c.1) = true) : decide (a.1 ≤ c.1) = true :=
    decide_eq_true ((of_decide_eq_true hab).trans (of_decide_eq_true hbc))
  have total (a b : Nat × Operand) : (decide (a.1 ≤ b.1) || decide (b.1 ≤ a.1)) = true := by
    simpa using Nat.le_total a.1 b.1
  have perm : (inFieldOrder values).Perm values := List.mergeSort_perm values _
  refine ⟨perm, ?_, fun index => ?_⟩
  · exact (List.pairwise_mergeSort trans total values).imp of_decide_eq_true
  · -- values of one field are sorted already, so sorting does not move them past each other
    have same : (values.filter fun value => value.1 = index).Pairwise
        fun a b => decide (a.1 ≤ b.1) = true := by
      refine List.pairwise_of_forall_mem_list fun a ha b hb => decide_eq_true ?_
      have ha := of_decide_eq_true (List.mem_filter.1 ha).2
      have hb := of_decide_eq_true (List.mem_filter.1 hb).2
      omega
    have kept := (List.sublist_mergeSort trans total same List.filter_sublist).filter
      fun value => value.1 = index
    simp only [List.filter_filter, Bool.and_self] at kept
    exact (kept.eq_of_length (perm.filter _).length_eq.symm).symm

/-! ## Initializers -/

/-- Takes the address of a new slot and sets it to zero. -/
def zeroing (env : Env) (type : Ty) (slot : String) : List Inst :=
  [.slotPtr slot (slot ++ ".r") (env.map type), .zeroInit (.var slot) (env.map type)]

/-- Stores values into fields of what is at `slot`, each by the address of the field in a temporary
of its own, of which `first` is the number of the first. -/
def fieldStores (env : Env) (type : Ty) (slot : String) (first : Nat)
    (stores : List (Nat × Operand)) : List Inst :=
  (stores.zipIdx first).flatMap fun ((index, value), number) =>
    [ .getField (.var (tempName number)) (.var slot) (env.map type) index,
      .store (env.map value.type) value.value (.var (tempName number)) ]

/-- The state behind the zeroed slot. -/
def zeroed (env : Env) (type : Ty) (s : State) : State where
  toNames := { s.toNames with nextTemp := s.nextTemp + 1 }
  toGraph := (appendAll (zeroing env type (tempName s.nextTemp)) s.toGraph).2
  notes := s.notes ++ { slots := [⟨tempName s.nextTemp ++ ".r", env.map type⟩] }

/-- The state behind the stores, where the address of the slot is on the stack. -/
def filled (env : Env) (type : Ty) (slot : String) (stores : List (Nat × Operand)) (s : State) :
    State where
  toNames :=
    { s.toNames with
      nextTemp := s.nextTemp + stores.length
      stack := .var slot type.pointer :: s.stack }
  toGraph := (appendAll (fieldStores env type slot s.nextTemp stores) s.toGraph).2
  notes := s.notes

section Structs

variable {env : Env} {type : Ty} {symbol : StructSymbol}

theorem storeFields_eq (slot : String) (stores : List (Nat × Operand)) (n : Names) :
    storeFields env (.var slot type.pointer) (env.map type) stores n =
      { value := (), names := { n with nextTemp := n.nextTemp + stores.length },
        insts := fieldStores env type slot n.nextTemp stores } := by
  induction stores generalizing n with
  | nil => rfl
  | cons store rest ih =>
    -- the first store takes one temporary, so the others start from the next number
    have ran : storeFields env (.var slot type.pointer) (env.map type) (store :: rest) n =
        let others := storeFields env (.var slot type.pointer) (env.map type) rest
          { n with nextTemp := n.nextTemp + 1 }
        { others with
          insts := fieldStores env type slot n.nextTemp [store] ++ others.insts
          notes := {} ++ others.notes } := rfl
    rw [ran, ih, List.length_cons, Nat.add_comm rest.length, ← Nat.add_assoc]
    rfl

/-- The stores, and the address of the slot on the stack. -/
theorem filled_eq (slot : String) (stores : List (Nat × Operand)) (s : State) :
    Lower.line (push (.var slot type.pointer))
      (Lower.line (storeFields env (.var slot type.pointer) (env.map type) stores) s).2 =
      ((), filled env type slot stores s) := by
  rw [Lower.line_eq (storeFields_eq slot stores s.toNames)]
  exact Lower.line_push _ _

/-- A struct initializer by its parts. -/
theorem lowerKind_structInit (found : env.symbols.findStruct type = some symbol) (span : Span)
    (fields : List FieldInit) (s : State) :
    (lowerKind env span (.structInit type fields) : Lower Unit) s =
      let values := (lowerFields env symbol type fields : Lower _) (zeroed env type s)
      ((), filled env type (tempName s.nextTemp) (inFieldOrder values.1) values.2) := by
  rw [lowerKind, found]
  exact filled_eq (tempName s.nextTemp) _ _

/-- The contents are evaluated in the order they are written. -/
theorem lowerFields_eq {fields : List FieldInit} {indices : List Nat}
    (declared : fields.map (fun field => symbol.fieldIndex? field.name) = indices.map some)
    (s : State) :
    (lowerFields env symbol type fields : Lower _) s =
      let values := (evaluateAll env (fields.map FieldInit.content) : Lower _) s
      (indices.zip values.1, values.2) := by
  induction fields generalizing indices s with
  | nil =>
    obtain rfl := List.map_eq_nil_iff.1 declared.symm
    rfl
  | cons field rest ih =>
    obtain ⟨name, content, fieldType⟩ := field
    obtain ⟨index, indices, rfl, hindex, hindices⟩ := List.map_eq_cons_iff.1 declared.symm
    have hindex : symbol.fieldIndex? name = some index := hindex.symm
    have ran : (lowerFields env symbol type (.mk name content fieldType :: rest) : Lower _) s =
        let first := (evaluate env content : Lower Operand) s
        let others := (lowerFields env symbol type rest : Lower _) first.2
        ((index, first.1) :: others.1, others.2) := by
      rw [lowerFields, hindex]
      rfl
    rw [ran]
    dsimp only
    rw [ih hindices.symm]
    rfl

/-! ## Constants -/

/-- The value of a number, a character, a truth value or `nil`. -/
def literal? : NodeKind → Option Operand
  | .nil type => some (.nil type)
  | .number literal type => some (.lit (numberText literal type) type)
  | .char literal type => some (.lit (Text.decimal literal.toNat) type)
  | .bool literal type => some (.lit (if literal then "1" else "0") type)
  | _ => none

theorem lowerKind_literal (env : Env) {kind : NodeKind} {value : Operand}
    (h : literal? kind = some value) (span : Span) :
    (lowerKind env span kind : Lower Unit) = Lower.line (push value) ∧ kind.isExpression := by
  cases kind with
  | nil | number | char | bool =>
    obtain rfl := Option.some.inj h
    exact ⟨rfl, rfl⟩
  | _ => cases h

/-- Behind the walk over a node the stack is mended. -/
theorem balanced_run (kind : NodeKind) (span : Span) (walk : Lower Unit) (s : State) :
    (balanced kind span walk s).2 =
      (Lower.line (mend kind span (s.stack.length + if kind.isExpression then 1 else 0)
        (walk s).2.stack.length) (walk s).2).2 := by
  have run : (balanced kind span walk s).2 =
    let before := Lower.line height s
    let found := Lower.line height (walk before.2).2
    (Lower.line (mend kind span (before.1 + if kind.isExpression then 1 else 0) found.1)
      found.2).2 := rfl
  simpa only [Lower.line_height] using run

/-- A stack of the right height is not mended. -/
theorem balanced_of_height {kind : NodeKind} {walk : Lower Unit} {s : State}
    (h : (walk s).2.stack.length = s.stack.length + if kind.isExpression then 1 else 0)
    (span : Span) : (balanced kind span walk s).2 = (walk s).2 := by
  rw [balanced_run, mend, if_neg (not_not_intro h), Lower.line_pure]

theorem walked_literal {node : Node} {value : Operand} (h : literal? node.kind = some value)
    (s : State) : walked env node s = { s with stack := value :: s.stack } := by
  obtain ⟨kind, span⟩ := node
  obtain ⟨pushes, expr⟩ := lowerKind_literal env (show literal? kind = some value from h) span
  rw [walked, lowerNode, pushes, balanced_of_height, Lower.line_push]
  rw [Lower.line_push, if_pos expr, List.length_cons]

/-- A constant only puts its value on the stack. -/
theorem evaluate_literal {node : Node} {value : Operand} (h : literal? node.kind = some value)
    (s : State) : (evaluate env node : Lower Operand) s = (value, s) := by
  have walk : walked env node s = { s with stack := value :: s.stack } := walked_literal h s
  have own : (walked env node s).stack = value :: s.stack := by rw [walk]
  rw [evaluate_eq own, walk]

theorem evaluateAll_literals {nodes : List Node} {values : List Operand}
    (h : nodes.map (fun node => literal? node.kind) = values.map some) (s : State) :
    (evaluateAll env nodes : Lower _) s = (values, s) := by
  induction nodes generalizing values with
  | nil =>
    obtain rfl := List.map_eq_nil_iff.1 h.symm
    rfl
  | cons node nodes ih =>
    obtain ⟨value, values, rfl, hvalue, hvalues⟩ := List.map_eq_cons_iff.1 h.symm
    rw [evaluateAll_cons, evaluate_literal hvalue.symm]
    dsimp only
    rw [ih hvalues.symm]

/-- The position of a field and the constant that it gets. -/
def fieldValue (symbol : StructSymbol) (field : FieldInit) : Nat × Operand :=
  ((symbol.fieldIndex? field.name).getD 0, (literal? field.content.kind).getD (.nil .void))

theorem map_getD_eq {α β : Type} {f : α → Option β} {xs : List α} (h : ∀ x ∈ xs, (f x).isSome)
    (default : β) : xs.map f = (xs.map fun x => (f x).getD default).map some := by
  rw [List.map_map]
  refine List.map_congr_left fun x hx => ?_
  obtain ⟨y, hy⟩ := Option.isSome_iff_exists.1 (h x hx)
  rw [Function.comp_apply, hy]
  rfl

/-- Different fields have different positions. -/
theorem fieldIndex?_inj {name name' : String} {index : Nat}
    (h : symbol.fieldIndex? name = some index) (h' : symbol.fieldIndex? name' = some index) :
    name = name' := by
  obtain ⟨_, this, -⟩ := List.findIdx?_eq_some_iff_getElem.1 h
  obtain ⟨_, that, -⟩ := List.findIdx?_eq_some_iff_getElem.1 h'
  exact (of_decide_eq_true this).symm.trans (of_decide_eq_true that)

section Literals

variable {fields : List FieldInit}
  (declared : ∀ field ∈ fields, (symbol.fieldIndex? field.name).isSome)
include declared

theorem lowerFields_literals (literal : ∀ field ∈ fields, (literal? field.content.kind).isSome)
    (s : State) : (lowerFields env symbol type fields : Lower _) s =
      (fields.map (fieldValue symbol), s) := by
  have values := map_getD_eq literal (.nil .void)
  rw [← Function.comp_def (fun node : Node => literal? node.kind), ← List.map_map] at values
  rw [lowerFields_eq (map_getD_eq declared 0), evaluateAll_literals values]
  dsimp only
  rw [List.zip_map']
  rfl

theorem nodup_fieldValue (distinct : (fields.map FieldInit.name).Nodup) :
    ((fields.map (fieldValue symbol)).map Prod.fst).Nodup := by
  rw [List.map_map]
  refine List.Nodup.map_on (fun field hfield field' hfield' same => ?_) distinct.of_map
  obtain ⟨index, hindex⟩ := Option.isSome_iff_exists.1 (declared field hfield)
  obtain ⟨index', hindex'⟩ := Option.isSome_iff_exists.1 (declared field' hfield')
  simp only [Function.comp_apply, fieldValue, hindex, hindex', Option.getD_some] at same
  rw [← same] at hindex'
  exact List.inj_on_of_nodup_map distinct hfield hfield' (fieldIndex?_inj hindex hindex')

end Literals

theorem inFieldOrder_perm {values values' : List (Nat × Operand)} (perm : values'.Perm values)
    (distinct : (values.map Prod.fst).Nodup) : inFieldOrder values' = inFieldOrder values := by
  have h := inFieldOrder_inFieldOrder values
  have h' := inFieldOrder_inFieldOrder values'
  refine List.Perm.eq_of_pairwise (fun a b ha hb hab hba => ?_) h'.sorted h.sorted
    ((h'.perm.trans perm).trans h.perm.symm)
  have ha : a ∈ values := (h'.perm.trans perm).mem_iff.1 ha
  have hb : b ∈ values := h.perm.mem_iff.1 hb
  exact List.inj_on_of_nodup_map distinct ha hb (Nat.le_antisymm hab hba)

/-! ## The order of an initializer -/

theorem contents_ok {span : Span} {fields : List FieldInit}
    (h : Node.OperandsOk (.mk (.structInit type fields) span)) :
    ∀ node ∈ fields.map FieldInit.content, node.OperandsOk ∧ node.isExpression := by
  obtain ⟨exprs, below⟩ : (fields.all fun field => field.content.isExpression) = true ∧
      FieldInit.allOf (fun _ => true) (·.operandsOk) fields = true := Bool.and_eq_true_iff.1 h
  clear h
  induction fields with
  | nil => exact List.forall_mem_nil _
  | cons field rest ih =>
    obtain ⟨name, content, fieldType⟩ := field
    obtain ⟨expr, exprs⟩ := Bool.and_eq_true_iff.1 exprs
    obtain ⟨ok, below⟩ := Bool.and_eq_true_iff.1 below
    exact List.forall_mem_cons.2 ⟨⟨ok, expr⟩, ih exprs below⟩

/-- A struct initializer evaluates its contents in the order they are written, behind an
instruction that sets a new slot to zero, and then takes the address of a field and stores a value
there, once for each content: in the order of the fields, and in the order they are written where
they belong to one field.  What it gives is the address of the slot.  In a tree with values where
values belong, and unless a fault is found, the value of a content is what this content has put on
the stack.  So initializers with constants for different fields may be written in any order. -/
theorem struct_initializer_stores_in_field_order
    (found : env.symbols.findStruct type = some symbol) (span : Span) {fields : List FieldInit}
    {indices : List Nat}
    (declared : fields.map (fun field => symbol.fieldIndex? field.name) = indices.map some) :
    (∀ s : State,
      let slot := tempName s.nextTemp
      let contents := fields.map FieldInit.content
      ∃ values s' stores,
        (evaluateAll env contents : Lower _) (zeroed env type s) = (values, s') ∧
        values.length = fields.length ∧ InFieldOrder (indices.zip values) stores ∧
        (lowerKind env span (.structInit type fields) : Lower Unit) s =
          ((), filled env type slot stores s') ∧
        (zeroed env type s).insts = s.insts ++ zeroing env type slot ∧
        (filled env type slot stores s').insts =
          s'.insts ++ fieldStores env type slot s'.nextTemp stores ∧
        (Node.OperandsOk (.mk (.structInit type fields) span) →
          s'.notes.faults = s.notes.faults →
          Evaluated env contents (zeroed env type s) values s')) ∧
    ((∀ field ∈ fields, (literal? field.content.kind).isSome) →
      (fields.map FieldInit.name).Nodup → ∀ fields' : List FieldInit, fields'.Perm fields →
        (lowerKind env span (.structInit type fields') : Lower Unit) =
          lowerKind env span (.structInit type fields)) := by
  refine ⟨fun s => ?_, fun literal distinct fields' perm => funext fun s => ?_⟩
  · intro slot contents
    let evaluated := (evaluateAll env contents : Lower _) (zeroed env type s)
    refine ⟨evaluated.1, evaluated.2, inFieldOrder (indices.zip evaluated.1), rfl, ?_,
      inFieldOrder_inFieldOrder _, ?_, insts_appendAll _ _, insts_appendAll _ _, fun ok quiet => ?_⟩
    · rw [length_evaluateAll, List.length_map]
    · rw [lowerKind_structInit found, lowerFields_eq declared]
    · have start : (zeroed env type s).notes.faults = s.notes.faults := List.append_nil _
      exact evaluated_of_quiet (contents_ok ok) (quiet.trans start.symm)
  · have positions (field : FieldInit) (h : field ∈ fields) :
        (symbol.fieldIndex? field.name).isSome := by
      have listed : symbol.fieldIndex? field.name ∈ indices.map some :=
        declared ▸ List.mem_map_of_mem h
      obtain ⟨index, -, hindex⟩ := List.mem_map.1 listed
      exact Option.isSome_iff_exists.2 ⟨index, hindex.symm⟩
    -- constants leave the state alone, so only the list of their values depends on the order
    rw [lowerKind_structInit found, lowerKind_structInit found,
      lowerFields_literals positions literal,
      lowerFields_literals (fun field h => positions field (perm.mem_iff.1 h))
        fun field h => literal field (perm.mem_iff.1 h)]
    dsimp only
    rw [inFieldOrder_perm (perm.map _) (nodup_fieldValue positions distinct)]

end Structs

namespace Sample

open Codegen.Sample

def triple : StructSymbol where
  name := "triple"
  fields := [⟨"a", i64⟩, ⟨"b", i64⟩, ⟨"c", bool⟩]

def tripleEnv : Env := { env with symbols := symbols.addStruct "m" triple }

/-- Fills the last field twice and the first one in between; one content opens blocks. -/
def mixedFields : List FieldInit :=
  [ .mk "c" (node (.binary .cmpAnd bool (invoke "more" bool []) (invoke "done" bool []))) bool,
    .mk "a" (invoke "next" i64 []) i64,
    .mk "c" (node (.bool true bool)) bool ]

def constantFields : List FieldInit :=
  [.mk "c" (node (.bool true bool)) bool, .mk "b" (node (.nil i64)) i64, .mk "a" (number "1") i64]

end Sample

theorem triples_store_in_field_order :
    let type : Ty := .named "triple" "m"
    let mixed : NodeKind := .structInit type Sample.mixedFields
    Sample.tripleEnv.symbols.findStruct type = some Sample.triple ∧
    Sample.mixedFields.map (fun field => Sample.triple.fieldIndex? field.name) =
      [2, 0, 2].map some ∧
    Node.OperandsOk (.mk mixed {}) ∧
    (∃ values s' stores, InFieldOrder ([2, 0, 2].zip values) stores ∧
      (lowerKind Sample.tripleEnv {} mixed : Lower Unit) Sample.midway =
        ((), filled Sample.tripleEnv type "_0" stores s') ∧
      Evaluated Sample.tripleEnv (Sample.mixedFields.map FieldInit.content)
        (zeroed Sample.tripleEnv type Sample.midway) values s') ∧
    (lowerKind Sample.tripleEnv {} (.structInit type Sample.constantFields.reverse) : Lower Unit) =
      lowerKind Sample.tripleEnv {} (.structInit type Sample.constantFields) := by
  intro type mixed
  have found : Sample.tripleEnv.symbols.findStruct type = some Sample.triple := by rfl
  have mixedDeclared : Sample.mixedFields.map (fun field => Sample.triple.fieldIndex? field.name) =
      [2, 0, 2].map some := by decide
  have constantDeclared :
      Sample.constantFields.map (fun field => Sample.triple.fieldIndex? field.name) =
        [2, 1, 0].map some := by decide
  have ok : Node.OperandsOk (.mk mixed {}) := by decide
  have quiet : ((evaluateAll Sample.tripleEnv (Sample.mixedFields.map FieldInit.content) : Lower _)
      (zeroed Sample.tripleEnv type Sample.midway)).2.notes.faults = [] := by decide +kernel
  obtain ⟨stored, -⟩ := struct_initializer_stores_in_field_order found {} mixedDeclared
  obtain ⟨-, anyOrder⟩ := struct_initializer_stores_in_field_order found {} constantDeclared
  obtain ⟨values, s', stores, ran, -, inOrder, eq, -, -, own⟩ := stored Sample.midway
  refine ⟨found, mixedDeclared, ok, ⟨values, s', stores, inOrder, eq, own ok ?_⟩, ?_⟩
  · rw [ran] at quiet
    exact quiet
  · exact anyOrder (by decide) (by decide) _ (List.reverse_perm _)

end Codegen.Lowering
