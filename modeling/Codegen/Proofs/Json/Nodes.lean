import Codegen.Program.NodeCodec
import Codegen.Proofs.Json.Symbols

/-!
# Nodes are read back

Decoder and encoder of nodes belong together.  A node is read by a decoder for the nodes below it,
so what is shown about one layer of a tree (`NodeKind.codecWith`) gives all trees that are not
higher than the levels of the text.
-/

namespace Codegen

open Json

/-! ## Ranges -/

mutual

/-- Whether the numbers of a tree are in the ranges of their fields. -/
def Node.inRange : Node → Bool
  | .mk kind span => kind.inRange && span.inRange

def NodeKind.inRange : NodeKind → Bool
  | .block content => Node.allInRange content
  | .unary _ type value => type.inRange && value.inRange
  | .binary _ type left right => type.inRange && left.inRange && right.inRange
  | .convert source target => source.inRange && target.inRange
  | .nil type => type.inRange
  | .number _ type => type.inRange
  | .string _ type => type.inRange
  | .char _ type => type.inRange
  | .bool _ type => type.inRange
  | .array size type values => isUInt64 size && type.inRange && Node.allInRange values
  | .structInit type fields => type.inRange && FieldInit.allInRange fields
  | .call type chain => type.inRange && Node.allInRange chain
  | .callId _ type => type.inRange
  | .callIndex type index => type.inRange && index.inRange
  | .callFunc type args _ => type.inRange && Node.allInRange args
  | .getField _ type => type.inRange
  | .getPath _ type => type.inRange
  | .ptrGetField _ type => type.inRange
  | .define _ type init => type.inRange && init.inRange
  | .assign _ left right => left.inRange && right.inRange
  | .branch arms => Arm.allInRange arms
  | .switch condition cases otherwise =>
    condition.inRange && Case.allInRange cases && Node.inRange? otherwise
  | .breakLoop => true
  | .continueLoop => true
  | .loop condition body update => condition.inRange && body.inRange && Node.inRange? update
  | .ret value _ => Node.inRange? value

def Node.inRange? : Option Node → Bool
  | none => true
  | some node => node.inRange

def Node.allInRange : List Node → Bool
  | [] => true
  | node :: rest => node.inRange && Node.allInRange rest

def Arm.inRange : Arm → Bool
  | .mk condition body span => Node.inRange? condition && body.inRange && span.inRange

def Arm.allInRange : List Arm → Bool
  | [] => true
  | arm :: rest => arm.inRange && Arm.allInRange rest

def Case.inRange : Case → Bool
  | .mk value body span => isInt64 value && body.inRange && span.inRange

def Case.allInRange : List Case → Bool
  | [] => true
  | case :: rest => case.inRange && Case.allInRange rest

def FieldInit.inRange : FieldInit → Bool
  | .mk _ content type => content.inRange && type.inRange

def FieldInit.allInRange : List FieldInit → Bool
  | [] => true
  | field :: rest => field.inRange && FieldInit.allInRange rest

end

theorem Node.inRange?_iff (node : Option Node) :
    Node.inRange? node = true ↔ ∀ n ∈ node, n.inRange = true := by
  cases node <;> simp [Node.inRange?]

theorem Node.allInRange_iff (nodes : List Node) :
    Node.allInRange nodes = true ↔ ∀ node ∈ nodes, node.inRange = true :=
  all_iff rfl (fun _ _ => rfl) nodes

theorem Arm.allInRange_iff (arms : List Arm) :
    Arm.allInRange arms = true ↔ ∀ arm ∈ arms, arm.inRange = true :=
  all_iff rfl (fun _ _ => rfl) arms

theorem Case.allInRange_iff (cases : List Case) :
    Case.allInRange cases = true ↔ ∀ case ∈ cases, case.inRange = true :=
  all_iff rfl (fun _ _ => rfl) cases

theorem FieldInit.allInRange_iff (fields : List FieldInit) :
    FieldInit.allInRange fields = true ↔ ∀ field ∈ fields, field.inRange = true :=
  all_iff rfl (fun _ _ => rfl) fields

/-! ## Parts of nodes -/

def Arm.encode : Arm → Json
  | .mk condition body span =>
    encodeSpanned (.obj [("condition", encodeOptional condition), ("body", body.encode)]) span

def Case.encode : Case → Json
  | .mk value body span =>
    encodeSpanned (.obj [("value", .int value), ("body", body.encode)]) span

def FieldInit.encode : FieldInit → Json
  | .mk name content type =>
    .obj [("name", .str name), ("content", content.encode), ("type", type.encode)]

theorem encodeOptional_eq (node : Option Node) :
    encodeOptional node = .ofOption Node.encode node := by
  cases node <;> rfl

theorem encodeNodes_eq (nodes : List Node) : encodeNodes nodes = nodes.map Node.encode :=
  eq_map rfl (fun _ _ => rfl) nodes

theorem encodeArms_eq (arms : List Arm) : encodeArms arms = arms.map Arm.encode :=
  eq_map rfl (fun arm _ => by cases arm; rfl) arms

theorem encodeCases_eq (cases : List Case) : encodeCases cases = cases.map Case.encode :=
  eq_map rfl (fun case _ => by cases case; rfl) cases

theorem encodeFieldInits_eq (fields : List FieldInit) :
    encodeFieldInits fields = fields.map FieldInit.encode :=
  eq_map rfl (fun field _ => by cases field; rfl) fields

theorem Node.encode_ne_null (node : Node) : node.encode ≠ .null := by
  cases node
  exact nofun

section Parts

variable {bound : Nat} {child : Decoder Node}

/-- A value with its position. -/
theorem codecSpanned {α : Type} {value : Decoder α} {encode : α → Json} {valid : α → Prop}
    (c : Codec bound value encode valid) :
    Codec (bound + 1) (decodeSpanned value) (fun p => encodeSpanned (encode p.1) p.2)
      fun p => valid p.1 ∧ p.2.inRange = true where
  inverts p h := Codec.inverts_object fun levels hb hf => by
    have hb : levels ≤ bound := Nat.le_of_lt_succ hb
    simp only [fitsFields, Bool.and_eq_true, and_true] at hf
    have node := c.inverts _ h.1 levels hb hf.1
    have span := (Span.codec bound).inverts _ h.2 levels hb hf.2
    simp -implicitDefEqProofs [decodeSpanned, node, span]
  yields levels json p h := by
    simp only [decodeSpanned, Option.bind_eq_bind, Option.bind_eq_some_iff] at h
    obtain ⟨fields, -, node, hnode, span, hspan, ⟨⟩⟩ := h
    exact ⟨c.of_required hnode, (Span.codec bound).of_withDefault hspan rfl⟩

theorem FieldInit.codecWith (c : Codec bound child Node.encode (·.inRange = true)) :
    Codec bound (FieldInit.decodeWith child) FieldInit.encode (·.inRange = true) where
  inverts field h := by
    obtain ⟨name, content, type⟩ := field
    simp only [FieldInit.inRange, Bool.and_eq_true] at h
    refine Codec.inverts_object fun levels hb hf => ?_
    simp only [fitsFields, Bool.and_eq_true, and_true] at hf
    have content := c.inverts _ h.1 levels hb.le hf.2.1
    have type := (Ty.codec bound).inverts _ h.2 levels hb.le hf.2.2
    simp -implicitDefEqProofs [FieldInit.decodeWith, content, type]
  yields levels json field h := by
    simp only [FieldInit.decodeWith, Option.bind_eq_bind, Option.bind_eq_some_iff] at h
    obtain ⟨fields, -, name, -, content, hcontent, type, htype, ⟨⟩⟩ := h
    simp only [FieldInit.inRange, Bool.and_eq_true]
    exact ⟨c.of_required hcontent, (Ty.codec bound).of_required htype⟩

theorem Arm.codecParts (c : Codec bound child Node.encode (·.inRange = true)) :
    Codec bound (Arm.decodeParts child)
      (fun p => .obj [("condition", encodeOptional p.1), ("body", p.2.encode)])
      fun p => Node.inRange? p.1 = true ∧ p.2.inRange = true where
  inverts p h := Codec.inverts_object fun levels hb hf => by
    simp only [fitsFields, Bool.and_eq_true, and_true] at hf
    rw [encodeOptional_eq, Node.inRange?_iff] at *
    have condition := (c.nullable Node.encode_ne_null).inverts _ h.1 levels hb.le hf.1
    have body := c.inverts _ h.2 levels hb.le hf.2
    simp -implicitDefEqProofs [Arm.decodeParts, Fields.optional, condition, body]
  yields levels json p h := by
    simp only [Arm.decodeParts, Option.bind_eq_bind, Option.bind_eq_some_iff] at h
    obtain ⟨fields, -, condition, hcondition, body, hbody, ⟨⟩⟩ := h
    exact ⟨(Node.inRange?_iff _).2 (c.of_optional Node.encode_ne_null hcondition),
      c.of_required hbody⟩

theorem Case.codecParts (c : Codec bound child Node.encode (·.inRange = true)) :
    Codec bound (Case.decodeParts child)
      (fun p => .obj [("value", .int p.1), ("body", p.2.encode)])
      fun p => isInt64 p.1 = true ∧ p.2.inRange = true where
  inverts p h := Codec.inverts_object fun levels hb hf => by
    simp only [fitsFields, Bool.and_eq_true, and_true] at hf
    have value := (Codec.int64 bound).inverts _ h.1 levels hb.le hf.1
    have body := c.inverts _ h.2 levels hb.le hf.2
    simp -implicitDefEqProofs [Case.decodeParts, value, body]
  yields levels json p h := by
    simp only [Case.decodeParts, Option.bind_eq_bind, Option.bind_eq_some_iff] at h
    obtain ⟨fields, -, value, hvalue, body, hbody, ⟨⟩⟩ := h
    exact ⟨(Codec.int64 bound).of_required hvalue, c.of_required hbody⟩

theorem Arm.codecWith (c : Codec bound child Node.encode (·.inRange = true)) :
    Codec (bound + 1) (Arm.decodeWith child) Arm.encode (·.inRange = true) where
  inverts arm h levels hb hf := by
    obtain ⟨condition, body, span⟩ := arm
    simp only [Arm.inRange, Bool.and_eq_true] at h
    have parts := (codecSpanned (Arm.codecParts c)).inverts ((condition, body), span) h levels hb hf
    exact ⟨parts.1, Option.bind_eq_some_iff.2 ⟨_, parts.2, rfl⟩⟩
  yields levels json arm h := by
    obtain ⟨parts, hparts, ⟨⟩⟩ := Option.bind_eq_some_iff.1 h
    simpa [Arm.inRange] using (codecSpanned (Arm.codecParts c)).yields _ _ _ hparts

theorem Case.codecWith (c : Codec bound child Node.encode (·.inRange = true)) :
    Codec (bound + 1) (Case.decodeWith child) Case.encode (·.inRange = true) where
  inverts case h levels hb hf := by
    obtain ⟨value, body, span⟩ := case
    simp only [Case.inRange, Bool.and_eq_true] at h
    have parts := (codecSpanned (Case.codecParts c)).inverts ((value, body), span) h levels hb hf
    exact ⟨parts.1, Option.bind_eq_some_iff.2 ⟨_, parts.2, rfl⟩⟩
  yields levels json case h := by
    obtain ⟨parts, hparts, ⟨⟩⟩ := Option.bind_eq_some_iff.1 h
    simpa [Case.inRange] using (codecSpanned (Case.codecParts c)).yields _ _ _ hparts

/-! ## Kinds of nodes -/

theorem codecNamed (bound : Nat) {α : Type} {inside : Bool} {names : List (String × α)}
    {encode : α → Json}
    (h : ∀ x, ∃ name, encode x = .str name ∧ names.lookup name = some x) :
    Codec bound (decodeNamed inside names) encode fun _ => True where
  inverts x _ levels _ _ := by
    obtain ⟨name, hname, hx⟩ := h x
    rw [hname]
    exact ⟨rfl, hx⟩
  yields _ _ _ _ := trivial

theorem UnaryOp.codec (bound : Nat) :
    Codec bound (decodeNamed true UnaryOp.names) UnaryOp.encode fun _ => True :=
  codecNamed bound fun op => by cases op <;> exact ⟨_, rfl, rfl⟩

theorem BinaryOp.codec (bound : Nat) :
    Codec bound (decodeNamed true BinaryOp.names) BinaryOp.encode fun _ => True :=
  codecNamed bound fun op => by cases op <;> exact ⟨_, rfl, rfl⟩

theorem AssignOp.codec (bound : Nat) :
    Codec bound (decodeNamed true AssignOp.names) AssignOp.encode fun _ => True :=
  codecNamed bound fun op => by cases op <;> exact ⟨_, rfl, rfl⟩

namespace NodeKind

/-- The name of the kind decides how the other fields are read. -/
theorem inverts_fields {below : Bool} {name : String} {entries : List (String × Json)}
    {kind : NodeKind} (hname : "kind" ∉ entries.map Prod.fst)
    (h : ∀ levels ≤ bound, fitsFields levels entries = true → plainFields entries = true ∧
      decodeKind child ⟨levels, ("kind", .str name) :: entries⟩ name = some kind) :
    let json := Json.obj (("kind", .str name) :: entries)
    ∀ levels ≤ bound + 1, json.fits levels = true →
      json.plain = true ∧ decodeWith child below levels json = some kind := by
  refine Codec.inverts_object fun levels hb hf => ?_
  have rest : fitsFields levels entries = true := (Bool.and_eq_true_iff.1 hf).2
  obtain ⟨hplain, hkind⟩ := h levels (Nat.le_of_lt_succ hb) rest
  have fits : (Json.obj (("kind", .str name) :: entries)).fits (levels + 1) = true := hf
  have shape : decodeShape below (levels + 1) (.obj (("kind", .str name) :: entries)) =
      some (name, ⟨levels, ("kind", .str name) :: entries⟩) := by
    simp [decodeShape, hname, decodeName]
  refine ⟨by simp [hplain], Option.bind_eq_some_iff.2 ⟨(), if_pos fits, ?_⟩⟩
  exact Option.bind_eq_some_iff.2 ⟨_, shape, hkind⟩

/-- One layer of a tree. -/
theorem inverts_encode (below : Bool) (c : Codec bound child Node.encode (·.inRange = true))
    (kind : NodeKind) (h : kind.inRange = true) : ∀ levels ≤ bound + 1,
      kind.encode.fits levels = true →
      kind.encode.plain = true ∧ decodeWith child below levels kind.encode = some kind := by
  have optional := c.nullable Node.encode_ne_null
  cases kind <;> rw [encode] <;> refine inverts_fields (by simp) fun levels hb hf => ?_ <;>
    simp only [inRange, Bool.and_eq_true, Node.allInRange_iff, Node.inRange?_iff,
      Arm.allInRange_iff, Case.allInRange_iff, FieldInit.allInRange_iff] at h <;>
    simp only [fitsFields, Bool.and_eq_true, and_true, encodeNodes_eq, encodeOptional_eq,
      encodeArms_eq, encodeCases_eq, encodeFieldInits_eq] at hf ⊢
  case block content =>
    have content := c.list.inverts _ h levels hb hf
    simp -implicitDefEqProofs [decodeKind, decodeBlock, content]
  case unary op type value =>
    have op := (UnaryOp.codec bound).inverts op trivial levels hb hf.1
    have type := (Ty.codec bound).inverts _ h.1 levels hb hf.2.1
    have value := c.inverts _ h.2 levels hb hf.2.2
    simp -implicitDefEqProofs [decodeKind, decodeUnary, op, type, value]
  case binary op type left right =>
    have op := (BinaryOp.codec bound).inverts op trivial levels hb hf.1
    have type := (Ty.codec bound).inverts _ h.1.1 levels hb hf.2.1
    have left := c.inverts _ h.1.2 levels hb hf.2.2.1
    have right := c.inverts _ h.2 levels hb hf.2.2.2
    simp -implicitDefEqProofs [decodeKind, decodeBinary, op, type, left, right]
  case convert source target =>
    have source := c.inverts _ h.1 levels hb hf.1
    have target := (Ty.codec bound).inverts _ h.2 levels hb hf.2
    simp -implicitDefEqProofs [decodeKind, decodeConvert, source, target]
  case nil type =>
    have type := (Ty.codec bound).inverts _ h levels hb hf
    simp -implicitDefEqProofs [decodeKind, decodeNil, type]
  case number literal type | string literal type | bool literal type | callId literal type |
      getField literal type | getPath literal type | ptrGetField literal type =>
    have type := (Ty.codec bound).inverts _ h levels hb hf.2
    simp -implicitDefEqProofs [decodeKind, decodeNumber, decodeString, decodeBool, decodeCallId,
      decodeGetField, decodeGetPath, decodePtrGetField, type]
  case char literal type =>
    have literal := (Codec.uint8 bound).inverts literal trivial levels hb hf.1
    have type := (Ty.codec bound).inverts _ h levels hb hf.2
    simp -implicitDefEqProofs [decodeKind, decodeChar, literal, type]
  case array size type values =>
    have size := (Codec.uint64 bound).inverts _ h.1.1 levels hb hf.1
    have type := (Ty.codec bound).inverts _ h.1.2 levels hb hf.2.1
    have values := c.list.inverts _ h.2 levels hb hf.2.2
    simp -implicitDefEqProofs [decodeKind, decodeArray, size, type, values]
  case structInit type fields =>
    have type := (Ty.codec bound).inverts _ h.1 levels hb hf.1
    have inits := (FieldInit.codecWith c).list.inverts _ h.2 levels hb hf.2
    simp -implicitDefEqProofs [decodeKind, decodeStructInit, type, inits]
  case call type chain =>
    have type := (Ty.codec bound).inverts _ h.1 levels hb hf.1
    have chain := c.list.inverts _ h.2 levels hb hf.2
    simp -implicitDefEqProofs [decodeKind, decodeCall, type, chain]
  case callIndex type index =>
    have type := (Ty.codec bound).inverts _ h.1 levels hb hf.1
    have index := c.inverts _ h.2 levels hb hf.2
    simp -implicitDefEqProofs [decodeKind, decodeCallIndex, type, index]
  case callFunc type args byReference =>
    have type := (Ty.codec bound).inverts _ h.1 levels hb hf.1
    have args := c.list.inverts _ h.2 levels hb hf.2.1
    have flags := (Codec.bool bound).list.inverts byReference (fun _ _ => trivial) levels hb hf.2.2
    simp -implicitDefEqProofs [decodeKind, decodeCallFunc, type, args, flags]
  case define name type init =>
    have type := (Ty.codec bound).inverts _ h.1 levels hb hf.2.1
    have init := c.inverts _ h.2 levels hb hf.2.2
    simp -implicitDefEqProofs [decodeKind, decodeDefine, type, init]
  case assign op left right =>
    have op := (AssignOp.codec bound).inverts op trivial levels hb hf.1
    have left := c.inverts _ h.1 levels hb hf.2.1
    have right := c.inverts _ h.2 levels hb hf.2.2
    simp -implicitDefEqProofs [decodeKind, decodeAssign, op, left, right]
  case branch arms =>
    have arms := (Arm.codecWith c).list.inverts _ h levels (Nat.le_succ_of_le hb) hf
    simp -implicitDefEqProofs [decodeKind, decodeBranch, arms]
  case switch condition cases otherwise =>
    have condition := c.inverts _ h.1.1 levels hb hf.1
    have cases := (Case.codecWith c).list.inverts _ h.1.2 levels (Nat.le_succ_of_le hb) hf.2.1
    have otherwise := optional.inverts _ h.2 levels hb hf.2.2
    simp -implicitDefEqProofs [decodeKind, decodeSwitch, Fields.optional, condition, cases,
      otherwise]
  case breakLoop | continueLoop => simp [decodeKind]
  case loop condition body update =>
    have condition := c.inverts _ h.1.1 levels hb hf.1
    have body := c.inverts _ h.1.2 levels hb hf.2.1
    have update := optional.inverts _ h.2 levels hb hf.2.2
    simp -implicitDefEqProofs [decodeKind, decodeLoop, Fields.optional, condition, body, update]
  case ret value byReference =>
    have value := optional.inverts _ h levels hb hf.1
    simp -implicitDefEqProofs [decodeKind, decodeRet, Fields.optional, value]

theorem inRange_of_decodeKind (c : Codec bound child Node.encode (·.inRange = true))
    {fields : Fields} {name : String} {kind : NodeKind}
    (h : decodeKind child fields name = some kind) : kind.inRange = true := by
  have types := Ty.codec bound
  unfold decodeKind at h
  -- The cases are numbered in the order of `shapes`.
  split at h
  all_goals try simp only [decodeBlock, decodeUnary, decodeBinary, decodeConvert, decodeNil,
    decodeNumber, decodeString, decodeChar, decodeBool, decodeArray, decodeStructInit, decodeCall,
    decodeCallId, decodeCallIndex, decodeCallFunc, decodeGetField, decodeGetPath, decodePtrGetField,
    decodeDefine, decodeAssign, decodeBranch, decodeSwitch, decodeLoop, decodeRet,
    Option.bind_eq_bind, Option.bind_eq_some_iff] at h
  case h_1 =>
    obtain ⟨content, hcontent, ⟨⟩⟩ := h
    exact (Node.allInRange_iff _).2 (c.list.of_required hcontent)
  case h_2 =>
    obtain ⟨op, -, type, htype, value, hvalue, ⟨⟩⟩ := h
    simp [inRange, types.of_required htype, c.of_required hvalue]
  case h_3 =>
    obtain ⟨op, -, type, htype, left, hleft, right, hright, ⟨⟩⟩ := h
    simp [inRange, types.of_required htype, c.of_required hleft, c.of_required hright]
  case h_4 =>
    obtain ⟨source, hsource, target, htarget, ⟨⟩⟩ := h
    simp [inRange, c.of_required hsource, types.of_required htarget]
  case h_5 =>
    obtain ⟨type, htype, ⟨⟩⟩ := h
    exact types.of_required htype
  case h_6 | h_7 | h_8 | h_9 | h_13 | h_16 | h_17 | h_18 =>
    obtain ⟨literal, -, type, htype, ⟨⟩⟩ := h
    exact types.of_required htype
  case h_10 =>
    obtain ⟨size, hsize, type, htype, values, hvalues, ⟨⟩⟩ := h
    have values := c.list.of_withDefault hvalues (List.forall_mem_nil _)
    simp [inRange, (Codec.uint64 bound).of_required hsize, types.of_required htype,
      (Node.allInRange_iff _).2 values]
  case h_11 =>
    obtain ⟨type, htype, inits, hinits, ⟨⟩⟩ := h
    have inits := (FieldInit.codecWith c).list.of_required hinits
    simp [inRange, types.of_required htype, (FieldInit.allInRange_iff _).2 inits]
  case h_12 =>
    obtain ⟨type, htype, chain, hchain, ⟨⟩⟩ := h
    simp [inRange, types.of_required htype, (Node.allInRange_iff _).2 (c.list.of_required hchain)]
  case h_14 =>
    obtain ⟨type, htype, index, hindex, ⟨⟩⟩ := h
    simp [inRange, types.of_required htype, c.of_required hindex]
  case h_15 =>
    obtain ⟨type, htype, args, hargs, flags, -, ⟨⟩⟩ := h
    simp [inRange, types.of_required htype, (Node.allInRange_iff _).2 (c.list.of_required hargs)]
  case h_19 =>
    obtain ⟨name, -, type, htype, init, hinit, ⟨⟩⟩ := h
    simp [inRange, types.of_required htype, c.of_required hinit]
  case h_20 =>
    obtain ⟨op, -, left, hleft, right, hright, ⟨⟩⟩ := h
    simp [inRange, c.of_required hleft, c.of_required hright]
  case h_21 =>
    obtain ⟨arms, harms, ⟨⟩⟩ := h
    exact (Arm.allInRange_iff _).2 ((Arm.codecWith c).list.of_required harms)
  case h_22 =>
    obtain ⟨condition, hcondition, cases, hcases, otherwise, hotherwise, ⟨⟩⟩ := h
    have cases := (Case.codecWith c).list.of_required hcases
    have otherwise := c.of_optional Node.encode_ne_null hotherwise
    simp [inRange, c.of_required hcondition, (Case.allInRange_iff _).2 cases,
      (Node.inRange?_iff _).2 otherwise]
  case h_23 | h_24 =>
    cases h
    rfl
  case h_25 =>
    obtain ⟨condition, hcondition, body, hbody, update, hupdate, ⟨⟩⟩ := h
    have update := c.of_optional Node.encode_ne_null hupdate
    simp [inRange, c.of_required hcondition, c.of_required hbody, (Node.inRange?_iff _).2 update]
  case h_26 =>
    obtain ⟨value, hvalue, flag, -, ⟨⟩⟩ := h
    exact (Node.inRange?_iff _).2 (c.of_optional Node.encode_ne_null hvalue)
  case h_27 => cases h

theorem codecWith (below : Bool) (c : Codec bound child Node.encode (·.inRange = true)) :
    Codec (bound + 1) (decodeWith child below) encode (·.inRange = true) where
  inverts := inverts_encode below c
  yields levels json kind h := by
    obtain ⟨_, -, h⟩ := Option.bind_eq_some_iff.1 h
    obtain ⟨⟨name, fields⟩, -, h⟩ := Option.bind_eq_some_iff.1 h
    exact inRange_of_decodeKind c h

end NodeKind

/-! ## Nodes -/

namespace Node

theorem codecWith (below : Bool) (c : Codec bound child encode (·.inRange = true)) :
    Codec (bound + 1) (decodeWith below child) encode (·.inRange = true) where
  inverts node h levels hb hf := by
    obtain ⟨kind, span⟩ := node
    have parts := (codecSpanned (NodeKind.codecWith below c)).inverts (kind, span)
      (Bool.and_eq_true_iff.1 h) levels (Nat.le_succ_of_le hb) hf
    exact ⟨parts.1, Option.bind_eq_some_iff.2 ⟨_, parts.2, rfl⟩⟩
  yields levels json node h := by
    obtain ⟨parts, hparts, ⟨⟩⟩ := Option.bind_eq_some_iff.1 h
    exact Bool.and_eq_true_iff.2
      ((codecSpanned (NodeKind.codecWith below c)).yields _ _ _ hparts)

theorem codecBelow (height : Nat) :
    Codec height (decodeBelow height) encode (·.inRange = true) := by
  induction height with
  | zero =>
    refine ⟨fun node _ levels hb hf => ?_, nofun⟩
    obtain rfl := Nat.le_zero.1 hb
    cases node
    cases hf
  | succ height ih => exact codecWith true ih

theorem codec (bound : Nat) : Codec bound Node.decode encode (·.inRange = true) where
  inverts node h levels _ hf :=
    (codecWith false (codecBelow levels)).inverts node h levels (Nat.le_succ levels) hf
  yields levels json node h :=
    (codecWith false (codecBelow levels)).yields levels json node h

end Node

end Parts

end Codegen
