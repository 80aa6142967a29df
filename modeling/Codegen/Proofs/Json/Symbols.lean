import Codegen.Proofs.Json.Codec

/-!
# Types and symbols are read back

Decoder and encoder of every type of the symbol table belong together.  The valid values are those
whose numbers are in the ranges of their fields.
-/

namespace Codegen

open Json

/-! ## Spans -/

def Span.inRange (span : Span) : Bool :=
  isUInt64 span.start && isUInt64 span.stop && isUInt64 span.line && isUInt64 span.column

theorem Span.codec (bound : Nat) : Codec bound Span.decode Span.encode (·.inRange = true) where
  inverts span h := Codec.inverts_object fun levels hb hf => by
    simp only [Span.inRange, Bool.and_eq_true] at h
    obtain ⟨⟨⟨hstart, hstop⟩, hline⟩, hcolumn⟩ := h
    simp only [fitsFields, Bool.and_eq_true, and_true] at hf
    obtain ⟨fstart, fstop, fline, fcolumn⟩ := hf
    have start := (Codec.uint64 bound).inverts _ hstart levels hb.le fstart
    have stop := (Codec.uint64 bound).inverts _ hstop levels hb.le fstop
    have line := (Codec.uint64 bound).inverts _ hline levels hb.le fline
    have column := (Codec.uint64 bound).inverts _ hcolumn levels hb.le fcolumn
    simp -implicitDefEqProofs [Span.decode, start, stop, line, column]
  yields levels json span h := by
    simp only [Span.decode, Option.bind_eq_bind, Option.bind_eq_some_iff] at h
    obtain ⟨fields, -, start, hstart, stop, hstop, line, hline, column, hcolumn, ⟨⟩⟩ := h
    simp [Span.inRange, (Codec.uint64 bound).of_required hstart,
      (Codec.uint64 bound).of_required hstop, (Codec.uint64 bound).of_withDefault hline rfl,
      (Codec.uint64 bound).of_withDefault hcolumn rfl]

/-! ## Types -/

namespace Ty

mutual

def inRange : Ty → Bool
  | { depth, generics, arrayLength, .. } =>
    isInt64 depth && allInRange generics && isUInt64 arrayLength

def allInRange : List Ty → Bool
  | [] => true
  | ty :: rest => ty.inRange && allInRange rest

end

theorem allInRange_iff (tys : List Ty) :
    allInRange tys = true ↔ ∀ ty ∈ tys, ty.inRange = true :=
  all_iff rfl (fun _ _ => rfl) tys

theorem encodeAll_eq (tys : List Ty) : encodeAll tys = tys.map encode :=
  eq_map rfl (fun _ _ => rfl) tys

/-- A type whose generic arguments are read back. -/
theorem codecWith {bound : Nat} {argument : Decoder Ty}
    (c : Codec bound argument encode (·.inRange = true)) :
    Codec (bound + 1) (decodeWith argument) encode (·.inRange = true) where
  inverts ty h := by
    obtain ⟨name, path, depth, generics, isGlobal, isEnum, isArray, arrayLength, isReference⟩ := ty
    simp only [inRange, Bool.and_eq_true, allInRange_iff] at h
    obtain ⟨⟨hdepth, hgenerics⟩, hlength⟩ := h
    rw [encode, encodeAll_eq]
    refine Codec.inverts_object fun levels hb hf => ?_
    have hb : levels ≤ bound := Nat.le_of_lt_succ hb
    simp only [fitsFields, Bool.and_eq_true, and_true] at hf
    obtain ⟨-, -, fdepth, fgenerics, -, -, -, flength, -⟩ := hf
    have depths := (Codec.int64 bound).inverts _ hdepth levels hb fdepth
    have arguments := c.list.inverts _ hgenerics levels hb fgenerics
    have length := (Codec.uint64 bound).inverts _ hlength levels hb flength
    simp -implicitDefEqProofs [decodeWith, depths, arguments, length]
  yields levels json ty h := by
    simp only [decodeWith, Option.bind_eq_bind, Option.bind_eq_some_iff] at h
    obtain ⟨fields, -, name, -, path, -, depth, hdepth, generics, hgenerics, isGlobal, -, isEnum, -,
      isArray, -, arrayLength, hlength, isReference, -, ⟨⟩⟩ := h
    have arguments := c.list.of_withDefault hgenerics (List.forall_mem_nil _)
    simp only [inRange, Bool.and_eq_true, allInRange_iff]
    exact ⟨⟨(Codec.int64 bound).of_withDefault hdepth rfl, arguments⟩,
      (Codec.uint64 bound).of_withDefault hlength rfl⟩

theorem codecWithin (height : Nat) :
    Codec height (decodeWithin height) encode (·.inRange = true) := by
  induction height with
  | zero =>
    refine ⟨fun ty _ levels hb hf => ?_, nofun⟩
    obtain rfl := Nat.le_zero.1 hb
    cases ty
    cases hf
  | succ height ih => exact codecWith ih

theorem codec (bound : Nat) : Codec bound Ty.decode encode (·.inRange = true) where
  inverts ty h levels _ hf := (codecWithin levels).inverts ty h levels le_rfl hf
  yields levels json ty h := (codecWithin levels).yields levels json ty h

end Ty

/-! ## Symbols -/

def FieldSymbol.inRange (field : FieldSymbol) : Bool := field.type.inRange

theorem FieldSymbol.codec (bound : Nat) :
    Codec bound FieldSymbol.decode FieldSymbol.encode (·.inRange = true) where
  inverts field h := Codec.inverts_object fun levels hb hf => by
    simp only [fitsFields, Bool.and_eq_true, and_true] at hf
    have type := (Ty.codec bound).inverts _ h levels hb.le hf.2
    simp -implicitDefEqProofs [FieldSymbol.decode, type]
  yields levels json field h := by
    simp only [FieldSymbol.decode, Option.bind_eq_bind, Option.bind_eq_some_iff] at h
    obtain ⟨fields, -, name, -, type, htype, ⟨⟩⟩ := h
    exact (Ty.codec bound).of_required htype

def StructSymbol.inRange (s : StructSymbol) : Bool :=
  s.fields.all FieldSymbol.inRange && isUInt64 s.line

theorem StructSymbol.codec (bound : Nat) :
    Codec bound StructSymbol.decode StructSymbol.encode (·.inRange = true) where
  inverts s h := Codec.inverts_object fun levels hb hf => by
    simp only [StructSymbol.inRange, Bool.and_eq_true, List.all_eq_true] at h
    simp only [fitsFields, Bool.and_eq_true, and_true] at hf
    obtain ⟨-, fmembers, fmethods, fline⟩ := hf
    have members := (FieldSymbol.codec bound).list.inverts _ h.1 levels hb.le fmembers
    have methods := (Codec.nameSet bound).inverts s.methods trivial levels hb.le fmethods
    have line := (Codec.uint64 bound).inverts _ h.2 levels hb.le fline
    simp -implicitDefEqProofs [StructSymbol.decode, members, methods, line]
  yields levels json s h := by
    simp only [StructSymbol.decode, Option.bind_eq_bind, Option.bind_eq_some_iff] at h
    obtain ⟨fields, -, name, -, members, hmembers, methods, -, line, hline, ⟨⟩⟩ := h
    simp only [StructSymbol.inRange, Bool.and_eq_true, List.all_eq_true]
    exact ⟨(FieldSymbol.codec bound).list.of_withDefault hmembers (List.forall_mem_nil _),
      (Codec.uint64 bound).of_withDefault hline rfl⟩

def UnionMember.inRange (member : UnionMember) : Bool :=
  member.type.inRange && isInt64 member.tag

theorem UnionMember.codec (bound : Nat) :
    Codec bound UnionMember.decode UnionMember.encode (·.inRange = true) where
  inverts member h := Codec.inverts_object fun levels hb hf => by
    simp only [UnionMember.inRange, Bool.and_eq_true] at h
    simp only [fitsFields, Bool.and_eq_true, and_true] at hf
    have type := (Ty.codec bound).inverts _ h.1 levels hb.le hf.2.1
    have tag := (Codec.int64 bound).inverts _ h.2 levels hb.le hf.2.2
    simp -implicitDefEqProofs [UnionMember.decode, type, tag]
  yields levels json member h := by
    simp only [UnionMember.decode, Option.bind_eq_bind, Option.bind_eq_some_iff] at h
    obtain ⟨fields, -, name, -, type, htype, tag, htag, ⟨⟩⟩ := h
    simp only [UnionMember.inRange, Bool.and_eq_true]
    exact ⟨(Ty.codec bound).of_required htype, (Codec.int64 bound).of_required htag⟩

def UnionSymbol.inRange (u : UnionSymbol) : Bool :=
  u.members.all UnionMember.inRange && isUInt64 u.line

theorem UnionSymbol.codec (bound : Nat) :
    Codec bound UnionSymbol.decode UnionSymbol.encode (·.inRange = true) where
  inverts u h := Codec.inverts_object fun levels hb hf => by
    simp only [UnionSymbol.inRange, Bool.and_eq_true, List.all_eq_true] at h
    simp only [fitsFields, Bool.and_eq_true, and_true] at hf
    obtain ⟨-, fmembers, fmethods, fline⟩ := hf
    have members := (UnionMember.codec bound).list.inverts _ h.1 levels hb.le fmembers
    have methods := (Codec.nameSet bound).inverts u.methods trivial levels hb.le fmethods
    have line := (Codec.uint64 bound).inverts _ h.2 levels hb.le fline
    simp -implicitDefEqProofs [UnionSymbol.decode, members, methods, line]
  yields levels json u h := by
    simp only [UnionSymbol.decode, Option.bind_eq_bind, Option.bind_eq_some_iff] at h
    obtain ⟨fields, -, name, -, members, hmembers, methods, -, line, hline, ⟨⟩⟩ := h
    simp only [UnionSymbol.inRange, Bool.and_eq_true, List.all_eq_true]
    exact ⟨(UnionMember.codec bound).list.of_withDefault hmembers (List.forall_mem_nil _),
      (Codec.uint64 bound).of_withDefault hline rfl⟩

def EnumSymbol.inRange (e : EnumSymbol) : Bool :=
  e.members.all (fun member => isInt64 member.2) && isUInt64 e.line

theorem EnumSymbol.codec (bound : Nat) :
    Codec bound EnumSymbol.decode EnumSymbol.encode (·.inRange = true) where
  inverts e h := Codec.inverts_object fun levels hb hf => by
    simp only [EnumSymbol.inRange, Bool.and_eq_true, List.all_eq_true] at h
    simp only [fitsFields, Bool.and_eq_true, and_true] at hf
    have members := ((Codec.string bound).pair (Codec.int64 bound)).list.inverts _
      (fun member hm => ⟨trivial, h.1 member hm⟩) levels hb.le hf.2.1
    have line := (Codec.uint64 bound).inverts _ h.2 levels hb.le hf.2.2
    simp -implicitDefEqProofs [EnumSymbol.decode, members, line]
  yields levels json e h := by
    simp only [EnumSymbol.decode, Option.bind_eq_bind, Option.bind_eq_some_iff] at h
    obtain ⟨fields, -, name, -, members, hmembers, line, hline, ⟨⟩⟩ := h
    have pairs := ((Codec.string bound).pair (Codec.int64 bound)).list.of_withDefault hmembers
      (List.forall_mem_nil _)
    simp only [EnumSymbol.inRange, Bool.and_eq_true, List.all_eq_true]
    exact ⟨fun member hm => (pairs member hm).2, (Codec.uint64 bound).of_withDefault hline rfl⟩

theorem FunctionSymbol.codec (bound : Nat) :
    Codec bound FunctionSymbol.decode FunctionSymbol.encode fun _ => True where
  inverts f _ := Codec.inverts_object fun levels _ _ => by
    simp -implicitDefEqProofs [FunctionSymbol.decode]
  yields _ _ _ _ := trivial

theorem PrimitiveSymbol.codec (bound : Nat) :
    Codec bound PrimitiveSymbol.decode PrimitiveSymbol.encode fun _ => True where
  inverts p _ := Codec.inverts_object fun levels hb hf => by
    simp only [fitsFields, Bool.and_eq_true, and_true] at hf
    have methods := (Codec.nameSet bound).inverts p.methods trivial levels hb.le hf.2
    simp -implicitDefEqProofs [PrimitiveSymbol.decode, methods]
  yields _ _ _ _ := trivial

def ModuleSymbols.inRange (m : ModuleSymbols) : Bool :=
  m.structs.entries.all (·.2.inRange) && m.unions.entries.all (·.2.inRange) &&
    m.enums.entries.all (·.2.inRange)

theorem ModuleSymbols.codec (bound : Nat) :
    Codec bound ModuleSymbols.decode ModuleSymbols.encode (·.inRange = true) where
  inverts m h := Codec.inverts_object fun levels hb hf => by
    simp only [ModuleSymbols.inRange, Bool.and_eq_true, List.all_eq_true] at h
    obtain ⟨⟨hstructs, hunions⟩, henums⟩ := h
    simp only [fitsFields, Bool.and_eq_true, and_true] at hf
    obtain ⟨-, fstructs, funions, fenums, ffunctions⟩ := hf
    have structs := (StructSymbol.codec bound).dict.inverts _ hstructs levels hb.le fstructs
    have unions := (UnionSymbol.codec bound).dict.inverts _ hunions levels hb.le funions
    have enums := (EnumSymbol.codec bound).dict.inverts _ henums levels hb.le fenums
    have functions := (FunctionSymbol.codec bound).dict.inverts _ (fun _ _ => trivial) levels hb.le
      ffunctions
    simp -implicitDefEqProofs [ModuleSymbols.decode, structs, unions, enums, functions]
  yields levels json m h := by
    simp only [ModuleSymbols.decode, Option.bind_eq_bind, Option.bind_eq_some_iff] at h
    obtain ⟨fields, -, file, -, structs, hstructs, unions, hunions, enums, henums, functions, -,
      ⟨⟩⟩ := h
    simp only [ModuleSymbols.inRange, Bool.and_eq_true, List.all_eq_true]
    exact ⟨⟨(StructSymbol.codec bound).dict.of_withDefault hstructs (List.forall_mem_nil _),
      (UnionSymbol.codec bound).dict.of_withDefault hunions (List.forall_mem_nil _)⟩,
      (EnumSymbol.codec bound).dict.of_withDefault henums (List.forall_mem_nil _)⟩

def SymbolTable.inRange (table : SymbolTable) : Bool := table.modules.entries.all (·.2.inRange)

theorem SymbolTable.codec (bound : Nat) :
    Codec bound SymbolTable.decode SymbolTable.encode (·.inRange = true) where
  inverts table h := Codec.inverts_object fun levels hb hf => by
    simp only [SymbolTable.inRange, List.all_eq_true] at h
    simp only [fitsFields, Bool.and_eq_true, and_true] at hf
    have primitives := (PrimitiveSymbol.codec bound).dict.inverts _ (fun _ _ => trivial) levels
      hb.le hf.2.1
    have modules := (ModuleSymbols.codec bound).dict.inverts _ h levels hb.le hf.2.2
    simp -implicitDefEqProofs [SymbolTable.decode, primitives, modules]
  yields levels json table h := by
    simp only [SymbolTable.decode, Option.bind_eq_bind, Option.bind_eq_some_iff] at h
    obtain ⟨fields, -, inputFile, -, primitives, -, modules, hmodules, ⟨⟩⟩ := h
    simp only [SymbolTable.inRange, List.all_eq_true]
    exact (ModuleSymbols.codec bound).dict.of_withDefault hmodules (List.forall_mem_nil _)

end Codegen
