import Codegen.Program.Codec
import Codegen.Proofs.Json.Nodes
import Codegen.Proofs.Operands

/-!
# Programs are read back

The text of a program is read as this program, as long as its arrays and objects do not nest deeper
than a text may.
-/

namespace Codegen

open Json

/-! ## Definitions -/

def Aggregate.inRange (a : Aggregate) : Bool := a.span.inRange && Ty.allInRange a.parts

theorem Aggregate.codec (bound : Nat) {partsName : String}
    (hp : partsName = "field_types" ∨ partsName = "member_types") :
    Codec bound (Aggregate.decode partsName) (Aggregate.encode partsName) (·.inRange = true) where
  inverts a h := Codec.inverts_object fun levels hb hf => by
    simp only [Aggregate.inRange, Bool.and_eq_true, Ty.allInRange_iff] at h
    simp only [fitsFields, Bool.and_eq_true, and_true, Ty.encodeAll_eq] at hf ⊢
    have span := (Span.codec bound).inverts _ h.1 levels hb.le hf.2.2.2.1
    have parts := (Ty.codec bound).list.inverts _ h.2 levels hb.le hf.2.2.2.2
    rcases hp with rfl | rfl <;>
      simp -implicitDefEqProofs [Aggregate.decode, span, parts]
  yields levels json a h := by
    simp only [Aggregate.decode, Option.bind_eq_bind, Option.bind_eq_some_iff] at h
    obtain ⟨fields, -, name, -, path, -, file, -, span, hspan, parts, hparts, ⟨⟩⟩ := h
    simp only [Aggregate.inRange, Bool.and_eq_true, Ty.allInRange_iff]
    exact ⟨(Span.codec bound).of_withDefault hspan rfl,
      (Ty.codec bound).list.of_withDefault hparts (List.forall_mem_nil _)⟩

def Func.inRange (f : Func) : Bool :=
  f.span.inRange && f.params.all (·.2.inRange) && f.returnType.inRange && Node.inRange? f.body

theorem Func.codec (bound : Nat) : Codec bound Func.decode Func.encode (·.inRange = true) where
  inverts f h := Codec.inverts_object fun levels hb hf => by
    simp only [Func.inRange, Bool.and_eq_true, List.all_eq_true, Node.inRange?_iff] at h
    simp only [fitsFields, Bool.and_eq_true, and_true, encodeOptional_eq] at hf ⊢
    have span := (Span.codec bound).inverts _ h.1.1.1 levels hb.le hf.2.2.1
    have params := ((Codec.string bound).pair (Ty.codec bound)).list.inverts _
      (fun param hm => ⟨trivial, h.1.1.2 param hm⟩) levels hb.le hf.2.2.2.1
    have result := (Ty.codec bound).inverts _ h.1.2 levels hb.le hf.2.2.2.2.1
    have attributes := (Codec.string bound).list.inverts f.attributes (fun _ _ => trivial) levels
      hb.le hf.2.2.2.2.2.1
    have body := ((Node.codec bound).nullable Node.encode_ne_null).inverts _ h.2 levels hb.le
      hf.2.2.2.2.2.2.2
    simp -implicitDefEqProofs [Func.decode, Fields.optional, Json.texts, span, params, result,
      attributes, body]
  yields levels json f h := by
    simp only [Func.decode, Option.bind_eq_bind, Option.bind_eq_some_iff] at h
    obtain ⟨fields, -, name, -, file, -, span, hspan, params, hparams, result, hresult, attributes,
      -, isVariadic, -, body, hbody, ⟨⟩⟩ := h
    have pairs := ((Codec.string bound).pair (Ty.codec bound)).list.of_withDefault hparams
      (List.forall_mem_nil _)
    simp only [Func.inRange, Bool.and_eq_true, List.all_eq_true, Node.inRange?_iff]
    exact ⟨⟨⟨(Span.codec bound).of_withDefault hspan rfl, fun param hm => (pairs param hm).2⟩,
      (Ty.codec bound).of_required hresult⟩,
      (Node.codec bound).of_optional Node.encode_ne_null hbody⟩

def Context.inRange (context : Context) : Bool :=
  context.structs.all Aggregate.inRange && context.unions.all Aggregate.inRange &&
    context.decls.all Func.inRange && context.impls.all Func.inRange

theorem Context.codec (bound : Nat) :
    Codec bound Context.decode Context.encode (·.inRange = true) where
  inverts context h := Codec.inverts_object fun levels hb hf => by
    simp only [Context.inRange, Bool.and_eq_true, List.all_eq_true] at h
    obtain ⟨⟨⟨hstructs, hunions⟩, hdecls⟩, himpls⟩ := h
    simp only [fitsFields, Bool.and_eq_true, and_true] at hf
    obtain ⟨fstructs, funions, fdecls, fimpls⟩ := hf
    have structs := (Aggregate.codec bound (.inl rfl)).list.inverts _ hstructs levels hb.le fstructs
    have unions := (Aggregate.codec bound (.inr rfl)).list.inverts _ hunions levels hb.le funions
    have decls := (Func.codec bound).list.inverts _ hdecls levels hb.le fdecls
    have impls := (Func.codec bound).list.inverts _ himpls levels hb.le fimpls
    simp -implicitDefEqProofs [Context.decode, structs, unions, decls, impls]
  yields levels json context h := by
    simp only [Context.decode, Option.bind_eq_bind, Option.bind_eq_some_iff] at h
    obtain ⟨fields, -, structs, hstructs, unions, hunions, decls, hdecls, impls, himpls, ⟨⟩⟩ := h
    have structs := (Aggregate.codec bound (.inl rfl)).list.of_withDefault hstructs
      (List.forall_mem_nil _)
    have unions := (Aggregate.codec bound (.inr rfl)).list.of_withDefault hunions
      (List.forall_mem_nil _)
    have decls := (Func.codec bound).list.of_withDefault hdecls (List.forall_mem_nil _)
    have impls := (Func.codec bound).list.of_withDefault himpls (List.forall_mem_nil _)
    simp only [Context.inRange, Bool.and_eq_true, List.all_eq_true]
    exact ⟨⟨⟨structs, unions⟩, decls⟩, impls⟩

/-! ## Programs -/

namespace Program

/-- Whether all numbers of a program are in the ranges of their fields. -/
def inRange (program : Program) : Bool := program.symbols.inRange && program.context.inRange

theorem codec (bound : Nat) : Codec bound Program.decode Program.encode (·.inRange = true) where
  inverts program h := Codec.inverts_object fun levels hb hf => by
    simp only [inRange, Bool.and_eq_true] at h
    simp only [fitsFields, Bool.and_eq_true, and_true] at hf
    have symbols := (SymbolTable.codec bound).inverts _ h.1 levels hb.le hf.1
    have context := (Context.codec bound).inverts _ h.2 levels hb.le hf.2
    simp -implicitDefEqProofs [Program.decode, symbols, context]
  yields levels json program h := by
    simp only [Program.decode, Option.bind_eq_bind, Option.bind_eq_some_iff] at h
    obtain ⟨fields, -, symbols, hsymbols, context, hcontext, ⟨⟩⟩ := h
    simp only [inRange, Bool.and_eq_true]
    exact ⟨(SymbolTable.codec bound).of_withDefault hsymbols rfl,
      (Context.codec bound).of_required hcontext⟩

/-- The text of a plain value is decoded like the value. -/
theorem parse?_text_of_plain {json : Json} (h : json.plain = true) :
    parse? json.text = ofJson? json := by
  rw [parse?, read?_text h]
  rfl

theorem parse?_text {program : Program} (h : program.inRange = true)
    (hf : program.encode.fits maxLevels = true) : parse? program.text = some program := by
  obtain ⟨hplain, hdecode⟩ := (codec maxLevels).inverts program h maxLevels le_rfl hf
  rw [Program.text, parse?_text_of_plain hplain]
  exact hdecode

/-- Only programs whose numbers are in range are read. -/
theorem inRange_of_parse? {text : String} {program : Program} (h : parse? text = some program) :
    program.inRange = true := by
  obtain ⟨json, -, h⟩ := Option.bind_eq_some_iff.1 h
  exact (codec maxLevels).yields _ _ _ h

/-- What is written can be read.  The text of a program, with numbers in the ranges of their fields
and with arrays and objects that nest as deep as a text may, is read as this program.  So a program
that is read from any text is read again from its own text, if that does not nest too deep. -/
theorem programs_are_read_back :
    (∀ program : Program, program.inRange = true → program.encode.fits maxLevels = true →
      parse? program.text = some program) ∧
    ∀ (text : String) (program : Program), parse? text = some program →
      program.encode.fits maxLevels = true → parse? program.text = some program :=
  ⟨fun _ h hf => parse?_text h hf, fun _ _ h hf => parse?_text (inRange_of_parse? h) hf⟩

namespace Sample

open Codegen.Sample

/-- Strings with escapes, numbers at the ends of their ranges, nested generic arguments, trees. -/
def stock : Program where
  symbols :=
    ((SymbolTable.addStruct {} "m"
      { name := "vec<u8>",
        fields :=
          [⟨"data\n", { name := "ptr", depth := -0x8000_0000_0000_0000, generics := [i64, bool] }⟩],
        methods := .ofList ["push", "\"pop\"", "\x01"],
        line := 0xffff_ffff_ffff_ffff }).addUnion "m"
      { name := "any",
        members := [⟨"n", { name := "box", generics := [.named "m" "any"] }, -1⟩] }).addEnum ""
      { name := "color",
        members := [("red", 0x7fff_ffff_ffff_ffff), ("blue", -0x8000_0000_0000_0000)] }
  context :=
    { decls := [{ name := "puts", returnType := i64, params := [("s", bool)], isVariadic := true }],
      impls :=
        [ countUp,
          { name := "main", returnType := i64,
            body := some <| node <| .block
              [ node (.switch (number "1")
                  [.mk (-7) (node .breakLoop) { start := 0xffff_ffff_ffff_ffff, stop := 3 }] none),
                node (.branch [.mk (some (number "0")) (node (.ret none true)) {}]),
                node (.define "s" i64
                  (node (.structInit i64 [.mk "c" (node (.char 255 i64)) bool]))),
                node (.array 2 i64 [number "\t\\"]) ] } ] }

end Sample

theorem stock_is_read_back :
    Sample.stock.inRange = true ∧ Sample.stock.encode.fits maxLevels = true ∧
      parse? Sample.stock.text = some Sample.stock := by
  have range : Sample.stock.inRange = true := by decide +kernel
  have fits : Sample.stock.encode.fits maxLevels = true := by decide +kernel
  exact ⟨range, fits, programs_are_read_back.1 _ range fits⟩

namespace Sample

/-- A type with generic arguments of generic arguments, without the fields that may be missing. -/
def nestedType : Nat → Json
  | 0 => .obj [("name", .str "t")]
  | n + 1 => .obj [("name", .str "t"), ("generics", .arr [nestedType n])]

/-- A program that returns such a type, nested 127 deep. -/
def deepest : Json :=
  .obj [("context", .obj [("decls", .arr [.obj [("name", .str "f"),
    ("return_type", nestedType 61)]])])]

end Sample

/-- A text that nests as deep as a text may is read, and the text of its program nests deeper. -/
theorem exists_text_not_read_back : ∃ (text : String) (program : Program),
    parse? text = some program ∧ parse? program.text = none := by
  have plain : Sample.deepest.plain = true := by decide +kernel
  have again : (ofJson? Sample.deepest).any
      (fun program => program.encode.plain && (ofJson? program.encode).isNone) = true := by
    decide +kernel
  obtain ⟨program, read, refused⟩ := (Option.any_eq_true _ _).1 again
  obtain ⟨hplain, hnone⟩ := Bool.and_eq_true_iff.1 refused
  refine ⟨Sample.deepest.text, program, ?_, ?_⟩
  · rw [parse?_text_of_plain plain, read]
  · rw [Program.text, parse?_text_of_plain hplain]
    exact Option.isNone_iff_eq_none.1 hnone

end Program

end Codegen
