import Codegen.Proofs.Names.Mangled
import Codegen.Proofs.Storage.Payload
import Codegen.Proofs.TwoRuns.Independence
import Codegen.Proofs.Types.Printed

/-!
# Every type of a module is declared

If the symbol table and the definitions of a program agree, a type that a lowered program names is
built from numbers, declared structs and tagged unions, and types that nothing declares, which are
marked as such.  One pass takes a pointer level off a printed type, so a name that ends with `*`
would be taken for a pointer.
-/

namespace Codegen

/-! ## Names that end like pointers -/

namespace Text

/-- A name ends like the printed form of a pointer. -/
def IsStarred (text : String) : Prop := ['*'] <:+ text.toList

instance (text : String) : Decidable (IsStarred text) := inferInstanceAs (Decidable (_ <:+ _))

theorem suffix_append {c : Char} {front cs : List Char} (h : [c] <:+ front ++ cs) :
    [c] <:+ cs ∨ cs = [] ∧ [c] <:+ front := by
  induction front with
  | nil => exact .inl h
  | cons d front ih =>
    rcases List.suffix_cons_iff.1 h with h | h
    · obtain ⟨rfl, hnil⟩ := List.cons.inj h
      obtain ⟨rfl, rfl⟩ := List.append_eq_nil_iff.1 hnil.symm
      exact .inr ⟨rfl, List.suffix_rfl⟩
    · exact (ih h).imp_right fun ⟨hcs, hfront⟩ => ⟨hcs, hfront.trans (List.suffix_cons _ _)⟩

theorem dotted_eq_nil {cs : List Char} (h : dotted cs = []) : cs = [] := by
  fun_cases dotted cs <;> simp_all [dotted]

theorem suffix_of_dotted {cs : List Char} (h : ['*'] <:+ dotted cs) : ['*'] <:+ cs := by
  fun_induction dotted cs with
  | case1 => exact h
  | case2 rest ih =>
    rcases List.suffix_cons_iff.1 h with h | h
    · cases h
    · exact (ih h).trans ((List.suffix_cons _ _).trans (List.suffix_cons _ _))
  | case3 c rest _ ih =>
    rcases List.suffix_cons_iff.1 h with h | h
    · obtain ⟨rfl, hnil⟩ := List.cons.inj h
      obtain rfl := dotted_eq_nil hnil.symm
      exact List.suffix_rfl
    · exact (ih h).trans (List.suffix_cons _ _)

/-- A symbol name ends with `*` only if the qualified name does. -/
theorem IsStarred.of_mangle {name : String} (h : IsStarred (mangle name)) : IsStarred name := by
  rw [IsStarred, mangle, String.toList_ofList, mangleChars] at h
  rw [IsStarred, ← List.takeWhile_append_dropWhile (p := (· ≠ '<')) (l := name.toList)]
  rcases suffix_append h with h | ⟨hnil, h⟩
  · exact h.trans (List.suffix_append _ _)
  · rw [hnil, List.append_nil]
    exact suffix_of_dotted h

theorem IsStarred.of_append {front text : String} (h : IsStarred (front ++ text))
    (hfront : ¬ IsStarred front) : IsStarred text := by
  rw [IsStarred, String.toList_append] at h
  rcases suffix_append h with h | ⟨-, h⟩
  · exact h
  · exact absurd h hfront

theorem isStarred_append_star (front : String) : IsStarred (front ++ "*") := by
  rw [IsStarred, String.toList_append]
  exact List.suffix_append _ _

theorem IsStarred.exists_eq {text : String} (h : IsStarred text) :
    ∃ front, text = front ++ "*" := by
  obtain ⟨front, hfront⟩ := h
  refine ⟨String.ofList front, ?_⟩
  rw [← String.toList_inj, String.toList_append, String.toList_ofList]
  exact hfront.symm

end Text

end Codegen

namespace Codegen.Ir

/-- The types that a function names: of its result, its parameters, its stack slots, and in its
instructions and terminators. -/
def Function.types (f : Function) : List String :=
  f.returnType :: (f.params.map Prod.snd ++ (f.slots.map Slot.type ++
    (f.insts.flatMap Inst.types ++ f.blocks.flatMap fun b => b.terminator.types)))

namespace Module

variable (m : Module)

/-- The types that a module names: of the parts of its tagged unions and structs, and in its
functions. -/
def types : List String :=
  (m.unions ++ m.structs).flatMap TypeDecl.parts ++ (m.decls ++ m.impls).flatMap Function.types

/-- What pointer levels can stand behind: a number, a declared struct or tagged union, or a name
that is marked as undeclared. -/
inductive Base : String → Prop where
  | number {base : String}
      (h : base ∈ ["i1", "i8", "i16", "i32", "i64", "float", "double"]) : Base base
  | struct {d : TypeDecl} (h : d ∈ m.structs) : Base ("%struct." ++ d.name)
  | union {d : TypeDecl} (h : d ∈ m.unions) : Base ("%tagged_union." ++ d.name)
  | undeclared (rest : String) : Base ("undef." ++ rest)

/-- A type that is no array. -/
inductive Plain : String → Prop where
  | void : Plain "void"
  | pointer {base : String} (h : m.Base base) (levels : Nat) : Plain (base ++ Text.stars levels)

/-- A type whose parts are declared. -/
inductive Declares : String → Prop where
  | plain {type : String} (h : m.Plain type) : Declares type
  | array (size : Nat) {element : String} (h : m.Plain element) :
    Declares ("[" ++ Text.decimal size ++ " x " ++ element ++ "]")

end Module

end Codegen.Ir

namespace Codegen

open Ir Lowering

/-! ## Printed types -/

/-- Every struct and tagged union that is known by its full path is declared in the module, and its
path does not end like a pointer. -/
structure TypeMap.Agrees (types : TypeMap) (m : Module) : Prop where
  struct {path : String} (h : types.kinds.get? path = some .struct) :
    (∃ d ∈ m.structs, d.name = Text.mangle path) ∧ ¬ Text.IsStarred path
  union {path : String} (h : types.kinds.get? path = some .union) :
    (∃ d ∈ m.unions, d.name = Text.mangle path) ∧ ¬ Text.IsStarred path

namespace TypeMap.Agrees

variable {types : TypeMap} {m : Module}

theorem base_declaredName (h : types.Agrees m) (ty : Ty) : m.Base (types.declaredName ty) := by
  unfold declaredName
  split
  · rename_i found
    obtain ⟨⟨d, hd, hname⟩, -⟩ := h.struct found
    rw [← hname]
    exact .struct hd
  · rename_i found
    obtain ⟨⟨d, hd, hname⟩, -⟩ := h.union found
    rw [← hname]
    exact .union hd
  · exact .number (by decide)
  · exact .undeclared _

theorem base_baseName (h : types.Agrees m) (ty : Ty) :
    types.baseName ty = "void" ∨ m.Base (types.baseName ty) := by
  unfold baseName
  split
  · rename_i base hbase
    split at hbase
    · have mem := basicType?_mem hbase
      by_cases hvoid : base = "void"
      · exact .inl hvoid
      · refine .inr (.number ?_)
        simp only [List.mem_cons, List.not_mem_nil, or_false] at mem ⊢
        tauto
    · cases hbase
  · split
    · exact .inr (.number (by decide))
    · exact .inr (h.base_declaredName ty)

theorem base_pointable (h : types.Agrees m) (ty : Ty) (levels : Nat) :
    m.Base (pointable (types.baseName ty) (levels + 1)) := by
  unfold pointable
  split
  · exact .number (by decide)
  · rename_i hv
    refine (h.base_baseName ty).resolve_left fun hvoid => hv ?_
    simp [hvoid]

theorem plain_map (h : types.Agrees m) (ty : Ty) : m.Plain (types.map ty) := by
  unfold map
  cases hl : levels ty with
  | zero =>
    have bare : pointable (types.baseName ty) 0 ++ Text.stars 0 = types.baseName ty := by
      simp [pointable, Text.stars]
    rw [bare]
    rcases h.base_baseName ty with hvoid | hbase
    · rw [hvoid]
      exact .void
    · have plain := Module.Plain.pointer hbase 0
      simpa [Text.stars] using plain
  | succ k => exact .pointer (h.base_pointable ty k) _

theorem declares_mapStored (h : types.Agrees m) (ty : Ty) : m.Declares (types.mapStored ty) := by
  unfold mapStored
  split
  · exact .array _ (h.plain_map _)
  · exact .plain (h.plain_map ty)

theorem declaredName_of_isStarred (h : types.Agrees m) {ty : Ty}
    (hs : Text.IsStarred (types.declaredName ty)) :
    types.declaredName ty = "undef." ++ ty.fullPath := by
  unfold declaredName at hs ⊢
  cases hk : types.kinds.get? ty.fullPath with
  | none => rfl
  | some kind =>
    rw [hk] at hs
    cases kind with
    | struct => exact absurd (hs.of_append (by decide)).of_mangle (h.struct hk).2
    | union => exact absurd (hs.of_append (by decide)).of_mangle (h.union hk).2
    | enum =>
      have unstarred : ¬ Text.IsStarred "i64" := by decide
      exact absurd hs unstarred
    | _ => rfl

/-- A printed type without pointer levels that still ends with `*` is one that nothing declares. -/
theorem baseName_of_isStarred (h : types.Agrees m) {ty : Ty}
    (hs : Text.IsStarred (types.baseName ty)) : types.baseName ty = "undef." ++ ty.fullPath := by
  unfold baseName at hs ⊢
  split at hs
  · rename_i base hbase
    have unstarred : ∀ base ∈ ["i64", "i32", "i16", "i8", "double", "float", "void", "i1"],
        ¬ Text.IsStarred base := by decide
    split at hbase
    · exact absurd hs (unstarred base (basicType?_mem hbase))
    · cases hbase
  · split at hs
    · exact absurd hs (by decide)
    · rename_i henum
      rw [if_neg henum]
      exact h.declaredName_of_isStarred hs

/-- What a printed type points to. -/
theorem plain_of_pointer (h : types.Agrees m) {ty : Ty} {type : String}
    (ht : type ++ "*" = types.map ty) : m.Plain type := by
  unfold map at ht
  cases hl : levels ty with
  | zero =>
    have bare : pointable (types.baseName ty) 0 ++ Text.stars 0 = types.baseName ty := by
      simp [pointable, Text.stars]
    rw [hl, bare] at ht
    have starred : Text.IsStarred (types.baseName ty) := ht ▸ Text.isStarred_append_star type
    have undeclared := h.baseName_of_isStarred starred
    rw [undeclared] at ht starred
    obtain ⟨path, hpath⟩ := (starred.of_append (by decide)).exists_eq
    rw [hpath, ← String.append_assoc, String.append_left_inj] at ht
    rw [ht]
    have plain := Module.Plain.pointer (Module.Base.undeclared (m := m) path) 0
    simpa [Text.stars] using plain
  | succ k =>
    rw [hl, Text.stars_succ, ← String.append_assoc, String.append_left_inj] at ht
    rw [ht]
    exact .pointer (h.base_pointable ty k) k

end TypeMap.Agrees

/-! ## Programs -/

/-- Every struct and every tagged union of the symbol table has a definition with the same full
path, which does not end like a pointer. -/
structure Context.Defines (context : Context) (symbols : SymbolTable) : Prop where
  struct {path name : String} {entry : ModuleSymbols} (h : (path, entry) ∈ symbols.modules.entries)
    (hname : name ∈ entry.structs.keys) :
    (∃ a ∈ context.structs, a.fullPath = Ty.qualify path name) ∧
      ¬ Text.IsStarred (Ty.qualify path name)
  union {path name : String} {entry : ModuleSymbols} (h : (path, entry) ∈ symbols.modules.entries)
    (hname : name ∈ entry.unions.keys) :
    (∃ a ∈ context.unions, a.fullPath = Ty.qualify path name) ∧
      ¬ Text.IsStarred (Ty.qualify path name)

/-- What is known under a full path comes from an entry of the symbol table. -/
theorem TypeMap.exists_entry_of_get? {symbols : SymbolTable} {path : String} {kind : SymbolKind}
    (h : (TypeMap.ofSymbols symbols).kinds.get? path = some kind) :
    ∃ module entry name, (module, entry) ∈ symbols.modules.entries ∧
      path = Ty.qualify module name ∧
      (kind = .struct ∧ name ∈ entry.structs.keys ∨ kind = .union ∧ name ∈ entry.unions.keys ∨
        kind = .enum ∧ name ∈ entry.enums.keys) := by
  obtain ⟨⟨module, entry⟩, hentry, hmem⟩ := List.mem_flatMap.1 (Dict.mem_of_get?_ofList h)
  simp only [TypeMap.pathsOf, List.mem_append, List.mem_map, Prod.mk.injEq] at hmem
  obtain (⟨name, hname, rfl, rfl⟩ | ⟨name, hname, rfl, rfl⟩) | ⟨name, hname, rfl, rfl⟩ := hmem
  · exact ⟨module, entry, name, hentry, rfl, .inl ⟨rfl, hname⟩⟩
  · exact ⟨module, entry, name, hentry, rfl, .inr (.inl ⟨rfl, hname⟩)⟩
  · exact ⟨module, entry, name, hentry, rfl, .inr (.inr ⟨rfl, hname⟩)⟩

namespace Lowering

variable {context : Context} {symbols : SymbolTable} {config : Config} {m : Module}

/-- A definition of a struct is declared in the module. -/
theorem exists_structDecl (h : lowerProgram context symbols config = .ok m) {a : Aggregate}
    (ha : a ∈ context.structs) : ∃ d ∈ m.structs, d.name = Text.mangle a.fullPath := by
  obtain ⟨impls, strings, debugInfo, rfl⟩ := lowerProgram_frame h
  exact ⟨_, List.mem_map_of_mem ha, rfl⟩

/-- A definition of a tagged union is declared in the module, since an accepted program has a layout
for each. -/
theorem exists_unionDecl (h : lowerProgram context symbols config = .ok m) {a : Aggregate}
    (ha : a ∈ context.unions) : ∃ d ∈ m.unions, d.name = Text.mangle a.fullPath := by
  obtain ⟨hbuilt, -, -⟩ := lowerProgram_ok h
  have laid := List.filterMap_eq_nil_iff.1 (List.append_eq_nil_iff.1 hbuilt).1 a ha
  rw [lowerProgram_unions h]
  cases hl : (LayoutTable.compute context symbols).union? a.type with
  | none => simp [unionError?, hl] at laid
  | some layout =>
    exact ⟨_, List.mem_filterMap.2 ⟨a, ha, congrArg (Option.map _) hl⟩, rfl⟩

theorem agrees_ofSymbols (h : lowerProgram context symbols config = .ok m)
    (hd : context.Defines symbols) : (TypeMap.ofSymbols symbols).Agrees m where
  struct found := by
    obtain ⟨module, entry, name, hentry, rfl, ⟨-, hname⟩ | ⟨hk, -⟩ | ⟨hk, -⟩⟩ :=
      TypeMap.exists_entry_of_get? found
    · obtain ⟨⟨a, ha, hpath⟩, unstarred⟩ := hd.struct hentry hname
      exact ⟨hpath ▸ exists_structDecl h ha, unstarred⟩
    · cases hk
    · cases hk
  union found := by
    obtain ⟨module, entry, name, hentry, rfl, ⟨hk, -⟩ | ⟨-, hname⟩ | ⟨hk, -⟩⟩ :=
      TypeMap.exists_entry_of_get? found
    · cases hk
    · obtain ⟨⟨a, ha, hpath⟩, unstarred⟩ := hd.union hentry hname
      exact ⟨hpath ▸ exists_unionDecl h ha, unstarred⟩
    · cases hk

/-! ## Parts of declarations -/

theorem declares_unionParts {types : TypeMap} (h : types.Agrees m) (layout : UnionLayout) :
    ∀ part ∈ unionParts types layout, m.Declares part := by
  unfold unionParts
  split
  · exact List.forall_mem_nil _
  · refine List.forall_mem_cons.2 ⟨h.declares_mapStored _, ?_⟩
    split
    · have byte : m.Plain ("i8" ++ Text.stars 0) := .pointer (.number (by decide)) 0
      have bytes := Module.Declares.array (layout.storage - layout.widestSize) byte
      simpa [Text.stars, String.append_assoc] using bytes
    · exact List.forall_mem_nil _

theorem declares_parts (h : lowerProgram context symbols config = .ok m)
    (hd : context.Defines symbols) {d : TypeDecl} (hmem : d ∈ m.unions ++ m.structs) :
    ∀ part ∈ d.parts, m.Declares part := by
  have agrees := agrees_ofSymbols h hd
  rcases List.mem_append.1 hmem with hmem | hmem
  · rw [lowerProgram_unions h] at hmem
    obtain ⟨a, -, hd⟩ := List.mem_filterMap.1 hmem
    obtain ⟨layout, -, rfl⟩ := Option.map_eq_some_iff.1 hd
    exact declares_unionParts agrees layout
  · obtain ⟨impls, strings, debugInfo, rfl⟩ := lowerProgram_frame h
    obtain ⟨a, -, rfl⟩ := List.mem_map.1 hmem
    exact List.forall_mem_map.2 fun part _ => agrees.declares_mapStored part

/-! ## Functions -/

section Function

variable {env : Env}

theorem plain_of_prints (h : env.types.Agrees m) {type : String} (ht : env.Prints type) :
    m.Plain type := by
  obtain ⟨ty, rfl⟩ := ht
  exact h.plain_map ty

theorem declares_of_stores (h : env.types.Agrees m) {type : String} (ht : env.Stores type) :
    m.Declares type := by
  obtain ht | ⟨size, element, he, rfl⟩ := ht
  · exact .plain (plain_of_prints h ht)
  · exact .array size (plain_of_prints h he)

theorem plain_of_mentions (h : env.types.Agrees m) {type : String} (ht : env.Mentions type) :
    m.Plain type := by
  obtain ht | ⟨ty, ht⟩ := ht
  · exact plain_of_prints h ht
  · exact h.plain_of_pointer ht

theorem declares_passed (h : env.types.Agrees m) {g : Function} (hg : FunctionConforms env g) :
    ∀ type ∈ (passed g).types, m.Declares type := by
  have terminators : ((passed g).blocks.flatMap fun b => b.terminator.types) =
      g.blocks.flatMap fun b => b.terminator.types := by
    simp [passed, Function.replace, Block.replace, List.flatMap_map]
  refine List.forall_mem_cons.2 ⟨.plain (plain_of_prints h hg.returnType), ?_⟩
  refine List.forall_mem_append.2
    ⟨fun type ht => .plain (plain_of_prints h (hg.params type ht)), ?_⟩
  refine List.forall_mem_append.2 ⟨?_, List.forall_mem_append.2 ⟨?_, ?_⟩⟩
  · exact List.forall_mem_map.2 fun slot hs => declares_of_stores h (hg.slots slot hs)
  · refine List.forall_mem_flatMap.2 fun inst hi type ht => ?_
    exact .plain (plain_of_mentions h ((hg.passed inst hi).types type ht))
  · rw [terminators]
    refine List.forall_mem_flatMap.2 fun b hb type ht => ?_
    exact .plain (plain_of_prints h (hg.terminators b hb type ht))

theorem declares_declaration {types : TypeMap} (h : types.Agrees m) (f : Func) :
    ∀ type ∈ (declaration types f).types, m.Declares type := by
  have named : (declaration types f).types =
      types.map f.returnType :: f.params.map fun param => types.map param.2 := by
    simp [Function.types, declaration, Function.insts]
  rw [named]
  refine List.forall_mem_cons.2 ⟨.plain (h.plain_map _), ?_⟩
  exact List.forall_mem_map.2 fun param _ => .plain (h.plain_map _)

end Function

theorem declares_types (h : lowerProgram context symbols config = .ok m)
    (hd : context.Defines symbols) : ∀ type ∈ m.types, m.Declares type := by
  have agrees := agrees_ofSymbols h hd
  refine List.forall_mem_append.2 ⟨?_, ?_⟩
  · exact List.forall_mem_flatMap.2 fun d hmem => declares_parts h hd hmem
  · refine List.forall_mem_flatMap.2 fun g hg => ?_
    rcases List.mem_append.1 hg with hg | hg
    · obtain ⟨impls, strings, debugInfo, rfl⟩ := lowerProgram_frame h
      obtain ⟨f, -, rfl⟩ := List.mem_map.1 hg
      exact declares_declaration agrees f
    · obtain ⟨f, -, g₀, ⟨strings, debugInfo, -, rfl⟩, rfl⟩ := exists_loweredFrom_of_mem h hg
      exact declares_passed agrees (conforms_lowerFunction _ f strings debugInfo)

/-- All types of a lowered program are declared if its symbols are defined, those in the parameter
lists of its calls among them. -/
theorem types_are_declared (h : lowerProgram context symbols config = .ok m)
    (hd : context.Defines symbols) :
    (∀ type ∈ m.types, m.Declares type) ∧
      ∀ g ∈ m.impls, ∀ inst ∈ g.insts, ∀ name signature,
        inst.signature? = some (name, some signature) →
          ∃ callee ∈ m.decls ++ m.impls, callee.name = name ∧
            signature = "(" ++ Text.join ", " (callee.params.map Prod.snd ++ ["..."]) ++ ")" ∧
            ∀ type ∈ callee.params.map Prod.snd, m.Declares type := by
  refine ⟨declares_types h hd, fun g hg inst hi name signature hs => ?_⟩
  obtain ⟨callee, hcallee, hname, -, rfl⟩ := exists_callee h hg hi hs
  refine ⟨callee, hcallee, hname, rfl, fun type ht => declares_types h hd type ?_⟩
  refine List.mem_append_right _ (List.mem_flatMap.2 ⟨callee, hcallee, ?_⟩)
  exact List.mem_cons_of_mem _ (List.mem_append_left _ ht)

namespace Sample

open Codegen.Sample

/-- A pair of numbers. -/
def pair : Aggregate := { name := "pair", path := "m", parts := [.i64, .i32] }

/-- Makes a pair, asks for its address, and says so. -/
def point : Func where
  name := "point"
  returnType := .void
  body := some <| node <| .block
    [ node <| .define "x" (.named "pair" "m") <| node <| .call (.named "pair" "m")
        [node (.structInit (.named "pair" "m") [])],
      node <| .call (Ty.named "pair" "m").pointer
        [ node (.callId "x" (.named "pair" "m")),
          node (.getField "__ptr__" (Ty.named "pair" "m").pointer),
          node (.callFunc (Ty.named "pair" "m").pointer [] []) ],
      say "there" ]

def pointing : Context where
  structs := [pair]
  unions := [choice (.named "pair" "m")]
  decls := [printf]
  impls := [pick, point]

def pairs : SymbolTable :=
  (printing.addStruct "m"
    { name := "pair", fields := [⟨"a", .i64⟩, ⟨"b", .i32⟩],
      methods := .ofList ["__ptr__"] }).addUnion "m"
    { name := "choice", members := [⟨"other", .named "pair" "m", 0⟩, ⟨"word", .i32, 1⟩] }

theorem pointing_defines : pointing.Defines pairs := by
  have structs : ∀ e ∈ pairs.modules.entries, ∀ name ∈ e.2.structs.keys,
      (∃ a ∈ pointing.structs, a.fullPath = Ty.qualify e.1 name) ∧
        ¬ Text.IsStarred (Ty.qualify e.1 name) := by decide +kernel
  have unions : ∀ e ∈ pairs.modules.entries, ∀ name ∈ e.2.unions.keys,
      (∃ a ∈ pointing.unions, a.fullPath = Ty.qualify e.1 name) ∧
        ¬ Text.IsStarred (Ty.qualify e.1 name) := by decide +kernel
  exact ⟨fun h hname => structs _ h _ hname, fun h hname => unions _ h _ hname⟩

end Sample

/-- The call for the address of a pair is replaced, and its type is still declared. -/
theorem pointing_types_are_declared :
    Sample.pointing.Defines Sample.pairs ∧
      ∃ m, lowerProgram Sample.pointing Sample.pairs {} = .ok m ∧
        "%struct.m.pair*" ∈ m.types ∧ "%tagged_union.m.choice" ∈ m.types ∧
        (∀ type ∈ m.types, m.Declares type) ∧
        ∃ g ∈ m.impls, ∃ inst ∈ g.insts, inst.signature? = some ("printf", some "(i8*, ...)") ∧
          ∃ callee ∈ m.decls ++ m.impls, callee.name = "printf" ∧
            "(i8*, ...)" = "(" ++ Text.join ", " (callee.params.map Prod.snd ++ ["..."]) ++ ")" ∧
            ∀ type ∈ callee.params.map Prod.snd, m.Declares type := by
  refine ⟨Sample.pointing_defines, ?_⟩
  have named : (lowerProgram Sample.pointing Sample.pairs {}).toOption.map (fun m =>
      decide ("%struct.m.pair*" ∈ m.types ∧ "%tagged_union.m.choice" ∈ m.types ∧
        ∃ g ∈ m.impls, ∃ inst ∈ g.insts,
          inst.signature? = some ("printf", some "(i8*, ...)"))) = some true := by
    decide +kernel
  cases h : lowerProgram Sample.pointing Sample.pairs {} with
  | error e =>
    rw [h] at named
    cases named
  | ok m =>
    rw [h] at named
    obtain ⟨hstruct, hunion, g, hg, inst, hi, hs⟩ := of_decide_eq_true (Option.some.inj named)
    obtain ⟨declared, listed⟩ := types_are_declared h Sample.pointing_defines
    exact ⟨m, rfl, hstruct, hunion, declared, g, hg, inst, hi, hs, listed g hg inst hi _ _ hs⟩

end Lowering

end Codegen
