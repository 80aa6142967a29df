import Codegen.Proofs.Storage.Payload
import Codegen.Proofs.TwoRuns.Independence
import Codegen.Proofs.Types.Printed

/-!
# Calls with further arguments

A call of a function that takes further arguments lists the types of the parameters in front of
the callee, in the order of its head.  The head quotes these types and the call does not, so the
two texts agree exactly if no type needs quotes.
-/

namespace Codegen

/-! ## Names that are quoted -/

namespace Text

theorem starless_append_trailingStars (name : List Char) :
    starless name ++ trailingStars name = name := by
  rw [starless, trailingStars, ← List.reverse_append, List.takeWhile_append_dropWhile,
    List.reverse_reverse]

theorem length_quoteBase (name : List Char) : (quoteBase name).length = name.length + 2 := by
  have parts := congrArg List.length (starless_append_trailingStars name)
  rw [List.length_append] at parts
  fun_cases quoteBase name <;> simp_all <;> omega

/-- The printed form of a name that is no array. -/
theorem quoteChars_of_arrayParts? {name : List Char} (h : arrayParts? name = none) :
    quoteChars name = if name.any needsQuotes then quoteBase name else name := by
  rw [quoteChars]
  split
  · split
    · rename_i found
      rw [h] at found
      cases found
    · rfl
  · rfl

theorem arrayParts?_of_head {name : List Char} (h : name.head? ≠ some '[') :
    arrayParts? name = none := by
  have unbracketed : bracketed? name = none := by
    unfold bracketed?
    split
    · exact absurd rfl h
    · rfl
  rw [arrayParts?, unbracketed]
  rfl

/-- Apart from arrays, quoting leaves exactly those names alone that need no quotes. -/
theorem quoted_eq_self_iff {name : String} (h : name.toList.head? ≠ some '[') :
    quoted name = name ↔ ∀ c ∈ name.toList, needsQuotes c = false := by
  have bare : (∀ c ∈ name.toList, needsQuotes c = false) ↔ name.toList.any needsQuotes = false := by
    simp
  rw [bare, ← String.toList_inj, quoted, String.toList_ofList,
    quoteChars_of_arrayParts? (arrayParts?_of_head h)]
  cases name.toList.any needsQuotes with
  | false => simp
  | true =>
    have longer := length_quoteBase name.toList
    refine iff_of_false (fun same => ?_) (by decide)
    rw [if_pos rfl] at same
    rw [same] at longer
    omega

end Text

theorem TypeMap.head?_map (types : TypeMap) (ty : Ty) : (types.map ty).toList.head? ≠ some '[' := by
  obtain ⟨c, hc, head⟩ : ∃ c ∈ initials,
      (pointable (types.baseName ty) (levels ty)).toList.head? = some c := by
    unfold pointable
    split
    · exact ⟨'i', by decide, rfl⟩
    · exact types.head?_baseName ty
  rw [map, String.toList_append, List.head?_append, head]
  rintro ⟨⟩
  exact absurd hc (by decide)

/-! ## Printed calls and heads -/

namespace Ir

open Text (quoted join)

/-- The result that a printed call is bound to. -/
def resultText (dest : Value) : String :=
  match dest with
  | .var _ => dest.text ++ " = "
  | _ => ""

/-- The arguments of a printed call and its debug record. -/
def argumentText (debug : Bool) (args : List (String × Value)) (location : Option Nat) : String :=
  "(" ++ join ", " (args.map fun arg => quoted arg.1 ++ " " ++ arg.2.text) ++ ")" ++
    recordText ", " debug location

/-- The parameters of a head, given the texts of their types. -/
def headParams (types : List String) (params : List (String × String)) : List String :=
  List.zipWith (fun type param => type ++ " " ++ localName param.1) types params

theorem text_call (debug : Bool) (name returnType : String) (dest : Value)
    (args : List (String × Value)) (signature : String) (location : Option Nat) :
    (Inst.call name returnType dest args (some signature) location).text debug =
      resultText dest ++ "call " ++ quoted returnType ++ " " ++ signature ++ " " ++
        globalName name ++ argumentText debug args location := by
  cases dest <;> simp only [Inst.text, resultText, argumentText, String.append_assoc]

theorem Function.paramTexts_of_isVariadic {f : Function} (h : f.isVariadic = true) :
    f.paramTexts = headParams (f.params.map fun param => quoted param.2) f.params ++ ["..."] := by
  rw [paramTexts, if_pos h, headParams, List.zipWith_map_left, List.zipWith_self]

end Ir

namespace Lowering

open Ir (Inst Value)

variable {context : Context} {symbols : SymbolTable} {config : Config} {m : Ir.Module}

/-- The parameter list that is known for a function whose name no other function has. -/
theorem get?_variadicSignatures {types : TypeMap}
    (distinct : ((context.decls ++ context.impls).map Func.name).Nodup) {f : Func}
    (hf : f ∈ context.decls ++ context.impls) (hv : f.isVariadic = true) :
    (variadicSignatures types context).get? f.name = some (variadicSignature types f) := by
  have keys : ((((context.decls ++ context.impls).filter Func.isVariadic).map fun f =>
      (f.name, variadicSignature types f)).map Prod.fst).Nodup := by
    rw [List.map_map]
    exact distinct.sublist (List.filter_sublist.map Func.name)
  exact Dict.get?_ofList keys (List.mem_map_of_mem (List.mem_filter.2 ⟨hf, hv⟩))

/-- The types that a variadic call lists are, in order, the parameter types in the head of its
callee without their quotes.  They are printed alike exactly if none of them needs quotes. -/
theorem variadic_calls_list_the_parameters (h : lowerProgram context symbols config = .ok m)
    (distinct : ((context.decls ++ context.impls).map Func.name).Nodup)
    {callee : Ir.Function} (hcallee : callee ∈ m.decls ++ m.impls)
    (hv : callee.isVariadic = true) {caller : Ir.Function} (hcaller : caller ∈ m.impls)
    {returnType : String} {dest : Value} {args : List (String × Value)} {signature : Option String}
    {location : Option Nat}
    (hi : Inst.call callee.name returnType dest args signature location ∈ caller.insts)
    (debug : Bool) :
    ∃ listed printed : List String,
      (Inst.call callee.name returnType dest args signature location).text debug =
        Ir.resultText dest ++ "call " ++ Text.quoted returnType ++
          " (" ++ Text.join ", " (listed ++ ["..."]) ++ ") " ++
          Ir.globalName callee.name ++ Ir.argumentText debug args location ∧
      callee.head debug =
        (if callee.isDeclaration then "declare " else "define ") ++
          Text.quoted callee.returnType ++ " " ++ Ir.globalName callee.name ++
          "(" ++ Text.join ", " (Ir.headParams printed callee.params ++ ["..."]) ++ ")" ++
          Text.concat (callee.attributes.map (" " ++ ·)) ++ Ir.recordText " " debug callee.record ∧
      printed.length = callee.params.length ∧
      listed.map Text.quoted = printed ∧
      (listed = printed ↔
        ∀ type ∈ listed, ∀ c ∈ type.toList, Text.needsQuotes c = false) := by
  obtain ⟨f, hf, head⟩ := exists_mem_of_forall₂ (forall₂_headOf h).flip hcallee
  have listed : signature = some callee.variadicList := by
    rw [signature_of_mem h hcaller hi rfl, head.name, head.variadicList]
    exact get?_variadicSignatures distinct hf (head.isVariadic.symm.trans hv)
  have unbracketed : ∀ type ∈ callee.params.map Prod.snd, type.toList.head? ≠ some '[' := by
    rw [head.params]
    intro type ht
    obtain ⟨_, hparam, rfl⟩ := List.mem_map.1 ht
    obtain ⟨param, -, rfl⟩ := List.mem_map.1 hparam
    exact TypeMap.head?_map _ param.2
  refine ⟨callee.params.map Prod.snd, (callee.params.map Prod.snd).map Text.quoted, ?_, ?_, ?_,
    rfl, ?_⟩
  · rw [listed, Ir.text_call, Ir.Function.variadicList]
    simp only [String.append_assoc]
    rfl
  · rw [Ir.Function.head, Ir.Function.paramTexts_of_isVariadic hv, List.map_map]
    rfl
  · rw [List.length_map, List.length_map]
  · calc
      _ ↔ (callee.params.map Prod.snd).map Text.quoted = (callee.params.map Prod.snd).map id := by
        rw [List.map_id, eq_comm]
      _ ↔ ∀ type ∈ callee.params.map Prod.snd, Text.quoted type = type := List.map_inj_left
      _ ↔ _ := forall₂_congr fun type ht => Text.quoted_eq_self_iff (unbracketed type ht)

namespace Sample

open Codegen.Sample

def vector : Ty := { name := "vec", path := "m", generics := [.i64], depth := 1 }

/-- Adds up vectors. -/
def sum : Func where
  name := "sum"
  params := [("first", vector)]
  returnType := .i64
  isVariadic := true

/-- Adds up one vector. -/
def relay : Func where
  name := "relay"
  params := [("v", vector)]
  returnType := .void
  body := some <| node <| .block
    [ node <| .call .i64
        [ node (.callId "sum" { name := "sum", path := "c", isGlobal := true }),
          node (.callFunc .i64 [node (.call vector [node (.callId "v" vector)])] []) ] ]

def relaying : Context where
  structs := [{ name := "vec<i64>", path := "m", parts := [.i64] }]
  decls := [sum]
  impls := [relay]

def vectors : SymbolTable :=
  (SymbolTable.addFunction {} "c" { name := "sum", isExternal := true }).addStruct "m"
    { name := "vec<i64>", fields := [⟨"size", .i64⟩] }

def sumHead : Ir.Function := declaration (.ofSymbols vectors) sum

def sumCall : Inst :=
  .call "sum" "i64" (.var "_1") [("%struct.m.vec<i64>*", .var "_0")]
    (some "(%struct.m.vec<i64>*, ...)") (some 23)

theorem relaying_lowered :
    ∃ m, lowerProgram relaying vectors {} = .ok m ∧ sumHead ∈ m.decls ++ m.impls ∧
      ∃ caller ∈ m.impls, sumCall ∈ caller.insts := by
  have found : (lowerProgram relaying vectors {}).toOption.map (fun m =>
      decide (sumHead ∈ m.decls ++ m.impls ∧ ∃ caller ∈ m.impls, sumCall ∈ caller.insts)) =
        some true := by
    decide +kernel
  cases h : lowerProgram relaying vectors {} with
  | error e =>
    rw [h] at found
    cases found
  | ok m =>
    rw [h] at found
    exact ⟨m, rfl, of_decide_eq_true (Option.some.inj found)⟩

end Sample

/-- The call lists the one parameter of the head, without the quotes that the head has. -/
theorem sum_call_lists_the_parameters :
    ((Sample.relaying.decls ++ Sample.relaying.impls).map Func.name).Nodup ∧
      Sample.sumHead.isVariadic = true ∧
      ∃ m, lowerProgram Sample.relaying Sample.vectors {} = .ok m ∧
        Sample.sumHead ∈ m.decls ++ m.impls ∧
        ∃ caller ∈ m.impls, Sample.sumCall ∈ caller.insts ∧
          ∃ listed printed : List String,
            Sample.sumCall.text false =
              Ir.resultText (.var "_1") ++ "call " ++ Text.quoted "i64" ++
                " (" ++ Text.join ", " (listed ++ ["..."]) ++ ") " ++ Ir.globalName "sum" ++
                Ir.argumentText false [("%struct.m.vec<i64>*", .var "_0")] (some 23) ∧
            Sample.sumHead.head false =
              "declare " ++ Text.quoted "i64" ++ " " ++ Ir.globalName "sum" ++
                "(" ++ Text.join ", " (Ir.headParams printed Sample.sumHead.params ++ ["..."]) ++
                ")" ∧
            printed.length = 1 ∧ listed.map Text.quoted = printed ∧
            (listed = printed ↔
              ∀ type ∈ listed, ∀ c ∈ type.toList, Text.needsQuotes c = false) := by
  obtain ⟨m, h, hcallee, caller, hcaller, hi⟩ := Sample.relaying_lowered
  have distinct : ((Sample.relaying.decls ++ Sample.relaying.impls).map Func.name).Nodup := by
    decide
  obtain ⟨listed, printed, text, head, rest⟩ :=
    variadic_calls_list_the_parameters h distinct hcallee rfl hcaller hi false
  have bare (text : String) : text ++ "" ++ "" = text := by simp
  exact ⟨distinct, rfl, m, h, hcallee, caller, hcaller, hi, listed, printed, text,
    head.trans (bare _), rest⟩

/-- A type with arguments is quoted in the head of a function and bare in a call of it. -/
theorem sum_call_is_not_printed_like_its_head :
    ((Sample.relaying.decls ++ Sample.relaying.impls).map Func.name).Nodup ∧
      ∃ m, lowerProgram Sample.relaying Sample.vectors {} = .ok m ∧
        ∃ callee ∈ m.decls ++ m.impls, callee.isVariadic = true ∧
          callee.head false = "declare i64 @sum(%\"struct.m.vec<i64>\"* %first.param, ...)" ∧
          ∃ caller ∈ m.impls, ∃ inst ∈ caller.insts,
            inst.text false =
              "%_1 = call i64 (%struct.m.vec<i64>*, ...) @sum(%\"struct.m.vec<i64>\"* %_0)" := by
  obtain ⟨m, h, hcallee, caller, hcaller, hi⟩ := Sample.relaying_lowered
  exact ⟨by decide, m, h, _, hcallee, rfl, by decide +kernel, caller, hcaller, _, hi,
    by decide +kernel⟩

end Lowering

end Codegen
