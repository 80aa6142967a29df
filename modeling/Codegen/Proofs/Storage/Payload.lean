import Codegen.Proofs.Emitted
import Codegen.Proofs.Operands
import Codegen.Proofs.Storage.Table

/-!
# The payload of a tagged union

A tagged union is declared with one of its most aligned members behind the tag, and each access to a
member first takes the address of that part.  The declaration and the access print the type of the
part in two ways.  They agree unless the member is an array, a bare `void` or a type with a negative
number of pointer levels (`map_pointer_eq_iff`).
-/

namespace Codegen

/-! ## A stored type and the pointer to it -/

theorem Text.stars_succ (n : Nat) : stars (n + 1) = stars n ++ "*" := by
  apply String.toList_inj.1
  simp [stars, String.toList_append, List.replicate_succ']

namespace TypeMap

variable (types : TypeMap) (ty : Ty)

theorem basicType?_mem {name base : String} (h : basicType? name = some base) :
    base ∈ ["i64", "i32", "i16", "i8", "double", "float", "void", "i1"] := by
  unfold basicType? at h
  grind

theorem basicType?_void {name : String} : basicType? name = some "void" ↔ name = "void" := by
  unfold basicType?
  grind

/-- The first characters of printed types without pointer levels. -/
def initials : List Char := ['i', 'd', 'f', 'v', '%', 'u']

theorem head?_declaredName :
    ∃ c ∈ initials, c ≠ 'v' ∧ (types.declaredName ty).toList.head? = some c := by
  unfold declaredName
  split
  · exact ⟨'%', by decide, by decide, by rw [String.toList_append]; rfl⟩
  · exact ⟨'%', by decide, by decide, by rw [String.toList_append]; rfl⟩
  · exact ⟨'i', by decide, by decide, rfl⟩
  · exact ⟨'u', by decide, by decide, by rw [String.toList_append]; rfl⟩

theorem head?_baseName : ∃ c ∈ initials, (types.baseName ty).toList.head? = some c := by
  unfold baseName
  split
  · rename_i base hbase
    have mem : base ∈ ["i64", "i32", "i16", "i8", "double", "float", "void", "i1"] := by
      split at hbase
      · exact basicType?_mem hbase
      · cases hbase
    have head (text : String)
        (h : text ∈ ["i64", "i32", "i16", "i8", "double", "float", "void", "i1"]) :
        text.toList.head? ∈ initials.map some := by
      revert text
      decide
    obtain ⟨c, hc, heq⟩ := List.mem_map.1 (head base mem)
    exact ⟨c, hc, heq.symm⟩
  · split
    · exact ⟨'i', by decide, rfl⟩
    · obtain ⟨c, hc, -, head⟩ := types.head?_declaredName ty
      exact ⟨c, hc, head⟩

theorem baseName_eq_void : types.baseName ty = "void" ↔ ty.path = "" ∧ ty.name = "void" := by
  have declared : types.declaredName ty ≠ "void" := by
    intro h
    obtain ⟨c, -, hc, head⟩ := types.head?_declaredName ty
    rw [h] at head
    exact hc (Option.some.inj head).symm
  unfold baseName
  by_cases hpath : ty.path = ""
  · rw [if_pos hpath]
    cases hbase : basicType? ty.name with
    | some base =>
      have void : base = "void" ↔ ty.name = "void" := by
        have found := @basicType?_void ty.name
        rwa [hbase, Option.some_inj] at found
      simpa [hpath] using void
    | none =>
      have hname : ty.name ≠ "void" := fun h => by rw [h] at hbase; cases hbase
      dsimp only
      split
      · simp [hname]
      · simp [declared, hname]
  · rw [if_neg hpath]
    dsimp only
    split
    · simp [hpath]
    · simp [declared, hpath]

/-- An array is printed with a bracket in front, which no pointer is. -/
theorem map_ne_mapArray (target : Ty) (rest : String) :
    types.map target ≠ types.mapArray ty ++ rest := by
  intro h
  obtain ⟨c, hc, head⟩ : ∃ c ∈ initials,
      (pointable (types.baseName target) (levels target)).toList.head? = some c := by
    unfold pointable
    split
    · exact ⟨'i', by decide, rfl⟩
    · exact types.head?_baseName target
  have bracket : (types.mapArray ty ++ rest).toList.head? = some '[' := by
    simp [mapArray, String.toList_append]
  have same : (types.map target).toList.head? = some c := by
    rw [map, String.toList_append, List.head?_append, head]
    rfl
  rw [h, bracket] at same
  obtain rfl := Option.some.inj same
  exact absurd hc (by decide)

theorem levels_pointer (h : 0 ≤ ty.depth) : levels ty.pointer = levels ty + 1 := by
  change (ty.depth + 1).toNat + (if ty.isReference then 1 else 0) =
    ty.depth.toNat + (if ty.isReference then 1 else 0) + 1
  omega

theorem levels_pointer_of_neg (h : ty.depth < 0) : levels ty.pointer = levels ty := by
  change (ty.depth + 1).toNat + (if ty.isReference then 1 else 0) =
    ty.depth.toNat + (if ty.isReference then 1 else 0)
  omega

theorem levels_eq_zero (h : 0 ≤ ty.depth) : levels ty = 0 ↔ ty.depth = 0 ∧ ¬ ty.isReference := by
  unfold levels
  split <;> simp_all
  omega

theorem pointable_succ {base : String} {n : Nat} :
    pointable base (n + 1) = pointable base n ↔ (base = "void" → n ≠ 0) := by
  unfold pointable
  by_cases hbase : base = "void"
  · subst hbase
    cases n <;> simp
  · simp [hbase]

/-- The type of the address of a stored value is its printed type and a star, with three
exceptions: arrays, which are printed by their element, a bare `void`, to which there are no
pointers, and negative pointer levels, which are not printed. -/
theorem map_pointer_eq_iff :
    types.map ty.pointer = types.mapStored ty ++ "*" ↔
      ¬ ty.isArray ∧ 0 ≤ ty.depth ∧ (ty.isVoid → ty.isReference) := by
  by_cases harray : ty.isArray
  · simp only [harray, mapStored, if_true, not_true, false_and, iff_false]
    exact types.map_ne_mapArray ty ty.pointer "*"
  · have base : types.baseName ty.pointer = types.baseName ty := rfl
    have stored : types.mapStored ty = types.map ty := if_neg harray
    rw [stored, map, map, base]
    by_cases hdepth : 0 ≤ ty.depth
    · rw [levels_pointer ty hdepth, Text.stars_succ, ← String.append_assoc, String.append_left_inj,
        String.append_left_inj, pointable_succ, baseName_eq_void, Ne, levels_eq_zero ty hdepth]
      simp only [harray, hdepth, Ty.isVoid]
      grind
    · rw [levels_pointer_of_neg ty (by omega)]
      have longer (text : String) : text ≠ text ++ "*" :=
        fun h => absurd (congrArg String.length h) (by simp)
      simp [hdepth, longer]

end TypeMap

/-! ## The declared part -/

/-- A tagged union with members has one of them as its part behind the tag. -/
theorem LayoutTable.exists_widest {context : Context} {symbols : SymbolTable}
    (distinct : (context.unions.map Aggregate.fullPath).Nodup) {a : Aggregate}
    (ha : a ∈ context.unions) (members : a.parts ≠ []) :
    ∃ layout, (compute context symbols).union? a.type = some layout ∧
      ∃ widest ∈ a.parts, layout.widest = some widest := by
  obtain ⟨right, -, entered⟩ := compute_right context symbols word
  obtain ⟨layout, found⟩ := Option.isSome_iff_exists.1 (entered a ha)
  refine ⟨layout, found, ?_⟩
  obtain ⟨b, layouts, hb, lays, rfl⟩ := right.unions found
  obtain rfl := Option.some.inj (hb.symm.trans (Definitions.get?_of_mem distinct ha))
  obtain ⟨widest, hwidest⟩ := lays.exists_widest members
  have covers := UnionLayout.Storage.covers_addAll b.parts layouts
  exact ⟨widest, (List.of_mem_zip (covers.widest hwidest)).1, hwidest⟩

end Codegen

namespace Codegen.Lowering

/-- What an access to a member emits. -/
theorem unionPayload_eq {env : Env} {unionType widest : Ty}
    (h : (env.layouts.union? unionType).bind UnionLayout.widest = some widest)
    (location : Operand) (member : Ty) (span : Span) (n : Names) :
    let raw := tempName n.nextTemp
    let dest := tempName (n.nextTemp + 1)
    let access := unionPayload env location unionType member span n
    access.value = dest ∧ access.notes.faults = [] ∧
      access.insts =
        [ .getField (.var raw) location.value (env.map unionType) 1,
          .cast .bitcast (.var dest) (.var raw) (env.map widest.pointer)
            (env.map member.pointer) ] := by
  unfold unionPayload
  rw [h]
  exact ⟨rfl, rfl, rfl⟩

/-- An access to a member of a tagged union takes the address of the part that the union declares
behind its tag, and casts it from the printed type of that part with one star, if and only if the
member that stands for the part is no array, no bare `void` and has no negative pointer levels. -/
theorem payload_accesses_name_the_declared_part {context : Context} {symbols : SymbolTable}
    {config : Config} {m : Ir.Module} (accepted : lowerProgram context symbols config = .ok m)
    (distinct : ((context.structs ++ context.unions).map Aggregate.fullPath).Nodup)
    {a : Aggregate} (ha : a ∈ context.unions) (members : a.parts ≠ []) :
    let types := TypeMap.ofSymbols symbols
    let layouts := LayoutTable.compute context symbols
    ∃ decl ∈ m.unions, unionDecl? types layouts a = some decl ∧
      ∃ first rest, decl.parts = first :: rest ∧
        ∃ widest ∈ a.parts, first = types.mapStored widest ∧
          ∀ (records : Dict Nat) (f : Func) (location : Operand) (unionType member : Ty)
            (span : Span) (n : Names), unionType.fullPath = a.fullPath →
            let env := environment context symbols types layouts records f
            let access := unionPayload env location unionType member span n
            ∃ raw source, access.notes.faults = [] ∧
              access.insts =
                [ .getField (.var raw) location.value (env.map unionType) 1,
                  .cast .bitcast (.var access.value) (.var raw) source
                    (env.map member.pointer) ] ∧
              (source = first ++ "*" ↔
                ¬ widest.isArray ∧ 0 ≤ widest.depth ∧ (widest.isVoid → widest.isReference)) := by
  intro types layouts
  rw [List.map_append] at distinct
  obtain ⟨layout, found, widest, hwidest, hlayout⟩ :
      ∃ layout, layouts.union? a.type = some layout ∧
        ∃ widest ∈ a.parts, layout.widest = some widest :=
    LayoutTable.exists_widest (List.nodup_append'.1 distinct).2.1 ha members
  obtain ⟨decl, hdecl, hparts⟩ : ∃ decl, unionDecl? types layouts a = some decl ∧
      decl.parts = unionParts types layout := by
    rw [unionDecl?, found]
    exact ⟨_, rfl, rfl⟩
  rw [unionParts, hlayout] at hparts
  refine ⟨decl, ?_, hdecl, _, _, hparts, widest, hwidest, rfl, ?_⟩
  · rw [lowerProgram_unions accepted]
    exact List.mem_filterMap.2 ⟨a, ha, hdecl⟩
  · intro records f location unionType member span n hpath env access
    have storage : (env.layouts.union? unionType).bind UnionLayout.widest = some widest := by
      have : env.layouts.union? unionType = some layout := by
        rw [← found]
        exact congrArg layouts.unions.get? hpath
      rw [this]
      exact hlayout
    obtain ⟨hvalue, faults, insts⟩ := unionPayload_eq storage location member span n
    rw [← hvalue] at insts
    exact ⟨_, _, faults, insts, types.map_pointer_eq_iff widest⟩

namespace Sample

open Codegen.Sample

/-- A tagged union of something and a word. -/
def choice (member : Ty) : Aggregate := { name := "choice", path := "m", parts := [member, .i32] }

/-- Makes a word into a choice and reads it back. -/
def pick : Func where
  name := "pick"
  returnType := .i32
  body := some <| node <| .block
    [ node <| .define "x" (.named "choice" "m") <| node <| .call (.named "choice" "m")
        [node (.structInit (.named "choice" "m") [.mk "word" (node (.number "7" .i32)) .i32])],
      node <| .ret
        (some <| node <| .call .i32
          [node (.callId "x" (.named "choice" "m")), node (.getField "word" .i32)])
        false ]

def picking (member : Ty) : Context := { unions := [choice member], impls := [pick] }

def choices (member : Ty) : SymbolTable :=
  SymbolTable.addUnion {} "m"
    { name := "choice", members := [⟨"other", member, 0⟩, ⟨"word", .i32, 1⟩] }

/-- Four words in place. -/
def words : Ty := { name := "i32", depth := 1, isArray := true, arrayLength := 4 }

/-- The types from which the addresses of payloads are cast. -/
def payloadTypes : List Ir.Inst → List String
  | .getField _ _ _ 1 :: .cast .bitcast _ _ source _ :: rest => source :: payloadTypes rest
  | _ :: rest => payloadTypes rest
  | [] => []

end Sample

theorem pick_payload_names_the_declared_part :
    let context := Sample.picking .constStr
    let symbols := Sample.choices .constStr
    ∃ m, lowerProgram context symbols {} = .ok m ∧
      ∃ decl ∈ m.unions, ∃ first rest, decl.parts = first :: rest ∧
        ∀ (location : Operand) (member : Ty) (span : Span) (n : Names),
          let env := environment context symbols (.ofSymbols symbols) (.compute context symbols) ∅
            Sample.pick
          let access := unionPayload env location (.named "choice" "m") member span n
          ∃ raw, access.insts =
            [ .getField (.var raw) location.value (env.map (.named "choice" "m")) 1,
              .cast .bitcast (.var access.value) (.var raw) (first ++ "*")
                (env.map member.pointer) ] := by
  intro context symbols
  have accepted : (lowerProgram context symbols {}).toOption.isSome := by decide +kernel
  cases h : lowerProgram context symbols {} with
  | error e =>
    rw [h] at accepted
    cases accepted
  | ok m =>
    obtain ⟨decl, hdecl, -, first, rest, hparts, widest, hwidest, -, access⟩ :=
      payload_accesses_name_the_declared_part h (by decide +kernel)
        (List.mem_singleton_self (Sample.choice .constStr)) (by decide)
    have plain : ¬ widest.isArray ∧ 0 ≤ widest.depth ∧ (widest.isVoid → widest.isReference) := by
      rcases List.mem_cons.1 hwidest with rfl | hwidest
      · decide
      · obtain rfl := List.mem_singleton.1 hwidest
        decide
    refine ⟨m, rfl, decl, hdecl, first, rest, hparts, fun location member span n => ?_⟩
    obtain ⟨raw, source, -, insts, agrees⟩ :=
      access ∅ Sample.pick location (.named "choice" "m") member span n rfl
    obtain rfl := agrees.2 plain
    exact ⟨raw, insts⟩

/-- An array that is stored in place is declared as an array and addressed as a pointer. -/
theorem exists_payload_of_another_type :
    ∃ m, lowerProgram (Sample.picking Sample.words) (Sample.choices Sample.words) {} = .ok m ∧
      m.unions.map Ir.TypeDecl.parts = [["[4 x i32]"]] ∧
      m.impls.flatMap (fun g => Sample.payloadTypes g.insts) = ["i32**", "i32**"] := by
  have texts : (lowerProgram (Sample.picking Sample.words) (Sample.choices Sample.words)
      {}).toOption.map (fun m => (m.unions.map Ir.TypeDecl.parts,
        m.impls.flatMap fun g => Sample.payloadTypes g.insts)) =
      some ([["[4 x i32]"]], ["i32**", "i32**"]) := by decide +kernel
  cases h : lowerProgram (Sample.picking Sample.words) (Sample.choices Sample.words) {} with
  | error e =>
    rw [h] at texts
    cases texts
  | ok m =>
    rw [h] at texts
    exact ⟨m, rfl, Prod.mk.inj (Option.some.inj texts)⟩

end Codegen.Lowering
