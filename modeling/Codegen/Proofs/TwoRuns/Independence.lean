import Codegen.Proofs.Emitted
import Codegen.Proofs.Operands
import Codegen.Proofs.TwoRuns.Blocks

/-!
# Functions are lowered independently

The functions of a program share the string constants and the debug records of their module, and
nothing else: whatever functions stand before one, it becomes the same code and has the same
errors.  What its code is, apart from the numbers of constants and records, is said by
`Ir.Function.resolve`; what comes out of every function of a program, in order, by `lowerings`.
-/

namespace Codegen.Ir

/-- The instruction without its references into the tables of its module, and the text of the
string constant it refers to. -/
def Inst.resolve (strings : List String) : Inst → Inst × Option String
  | .str target index length => (.str target 0 length, strings[index]?)
  | inst => (inst.bare, none)

/-- The function without its references into the tables of its module: its head and the outline of
its blocks, and the instructions of each block with the texts they refer to. -/
def Function.resolve (strings : List String) (f : Function) :
    Function × List (List (Inst × Option String)) :=
  ({ f with blocks := f.blocks.map Block.outline, record := none },
    f.blocks.map fun b => b.insts.map (Inst.resolve strings))

/-- Every string constant that an instruction refers to is there. -/
def Function.Refers (strings : List String) (f : Function) : Prop :=
  ∀ inst ∈ f.insts, ∀ index, inst.string? = some index → index < strings.length

section Alike

variable {shared : Prop} {strings strings' : List String}

theorem Inst.Alike.resolve {i i' : Inst} (h : Inst.Alike shared strings strings' i i') :
    i'.resolve strings' = i.resolve strings := by
  cases h with
  | plain h =>
    cases i with
    | str => cases h
    | _ => rfl
  | str target length h h' => exact congrArg (Prod.mk _) (h'.trans h.symm)
  | call => rfl

theorem Inst.Alike.refers {i i' : Inst} (h : Inst.Alike shared strings strings' i i') :
    ∀ index, i.string? = some index → index < strings.length := by
  intro index hi
  cases h with
  | plain h => rw [h] at hi; cases hi
  | str target length h =>
    obtain rfl := Option.some.inj hi
    exact (List.getElem?_eq_some_iff.1 h).1
  | call => cases hi

theorem Function.Alike.resolve {f f' : Function}
    (h : f.Alike .stay (Inst.Alike shared strings strings') f') :
    f'.resolve strings' = f.resolve strings := by
  have insts : f'.blocks.map (fun b => b.insts.map (Inst.resolve strings')) =
      f.blocks.map fun b => b.insts.map (Inst.resolve strings) :=
    map_eq_map_of_forall₂ h.blocks fun _ _ hb => map_eq_map_of_forall₂ hb.insts fun _ _ hi =>
      hi.resolve
  have heads : ({ f' with blocks := f'.blocks.map Block.outline, record := none } : Function) =
      { f with blocks := f.blocks.map Block.outline, record := none } := by
    rw [h.outlines]
    exact congrArg (fun g : Function => { g with blocks := f.blocks.map Block.outline }) h.head
  rw [Function.resolve, Function.resolve, heads, insts]

theorem Function.Alike.refers {r : Relocation} {f : Function}
    (h : f.Alike r (Inst.Alike shared strings strings) f) : f.Refers strings := by
  intro inst hinst
  obtain ⟨b, hb, hinst⟩ := List.mem_flatMap.1 hinst
  have blocks := List.forall₂_same.1 h.blocks
  exact (List.forall₂_same.1 (blocks b hb).insts inst hinst).refers

end Alike

theorem Function.Refers.mono {strings more : List String} {f : Function} (h : f.Refers strings)
    (hm : strings <+: more) : f.Refers more := fun inst hinst index hi =>
  (h inst hinst index hi).trans_le hm.length_le

end Codegen.Ir

namespace Codegen.Lowering

/-- What comes out of functions that are walked in order; each starts with the tables that the one
before has left. -/
def lowerEach (env : Func → Env) : List Func → List String → Ir.DebugInfo → List Lowered
  | [], _, _ => []
  | f :: rest, strings, debugInfo =>
    let lowered := lowerFunction (env f) f strings debugInfo
    lowered :: lowerEach env rest lowered.strings lowered.debugInfo

/-- What comes out of the functions of a program. -/
def lowerings (context : Context) (symbols : SymbolTable) (config : Config) : List Lowered :=
  lowerEach (environments context symbols config) context.impls []
    (recordModule context symbols config {}).2

theorem lowerFunctions_eq_lowerEach (env : Func → Env) (fs : List Func) (m : Ir.Module) :
    let ls := lowerEach env fs m.strings m.debugInfo
    (lowerFunctions env fs m).1.impls = m.impls ++ ls.map Lowered.function ∧
      (lowerFunctions env fs m).2 = ls.flatMap Lowered.errors := by
  induction fs generalizing m with
  | nil => exact ⟨(List.append_nil _).symm, rfl⟩
  | cons f fs ih =>
    obtain ⟨impls, errors⟩ := ih ((lowerFunction (env f) f m.strings m.debugInfo).addTo m)
    exact ⟨impls.trans (List.append_assoc ..), congrArg (_ ++ ·) errors⟩

/-- A function in two modules. -/
theorem lowerFunction_alike_stay {shared : Prop} (env : Env) (record : Option Nat) (f : Func)
    {strings strings' : List String} (debugInfo debugInfo' : Ir.DebugInfo)
    (hs : shared → strings' = strings) :
    (lowerFunction env f strings debugInfo).Alike .stay shared strings strings'
      (lowerFunction { env with record } f strings' debugInfo') := by
  have alike := lowerFunction_alike .stay env record f debugInfo debugInfo' hs
  rwa [Env.relocate, SymbolTable.relocate_stay, Func.relocate_stay] at alike

theorem lowerFunction_alike_self (env : Env) (f : Func) (strings : List String)
    (debugInfo : Ir.DebugInfo) :
    (lowerFunction env f strings debugInfo).Alike .stay True strings strings
      (lowerFunction env f strings debugInfo) :=
  lowerFunction_alike_stay env env.record f debugInfo debugInfo fun _ => rfl

/-- What is known about one function of a module with the given string constants. -/
structure Lowered.Part (env : Env) (f : Func) (strings : List String) (l : Lowered) : Prop where
  lowered : ∃ strings debugInfo, l = lowerFunction env f strings debugInfo
  stays : l.strings <+: strings

theorem forall₂_lowerEach (env : Func → Env) (fs : List Func) (m : Ir.Module) :
    m.strings <+: (lowerFunctions env fs m).1.strings ∧
      List.Forall₂ (fun f l => l.Part (env f) f (lowerFunctions env fs m).1.strings) fs
        (lowerEach env fs m.strings m.debugInfo) := by
  induction fs generalizing m with
  | nil => exact ⟨List.prefix_rfl, .nil⟩
  | cons f fs ih =>
    have first := lowerFunction_alike_self (env f) f m.strings m.debugInfo
    obtain ⟨grows, parts⟩ := ih ((lowerFunction (env f) f m.strings m.debugInfo).addTo m)
    exact ⟨first.grows.trans grows, .cons ⟨⟨_, _, rfl⟩, grows⟩ parts⟩

theorem Lowered.Part.refers {env : Env} {f : Func} {strings : List String} {l : Lowered}
    (h : l.Part env f strings) : l.function.Refers strings := by
  obtain ⟨⟨base, debugInfo, rfl⟩, stays⟩ := h
  exact (lowerFunction_alike_self env f base debugInfo).function.refers.mono stays

/-- One function in two modules. -/
theorem Lowered.Part.independent {env : Env} {record : Option Nat} {f : Func}
    {strings strings' : List String} {l l' : Lowered} (h : l.Part env f strings)
    (h' : l'.Part { env with record } f strings') :
    l'.function.resolve strings' = l.function.resolve strings ∧ l'.errors = l.errors := by
  obtain ⟨⟨base, debugInfo, rfl⟩, stays⟩ := h
  obtain ⟨⟨base', debugInfo', rfl⟩, stays'⟩ := h'
  have alike := lowerFunction_alike_stay env record f debugInfo debugInfo'
    (False.elim : False → base' = base)
  have function := alike.function.mono fun _ _ hi => hi.mono stays stays'
  refine ⟨function.resolve, ?_⟩
  rw [alike.errors, Error.relocate_stay, List.map_id]

/-! ## Programs -/

/-- The module of a program is made of what comes out of its functions, in order. -/
theorem buildModule_eq_lowerings (c : Context) (symbols : SymbolTable) (config : Config) :
    let built := buildModule c symbols config
    let ls := lowerings c symbols config
    built.1.impls = ls.map Lowered.function ∧
      built.2 = c.unions.filterMap (unionError? (.compute c symbols)) ++ ls.flatMap Lowered.errors ∧
      List.Forall₂ (fun f l => l.Part (environments c symbols config f) f built.1.strings)
        c.impls ls := by
  have each : lowerings c symbols config = lowerEach (environments c symbols config) c.impls
      (emptyModule c symbols config).strings (emptyModule c symbols config).debugInfo := by
    rw [debugInfo_emptyModule]
    rfl
  obtain ⟨impls, errors⟩ := lowerFunctions_eq_lowerEach (environments c symbols config) c.impls
    (emptyModule c symbols config)
  rw [← each] at impls errors
  simp only [buildModule_eq_lowerFunctions]
  refine ⟨impls, congrArg (_ ++ ·) errors, ?_⟩
  rw [each]
  exact (forall₂_lowerEach ..).2

/-- Contexts that give a function the same things to look up: structs, tagged unions, and the
parameter lists of functions that take further arguments. -/
structure Agree (symbols : SymbolTable) (c c' : Context) : Prop where
  structs : c'.structs = c.structs
  unions : c'.unions = c.unions
  variadic : variadicSignatures (.ofSymbols symbols) c' = variadicSignatures (.ofSymbols symbols) c

theorem Agree.environments {symbols : SymbolTable} {c c' : Context} (h : Agree symbols c c')
    (config config' : Config) (f : Func) :
    environments c' symbols config' f =
      { environments c symbols config f with
        record := (recordModule c' symbols config' {}).1.get? f.name } := by
  have layouts : LayoutTable.compute c' symbols = .compute c symbols := by
    unfold LayoutTable.compute Definitions.ofContext
    rw [h.structs, h.unions]
  rw [Lowering.environments, environment, layouts, h.variadic]
  rfl

/-- Functions are lowered independently.  In two programs with the same symbols, structs, tagged
unions and parameter lists, a function that both of them implement becomes the same code, whatever
stands around it: the same but for the numbers of debug records, and with the same texts behind the
numbers of string constants.  It also has the same errors.  So the errors of a program before the
passes are those of its tagged unions, followed by those of each function in order. -/
theorem functions_are_lowered_independently {symbols : SymbolTable} {c c' : Context}
    (h : Agree symbols c c') (config config' : Config) :
    let m := (buildModule c symbols config).1
    let m' := (buildModule c' symbols config').1
    let ls := lowerings c symbols config
    let ls' := lowerings c' symbols config'
    m.impls = ls.map Lowered.function ∧ m'.impls = ls'.map Lowered.function ∧
    (∀ (i j : Nat) (f : Func), c.impls[i]? = some f → c'.impls[j]? = some f →
      ∃ l l' : Lowered, ls[i]? = some l ∧ ls'[j]? = some l' ∧
        l'.function.resolve m'.strings = l.function.resolve m.strings ∧
        l.function.Refers m.strings ∧ l'.function.Refers m'.strings ∧ l'.errors = l.errors) ∧
    (buildModule c symbols config).2 =
      c.unions.filterMap (unionError? (.compute c symbols)) ++ ls.flatMap Lowered.errors := by
  intro m m' ls ls'
  obtain ⟨impls, errors, parts⟩ := buildModule_eq_lowerings c symbols config
  obtain ⟨impls', -, parts'⟩ := buildModule_eq_lowerings c' symbols config'
  refine ⟨impls, impls', fun i j f hi hj => ?_, errors⟩
  obtain ⟨l, hl, part⟩ := exists_getElem?_of_forall₂ parts hi
  obtain ⟨l', hl', part'⟩ := exists_getElem?_of_forall₂ parts' hj
  have refers' := part'.refers
  rw [h.environments config] at part'
  obtain ⟨code, same⟩ := part.independent part'
  exact ⟨l, l', hl, hl', code, part.refers, refers', same⟩

namespace Sample

open Codegen.Sample

/-- Prints a text. -/
def say (text : String) : Node :=
  node <| .call .i32
    [ node (.callId "printf" { name := "printf", path := "c", isGlobal := true }),
      node (.callFunc .i32 [node (.string text .constStr)] []) ]

def printf : Func where
  name := "printf"
  params := [("format", .constStr)]
  returnType := .i32
  isVariadic := true

def printing : SymbolTable :=
  SymbolTable.addFunction {} "c" { name := "printf", isExternal := true }

/-- Says two things, and then leaves a loop that is not there. -/
def greet : Func where
  name := "greet"
  returnType := .void
  body := some <| node <| .block [say "hello", say "bye", node .breakLoop]

/-- Says one of these things, and another one. -/
def chat : Func where
  name := "chat"
  returnType := .void
  body := some <| node <| .block [say "tea?", say "bye"]

def alone : Context where
  decls := [printf]
  impls := [greet]

def inCompany : Context where
  decls := [{ name := "puts", returnType := .i32 }, printf]
  impls := [chat, greet]

end Sample

/-- The numbers in the code of a function depend on its company, and nothing else does. -/
theorem greet_is_lowered_independently :
    let ls := lowerings Sample.alone Sample.printing {}
    let ls' := lowerings Sample.inCompany Sample.printing { producer := "another" }
    ∃ l l', ls[0]? = some l ∧ ls'[1]? = some l' ∧ l'.function ≠ l.function ∧
      l'.function.resolve (buildModule Sample.inCompany Sample.printing
        { producer := "another" }).1.strings =
          l.function.resolve (buildModule Sample.alone Sample.printing {}).1.strings ∧
      l.errors.map Error.message = ["break outside of a loop"] ∧ l'.errors = l.errors := by
  intro ls ls'
  have agree : Agree Sample.printing Sample.alone Sample.inCompany := ⟨rfl, rfl, rfl⟩
  obtain ⟨-, -, same, -⟩ := functions_are_lowered_independently agree {} { producer := "another" }
  obtain ⟨l, l', hl, hl', code, -, -, errors⟩ := same 0 1 Sample.greet rfl rfl
  have functions : ls'[1]?.map Lowered.function ≠ ls[0]?.map Lowered.function := by decide +kernel
  have messages : ls[0]?.map (fun l => l.errors.map Error.message) =
      some ["break outside of a loop"] := by decide +kernel
  rw [hl] at functions messages
  rw [hl'] at functions
  exact ⟨l, l', hl, hl', fun h => functions (congrArg some h), code, Option.some.inj messages,
    errors⟩

end Codegen.Lowering
