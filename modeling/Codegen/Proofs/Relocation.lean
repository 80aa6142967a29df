import Codegen.Error
import Codegen.Program

/-!
# Programs at other places

A relocation moves everything that says where something stands in a source file: the positions of
nodes and definitions, the names of files and the lines of symbols.  What a program means is the
same behind it: kinds, types and names of nodes, and what is found under a name.
-/

namespace Codegen

/-- A dictionary with the same keys and the images of its values. -/
def Dict.mapValues {α β : Type} (f : α → β) (d : Dict α) : Dict β where
  entries := d.entries.map fun entry => (entry.1, f entry.2)
  sorted := List.pairwise_map.2 d.sorted

namespace Dict

variable {α β : Type} (f : α → β) (d : Dict α)

theorem entries_mapValues :
    (d.mapValues f).entries = d.entries.map fun entry => (entry.1, f entry.2) := rfl

theorem get?_mapValues (key : String) : (d.mapValues f).get? key = (d.get? key).map f := by
  rw [get?, get?, mapValues, List.find?_map]
  simp [Function.comp_def]

theorem keys_mapValues : (d.mapValues f).keys = d.keys := by
  simp [keys, mapValues, Function.comp_def]

theorem mapValues_id : d.mapValues id = d := by
  ext1
  simp [mapValues]

end Dict

/-- Where spans, files and lines go. -/
structure Relocation where
  span : Span → Span
  file : String → String
  line : Nat → Nat

namespace Relocation

/-- Everything stays where it is. -/
def stay : Relocation := ⟨id, id, id⟩

theorem span_stay (span : Span) : stay.span span = span := rfl

/-- Nothing is known about places. -/
def forget : Relocation := ⟨fun _ => {}, fun _ => "", fun _ => 0⟩

end Relocation

variable (r : Relocation)

/-! ## Trees -/

mutual

/-- The tree at other places. -/
def Node.relocate (r : Relocation) : Node → Node
  | .mk kind span => .mk (kind.relocate r) (r.span span)

def NodeKind.relocate (r : Relocation) : NodeKind → NodeKind
  | .block content => .block (Node.relocateAll r content)
  | .unary op type value => .unary op type (value.relocate r)
  | .binary op type left right => .binary op type (left.relocate r) (right.relocate r)
  | .convert source target => .convert (source.relocate r) target
  | .array size type values => .array size type (Node.relocateAll r values)
  | .structInit type fields => .structInit type (FieldInit.relocateAll r fields)
  | .call type chain => .call type (Node.relocateAll r chain)
  | .callIndex type index => .callIndex type (index.relocate r)
  | .callFunc type args byReference => .callFunc type (Node.relocateAll r args) byReference
  | .define name type init => .define name type (init.relocate r)
  | .assign op left right => .assign op (left.relocate r) (right.relocate r)
  | .branch arms => .branch (Arm.relocateAll r arms)
  | .switch condition cases otherwise =>
    .switch (condition.relocate r) (Case.relocateAll r cases) (Node.relocate? r otherwise)
  | .loop condition body update =>
    .loop (condition.relocate r) (body.relocate r) (Node.relocate? r update)
  | .ret value byReference => .ret (Node.relocate? r value) byReference
  | .nil type => .nil type
  | .number literal type => .number literal type
  | .string literal type => .string literal type
  | .char literal type => .char literal type
  | .bool literal type => .bool literal type
  | .callId name type => .callId name type
  | .getField name type => .getField name type
  | .getPath name type => .getPath name type
  | .ptrGetField name type => .ptrGetField name type
  | .breakLoop => .breakLoop
  | .continueLoop => .continueLoop

def Node.relocateAll (r : Relocation) : List Node → List Node
  | [] => []
  | node :: rest => node.relocate r :: Node.relocateAll r rest

def Node.relocate? (r : Relocation) : Option Node → Option Node
  | none => none
  | some node => some (node.relocate r)

def FieldInit.relocateAll (r : Relocation) : List FieldInit → List FieldInit
  | [] => []
  | .mk name content type :: rest =>
    .mk name (content.relocate r) type :: FieldInit.relocateAll r rest

def Arm.relocateAll (r : Relocation) : List Arm → List Arm
  | [] => []
  | .mk condition body span :: rest =>
    .mk (Node.relocate? r condition) (body.relocate r) (r.span span) :: Arm.relocateAll r rest

def Case.relocateAll (r : Relocation) : List Case → List Case
  | [] => []
  | .mk value body span :: rest =>
    .mk value (body.relocate r) (r.span span) :: Case.relocateAll r rest

end

namespace Node

theorem span_relocate (node : Node) : (node.relocate r).span = r.span node.span := by
  cases node
  rfl

theorem kind_relocate (node : Node) : (node.relocate r).kind = node.kind.relocate r := by
  cases node
  rfl

theorem relocateAll_eq_map (nodes : List Node) :
    Node.relocateAll r nodes = nodes.map (Node.relocate r) := by
  induction nodes with
  | nil => rfl
  | cons node rest ih => exact congrArg _ ih

end Node

theorem Arm.isEmpty_relocateAll (arms : List Arm) :
    (Arm.relocateAll r arms).isEmpty = arms.isEmpty := by
  cases arms with
  | nil => rfl
  | cons arm rest => cases arm; rfl

namespace NodeKind

variable (kind : NodeKind)

theorem title_relocate : (kind.relocate r).title = kind.title := by cases kind <;> rfl

theorem isExpression_relocate : (kind.relocate r).isExpression = kind.isExpression := by
  cases kind <;> rfl

theorem isCallFunc_relocate : (kind.relocate r).isCallFunc = kind.isCallFunc := by
  cases kind <;> rfl

theorem type?_relocate : (kind.relocate r).type? = kind.type? := by cases kind <;> rfl

end NodeKind

-- A tree that stays where it is is the tree itself, by induction over the tree.
mutual

theorem Node.relocate_stay : (node : Node) → node.relocate .stay = node
  | .mk kind span => by rw [Node.relocate, NodeKind.relocate_stay kind]; rfl

theorem NodeKind.relocate_stay : (kind : NodeKind) → kind.relocate .stay = kind
  | .block content => by rw [NodeKind.relocate, Node.relocateAll_stay content]
  | .unary op type value => by rw [NodeKind.relocate, Node.relocate_stay value]
  | .binary op type left right => by
    rw [NodeKind.relocate, Node.relocate_stay left, Node.relocate_stay right]
  | .convert source target => by rw [NodeKind.relocate, Node.relocate_stay source]
  | .array size type values => by rw [NodeKind.relocate, Node.relocateAll_stay values]
  | .structInit type fields => by rw [NodeKind.relocate, FieldInit.relocateAll_stay fields]
  | .call type chain => by rw [NodeKind.relocate, Node.relocateAll_stay chain]
  | .callIndex type index => by rw [NodeKind.relocate, Node.relocate_stay index]
  | .callFunc type args byReference => by rw [NodeKind.relocate, Node.relocateAll_stay args]
  | .define name type init => by rw [NodeKind.relocate, Node.relocate_stay init]
  | .assign op left right => by
    rw [NodeKind.relocate, Node.relocate_stay left, Node.relocate_stay right]
  | .branch arms => by rw [NodeKind.relocate, Arm.relocateAll_stay arms]
  | .switch condition cases otherwise => by
    rw [NodeKind.relocate, Node.relocate_stay condition, Case.relocateAll_stay cases,
      Node.relocate?_stay otherwise]
  | .loop condition body update => by
    rw [NodeKind.relocate, Node.relocate_stay condition, Node.relocate_stay body,
      Node.relocate?_stay update]
  | .ret value byReference => by rw [NodeKind.relocate, Node.relocate?_stay value]
  | .nil _ | .number .. | .string .. | .char .. | .bool .. | .callId .. | .getField ..
  | .getPath .. | .ptrGetField .. | .breakLoop | .continueLoop => rfl

theorem Node.relocateAll_stay : (nodes : List Node) → Node.relocateAll .stay nodes = nodes
  | [] => rfl
  | node :: rest => by rw [Node.relocateAll, Node.relocate_stay node, Node.relocateAll_stay rest]

theorem Node.relocate?_stay : (node : Option Node) → Node.relocate? .stay node = node
  | none => rfl
  | some node => by rw [Node.relocate?, Node.relocate_stay node]

theorem FieldInit.relocateAll_stay :
    (fields : List FieldInit) → FieldInit.relocateAll .stay fields = fields
  | [] => rfl
  | .mk name content type :: rest => by
    rw [FieldInit.relocateAll, Node.relocate_stay content, FieldInit.relocateAll_stay rest]

theorem Arm.relocateAll_stay : (arms : List Arm) → Arm.relocateAll .stay arms = arms
  | [] => rfl
  | .mk condition body span :: rest => by
    rw [Arm.relocateAll, Node.relocate?_stay condition, Node.relocate_stay body,
      Arm.relocateAll_stay rest]
    rfl

theorem Case.relocateAll_stay : (cases : List Case) → Case.relocateAll .stay cases = cases
  | [] => rfl
  | .mk value body span :: rest => by
    rw [Case.relocateAll, Node.relocate_stay body, Case.relocateAll_stay rest]
    rfl

end

/-! ## Symbols -/

/-- The struct at another line. -/
def StructSymbol.relocate (s : StructSymbol) : StructSymbol := { s with line := r.line s.line }

/-- The tagged union at another line. -/
def UnionSymbol.relocate (u : UnionSymbol) : UnionSymbol := { u with line := r.line u.line }

/-- The enum at another line. -/
def EnumSymbol.relocate (e : EnumSymbol) : EnumSymbol := { e with line := r.line e.line }

/-- The symbols of a module in another file. -/
def ModuleSymbols.relocate (m : ModuleSymbols) : ModuleSymbols :=
  { m with
    file := r.file m.file
    structs := m.structs.mapValues (StructSymbol.relocate r)
    unions := m.unions.mapValues (UnionSymbol.relocate r)
    enums := m.enums.mapValues (EnumSymbol.relocate r) }

namespace SymbolTable

/-- The symbols at other places. -/
def relocate (table : SymbolTable) : SymbolTable :=
  { table with
    inputFile := r.file table.inputFile
    modules := table.modules.mapValues (ModuleSymbols.relocate r) }

variable (table : SymbolTable) (ty : Ty)

theorem findStruct_relocate :
    (table.relocate r).findStruct ty = (table.findStruct ty).map (StructSymbol.relocate r) := by
  change ((table.modules.mapValues _).get? ty.path).bind _ = _
  rw [Dict.get?_mapValues, findStruct]
  cases table.modules.get? ty.path with
  | none => rfl
  | some m => exact Dict.get?_mapValues ..

theorem findUnion_relocate :
    (table.relocate r).findUnion ty = (table.findUnion ty).map (UnionSymbol.relocate r) := by
  change ((table.modules.mapValues _).get? ty.path).bind _ = _
  rw [Dict.get?_mapValues, findUnion]
  cases table.modules.get? ty.path with
  | none => rfl
  | some m => exact Dict.get?_mapValues ..

theorem findEnum_relocate :
    (table.relocate r).findEnum ty = (table.findEnum ty).map (EnumSymbol.relocate r) := by
  change ((table.modules.mapValues _).get? ty.path).bind _ = _
  rw [Dict.get?_mapValues, findEnum]
  cases table.modules.get? ty.path with
  | none => rfl
  | some m => exact Dict.get?_mapValues ..

theorem findFunction_relocate :
    (table.relocate r).findFunction ty = table.findFunction ty := by
  change ((table.modules.mapValues _).get? ty.path).bind _ = _
  rw [Dict.get?_mapValues, findFunction]
  cases table.modules.get? ty.path with
  | none => rfl
  | some m => rfl

theorem kindOf_relocate : (table.relocate r).kindOf ty = table.kindOf ty := by
  have basic : (table.relocate r).isBasic ty = table.isBasic ty := rfl
  rw [kindOf, kindOf, basic, findStruct_relocate, findUnion_relocate, findEnum_relocate,
    findFunction_relocate, Option.isSome_map, Option.isSome_map, Option.isSome_map]

theorem relocate_stay : table.relocate .stay = table := by
  have structs (m : ModuleSymbols) : m.structs.mapValues (StructSymbol.relocate .stay) =
    m.structs := Dict.mapValues_id _
  have unions (m : ModuleSymbols) : m.unions.mapValues (UnionSymbol.relocate .stay) =
    m.unions := Dict.mapValues_id _
  have enums (m : ModuleSymbols) : m.enums.mapValues (EnumSymbol.relocate .stay) =
    m.enums := Dict.mapValues_id _
  have modules : ModuleSymbols.relocate .stay = id := by
    funext m
    rw [ModuleSymbols.relocate, structs, unions, enums]
    rfl
  rw [relocate, modules, Dict.mapValues_id]
  rfl

end SymbolTable

/-! ## Programs -/

/-- The definition at another place. -/
def Aggregate.relocate (a : Aggregate) : Aggregate :=
  { a with file := r.file a.file, span := r.span a.span }

/-- The function at another place. -/
def Func.relocate (f : Func) : Func :=
  { f with file := r.file f.file, span := r.span f.span, body := Node.relocate? r f.body }

theorem Func.relocate_stay (f : Func) : f.relocate .stay = f := by
  rw [Func.relocate, Node.relocate?_stay]
  rfl

/-- The definitions at other places. -/
def Context.relocate (context : Context) : Context where
  structs := context.structs.map (Aggregate.relocate r)
  unions := context.unions.map (Aggregate.relocate r)
  decls := context.decls.map (Func.relocate r)
  impls := context.impls.map (Func.relocate r)

/-- The program at another place. -/
def Program.relocate (program : Program) : Program where
  symbols := program.symbols.relocate r
  context := program.context.relocate r

/-! ## Errors -/

namespace Error

/-- The error at another place. -/
def relocate : Error → Error
  | internal message span file => internal message (r.span span) (r.file file)
  | error => error

theorem message_comp_relocate : message ∘ relocate r = message := by
  funext error
  cases error <;> rfl

theorem relocate_stay : Error.relocate .stay = id := by
  funext error
  cases error <;> rfl

end Error

end Codegen
