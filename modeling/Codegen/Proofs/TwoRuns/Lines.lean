import Codegen.Proofs.Lists
import Codegen.Proofs.Relation

/-!
# Two runs of straight-line code

Two walks over one tree may start from modules with different string constants and debug records,
and they may find the tree at different places.  Neither changes what they do: the names and values
of both are the same (`Names.Alike`), and their instructions differ in nothing but the references
into the tables of the two modules (`Inst.Alike`).  Every straight-line step of a walk keeps this
(`Taken.alike`).

With `shared` string constants, the two runs also have the same constants after every step.
-/

namespace Codegen.Ir

/-- The instruction without its debug record. -/
def Inst.bare : Inst → Inst
  | .call name type dest args signature _ => .call name type dest args signature none
  | inst => inst

/-- Instructions that differ in nothing but their references into the tables of their modules:
both refer to the same text, and calls may have different debug records. -/
inductive Inst.Alike (shared : Prop) (strings strings' : List String) : Inst → Inst → Prop where
  | plain {inst : Inst} (h : inst.string? = none) : Alike shared strings strings' inst inst
  | str (target : Value) {index index' : Nat} (length : Nat) {text : String}
      (h : strings[index]? = some text) (h' : strings'[index']? = some text)
      (hs : shared → index' = index) :
    Alike shared strings strings' (.str target index length) (.str target index' length)
  | call (name type : String) (dest : Value) (args : List (String × Value))
      (signature : Option String) (location location' : Option Nat) :
    Alike shared strings strings' (.call name type dest args signature location)
      (.call name type dest args signature location')

/-- References stay good when constants are added behind the others. -/
theorem Inst.Alike.mono {shared : Prop} {strings strings' more more' : List String} {i i' : Inst}
    (h : Inst.Alike shared strings strings' i i') (hm : strings <+: more)
    (hm' : strings' <+: more') : Inst.Alike shared more more' i i' := by
  cases h with
  | plain h => exact .plain h
  | str target length h h' hs =>
    exact .str target length (getElem?_of_isPrefix hm h) (getElem?_of_isPrefix hm' h') hs
  | call => exact .call ..

/-- With shared constants nothing but the debug records is left to differ. -/
theorem Inst.Alike.bare {shared : Prop} {strings strings' : List String} {i i' : Inst}
    (h : Inst.Alike shared strings strings' i i') (hs : shared) : i'.bare = i.bare := by
  cases h with
  | plain => rfl
  | str target length _ _ same => rw [same hs]
  | call => rfl

end Codegen.Ir

namespace Codegen.Lowering

open Ir (Inst Value)

/-- The same names and values in a module with other tables. -/
inductive Names.Alike (shared : Prop) (n : Names) : Names → Prop where
  | mk (strings : List String) (debugInfo : Ir.DebugInfo) (h : shared → strings = n.strings) :
    Alike shared n { n with strings, debugInfo }

theorem Names.Alike.strings {shared : Prop} {n n' : Names} (h : n.Alike shared n') :
    shared → n'.strings = n.strings := by
  cases h with
  | mk _ _ h => exact h

/-- The notes at other places. -/
def Notes.relocate (r : Relocation) (notes : Notes) : Notes :=
  { notes with faults := notes.faults.map (Prod.map id r.span) }

theorem Notes.relocate_append (r : Relocation) (a b : Notes) :
    (a ++ b).relocate r = a.relocate r ++ b.relocate r :=
  congrArg (Notes.mk _) List.map_append

variable {α β : Type}

/-- What a step leaves behind in two runs. -/
structure Stretch.Alike (r : Relocation) (shared : Prop) (n n' : Names) (s s' : Stretch α) :
    Prop where
  value : s'.value = s.value
  names : s.names.Alike shared s'.names
  grows : n.strings <+: s.names.strings
  grows' : n'.strings <+: s'.names.strings
  insts : List.Forall₂ (Inst.Alike shared s.names.strings s'.names.strings) s.insts s'.insts
  notes : s'.notes = s.notes.relocate r

/-- Steps that do the same in two runs. -/
def Line.Alike (r : Relocation) (shared : Prop) (x x' : Line α) : Prop :=
  ∀ ⦃n n' : Names⦄, n.Alike shared n' → (x n).Alike r shared n n' (x' n')

/-- A debug record for a place is all that changes with it. -/
theorem addLocation_bind (env : Env) (span : Span) (f : Option Nat → Line α) (n : Names) :
    ∃ location debugInfo, (addLocation env span >>= f) n = f location { n with debugInfo } := by
  unfold addLocation
  cases env.record with
  | some scope => exact ⟨_, _, rfl⟩
  | none => exact ⟨_, _, rfl⟩

namespace Line.Alike

variable {r : Relocation} {shared : Prop}

/-! ## Rules -/

theorem bind {x x' : Line α} {f f' : α → Line β} (hx : Alike r shared x x')
    (hf : ∀ a, Alike r shared (f a) (f' a)) : Alike r shared (x >>= f) (x' >>= f') := by
  intro n n' hn
  have first := hx hn
  have second := hf (x' n').value first.names
  have ran : (x >>= f) n =
    let s := f (x' n').value (x n).names
    ⟨s.value, s.names, (x n).insts ++ s.insts, (x n).notes ++ s.notes⟩ := by
    rw [first.value]
    rfl
  rw [ran]
  have early := first.insts.imp fun _ _ h => h.mono second.grows second.grows'
  exact {
    value := second.value
    names := second.names
    grows := first.grows.trans second.grows
    grows' := first.grows'.trans second.grows'
    insts := List.rel_append early second.insts
    notes := by rw [Notes.relocate_append, ← first.notes, ← second.notes]; rfl }

/-- A step may look at the names. -/
theorem look {f f' : Names → Line α}
    (h : ∀ ⦃n n' : Names⦄, n.Alike shared n' → (f n n).Alike r shared n n' (f' n' n')) :
    Alike r shared (get >>= f) (get >>= f') := fun _ _ hn => h hn

/-- A step that neither looks at a table nor emits an instruction nor finds a fault. -/
theorem silent {x : Line α}
    (h : ∀ n strings debugInfo, x { n with strings, debugInfo } =
      { x n with names := { (x n).names with strings, debugInfo } })
    (hi : ∀ n, (x n).insts = []) (hf : ∀ n, (x n).notes.faults = []) : Alike r shared x x := by
  rintro n _ ⟨strings, debugInfo, shared⟩
  have kept : (x n).names.strings = n.strings :=
    congrArg (fun s => s.names.strings) (h n n.strings n.debugInfo)
  rw [h n strings debugInfo]
  exact {
    value := rfl
    names := ⟨strings, debugInfo, fun h => (shared h).trans kept.symm⟩
    grows := kept.symm ▸ List.prefix_rfl
    grows' := List.prefix_rfl
    insts := by rw [hi]; exact .nil
    notes := by rw [Notes.relocate, hf, List.map_nil, ← hf n] }

theorem pure (a : α) : Alike r shared (Pure.pure a) (Pure.pure a) :=
  silent (fun _ _ _ => rfl) (fun _ => rfl) fun _ => rfl

theorem addSlot (name type : String) : Alike r shared (addSlot name type) (addSlot name type) :=
  silent (fun _ _ _ => rfl) (fun _ => rfl) fun _ => rfl

/-- A new value stack. -/
theorem restack (f : List Operand → List Operand) :
    Alike r shared (modify fun n => { n with stack := f n.stack })
      (modify fun n => { n with stack := f n.stack }) :=
  silent (fun _ _ _ => rfl) (fun _ => rfl) fun _ => rfl

/-- New scopes. -/
theorem rescope (f : List (List (String × String)) → List (List (String × String))) :
    Alike r shared (modify fun n => { n with scopes := f n.scopes })
      (modify fun n => { n with scopes := f n.scopes }) :=
  silent (fun _ _ _ => rfl) (fun _ => rfl) fun _ => rfl

theorem push (operand : Operand) : Alike r shared (push operand) (push operand) := restack _

theorem height : Alike r shared height height :=
  silent (fun _ _ _ => rfl) (fun _ => rfl) fun _ => rfl

theorem dropTo (limit : Nat) : Alike r shared (dropTo limit) (dropTo limit) :=
  restack fun stack => stack.drop (stack.length - limit)

theorem resize (size : Nat) : Alike r shared (resize size) (resize size) :=
  (dropTo size).bind fun _ =>
    restack fun stack => List.replicate (size - stack.length) (.nil .void) ++ stack

theorem pushScope : Alike r shared pushScope pushScope := rescope _

theorem popScope : Alike r shared popScope popScope := rescope _

theorem bindLocal (name slot : String) :
    Alike r shared (bindLocal name slot) (bindLocal name slot) :=
  silent (fun _ _ _ => rfl) (fun _ => rfl) fun _ => rfl

theorem findLocal (name : String) : Alike r shared (findLocal name) (findLocal name) :=
  silent (fun _ _ _ => rfl) (fun _ => rfl) fun _ => rfl

theorem temp : Alike r shared temp temp :=
  silent (fun _ _ _ => rfl) (fun _ => rfl) fun _ => rfl

theorem freshLocal (name : String) : Alike r shared (freshLocal name) (freshLocal name) :=
  silent (fun _ _ _ => rfl) (fun _ => rfl) fun _ => rfl

theorem freshArray : Alike r shared freshArray freshArray :=
  silent (fun _ _ _ => rfl) (fun _ => rfl) fun _ => rfl

theorem fault (span : Span) (fault : Fault) :
    Alike r shared (Lowering.fault span fault) (Lowering.fault (r.span span) fault) := by
  rintro n _ ⟨strings, debugInfo, hs⟩
  exact ⟨rfl, ⟨strings, debugInfo, hs⟩, List.prefix_rfl, List.prefix_rfl, .nil, rfl⟩

theorem emitted {inst inst' : Inst}
    (h : ∀ strings strings', Inst.Alike shared strings strings' inst inst') :
    Alike r shared (Lowering.emit inst) (Lowering.emit inst') := by
  rintro n _ ⟨strings, debugInfo, hs⟩
  exact ⟨rfl, ⟨strings, debugInfo, hs⟩, List.prefix_rfl, List.prefix_rfl, .cons (h _ _) .nil, rfl⟩

/-- An instruction that refers to no string. -/
theorem emit {inst : Inst} (h : inst.string? = none) :
    Alike r shared (Lowering.emit inst) (Lowering.emit inst) := emitted fun _ _ => .plain h

/-- A temporary and the instruction that defines it. -/
theorem compute {inst : String → Inst} (h : ∀ x, (inst x).string? = none)
    {k k' : String → Line α} (hk : ∀ x, Alike r shared (k x) (k' x)) :
    Alike r shared (Lowering.temp >>= fun x => Lowering.emit (inst x) >>= fun _ => k x)
      (Lowering.temp >>= fun x => Lowering.emit (inst x) >>= fun _ => k' x) :=
  temp.bind fun x => (emit (h x)).bind fun _ => hk x

theorem pop (span : Span) : Alike r shared (pop span) (pop (r.span span)) := by
  refine look ?_
  rintro ⟨_, _, _, _, _, _, _ | ⟨operand, rest⟩⟩ _ ⟨strings, debugInfo, hs⟩
  · exact (fault span .emptyStack).bind (fun _ => pure _) ⟨strings, debugInfo, hs⟩
  · exact (restack fun _ => rest).bind (fun _ => pure operand) ⟨strings, debugInfo, hs⟩

theorem withTop (absent : α) {step step' : Operand → Line α}
    (h : ∀ operand, Alike r shared (step operand) (step' operand)) :
    Alike r shared (withTop absent step) (withTop absent step') := by
  refine look ?_
  rintro ⟨_, _, _, _, _, _, _ | ⟨operand, rest⟩⟩ _ ⟨strings, debugInfo, hs⟩
  · exact pure absent ⟨strings, debugInfo, hs⟩
  · exact (restack fun _ => rest).bind (fun _ => h operand) ⟨strings, debugInfo, hs⟩

/-! ## Tables -/

/-- The two runs may get different indices, each in its own table. -/
theorem pushString (literal : String) (type : Ty) :
    Alike r shared (pushString literal type) (pushString literal type) := by
  rintro n _ ⟨strings, debugInfo, hs⟩
  exact {
    value := rfl
    names := ⟨_, debugInfo, fun h => congrArg (fun strings => (Ir.intern strings literal).2) (hs h)⟩
    grows := Ir.prefix_intern _ _
    grows' := Ir.prefix_intern _ _
    insts := .cons (.str _ _ (Ir.getElem?_intern _ _) (Ir.getElem?_intern _ _)
      fun h => congrArg (fun strings => (Ir.intern strings literal).1) (hs h)) .nil
    notes := rfl }

variable {env : Env} {record : Option Nat}

/-- Calls have records for their places, or none. -/
theorem call (name type : String) (dest : Value) (args : List (String × Value))
    (signature : Option String) (span : Span) {k k' : Line α} (hk : Alike r shared k k') :
    Alike r shared
      (addLocation env span >>= fun location =>
        Lowering.emit (.call name type dest args signature location) >>= fun _ => k)
      (addLocation (env.relocate r record) (r.span span) >>= fun location =>
        Lowering.emit (.call name type dest args signature location) >>= fun _ => k') := by
  rintro n _ ⟨strings, debugInfo, hs⟩
  obtain ⟨location, left, run⟩ := addLocation_bind env span (fun location =>
    Lowering.emit (.call name type dest args signature location) >>= fun _ => k) n
  obtain ⟨location', right, run'⟩ := addLocation_bind (env.relocate r record) (r.span span)
    (fun location => Lowering.emit (.call name type dest args signature location) >>= fun _ => k')
    { n with strings, debugInfo }
  have emitted : Alike r shared (Lowering.emit (.call name type dest args signature location))
      (Lowering.emit (.call name type dest args signature location')) :=
    .emitted fun _ _ => .call ..
  have behind := emitted.bind (fun _ => hk)
    (Names.Alike.mk (n := { n with debugInfo := left }) strings right hs)
  rw [run, run']
  exact ⟨behind.value, behind.names, behind.grows, behind.grows', behind.insts, behind.notes⟩

/-! ## Steps of the walk -/

theorem mend (kind : NodeKind) (span : Span) (expected found : Nat) :
    Alike r shared (mend kind span expected found)
      (mend (kind.relocate r) (r.span span) expected found) := by
  unfold Lowering.mend
  rw [NodeKind.title_relocate]
  split
  · exact (fault _ _).bind fun _ => resize expected
  · exact pure ()

variable (env record)

theorem applyUnary (op : UnaryOp) (type : Ty) (source : Operand) :
    Alike r shared (applyUnary env op type source)
      (applyUnary (env.relocate r record) op type source) := by
  cases op <;> exact compute (fun _ => rfl) fun _ => push _

theorem applyArithmetic (op : Ir.BinOp) (type : Ty) (left right : Operand) :
    Alike r shared (applyArithmetic env op type left right)
      (applyArithmetic (env.relocate r record) op type left right) :=
  compute (fun _ => rfl) fun _ => push _

theorem applyComparison (kind : Ir.Comparison) (type : Ty) (left right : Operand) :
    Alike r shared (applyComparison env kind type left right)
      (applyComparison (env.relocate r record) kind type left right) :=
  compute (fun _ => rfl) fun _ => push _

theorem applyConvert (target : Ty) (source : Operand) :
    Alike r shared (applyConvert env target source)
      (applyConvert (env.relocate r record) target source) :=
  compute (fun _ => rfl) fun _ => push _

theorem hiddenSlot (type : String) : Alike r shared (hiddenSlot type) (hiddenSlot type) :=
  temp.bind fun _ => (addSlot _ _).bind fun _ => (emit rfl).bind fun _ => pure _

theorem storeLeft (left : Operand) : Alike r shared (storeLeft left) (storeLeft left) :=
  (hiddenSlot _).bind fun _ => (emit rfl).bind fun _ => pure _

theorem loadResult (type : Ty) (result : String) :
    Alike r shared (loadResult type result) (loadResult type result) :=
  compute (fun _ => rfl) fun _ => push _

theorem beginArray (size : Nat) (element : String) :
    Alike r shared (beginArray size element) (beginArray size element) :=
  freshArray.bind fun _ => (addSlot _ _).bind fun _ => (emit rfl).bind fun _ => pure _

theorem elementSlot (first element : String) (index : Nat) :
    Alike r shared (elementSlot first element index) (elementSlot first element index) :=
  compute (fun _ => rfl) fun _ => pure _

theorem beginInit (type : Ty) :
    Alike r shared (beginInit env type) (beginInit (env.relocate r record) type) :=
  (hiddenSlot _).bind fun _ => (emit rfl).bind fun _ => pure _

theorem fieldAddress (location : Operand) (structType : String) (index : Nat) :
    Alike r shared (fieldAddress location structType index)
      (fieldAddress location structType index) :=
  compute (fun _ => rfl) fun _ => pure _

theorem storeFields (location : Operand) (structType : String) (values : List (Nat × Operand)) :
    Alike r shared (storeFields env location structType values)
      (storeFields (env.relocate r record) location structType values) := by
  induction values with
  | nil => exact pure ()
  | cons value rest ih => exact (fieldAddress _ _ _).bind fun _ => (emit rfl).bind fun _ => ih

theorem unionPayload (location : Operand) (unionType member : Ty) (span : Span) :
    Alike r shared (unionPayload env location unionType member span)
      (unionPayload (env.relocate r record) location unionType member (r.span span)) := by
  have behind (storage : Ty) : Alike r shared
      (do
        let raw ← Lowering.fieldAddress location (env.map unionType) 1
        let dest ← Lowering.temp
        Lowering.emit (.cast .bitcast (.var dest) (.var raw) (env.map storage.pointer)
          (env.map member.pointer))
        Pure.pure dest) _ :=
    (fieldAddress _ _ _).bind fun _ => compute (fun _ => rfl) fun _ => pure _
  have layouts : (env.relocate r record).layouts = env.layouts := rfl
  rw [Lowering.unionPayload, Lowering.unionPayload, layouts]
  cases (env.layouts.union? unionType).bind UnionLayout.widest with
  | some widest => exact behind widest
  | none => exact (fault _ _).bind fun _ => behind member

theorem beginMember (location : Operand) (type : Ty) (member : UnionMember) (span : Span) :
    Alike r shared (beginMember env location type member span)
      (beginMember (env.relocate r record) location type member (r.span span)) :=
  (fieldAddress _ _ _).bind fun _ => (emit rfl).bind fun _ => unionPayload env record _ _ _ _

theorem load (location : Operand) :
    Alike r shared (load env location) (load (env.relocate r record) location) :=
  compute (fun _ => rfl) fun _ => pure _

theorem loadOrDecay (location : Operand) :
    Alike r shared (loadOrDecay env location) (loadOrDecay (env.relocate r record) location) := by
  unfold Lowering.loadOrDecay
  split
  · exact compute (fun _ => rfl) fun _ => pure _
  · exact load env record location

theorem dereference :
    Alike r shared (dereference env) (dereference (env.relocate r record)) := by
  refine withTop _ fun source => ?_
  split
  · exact compute (fun _ => rfl) fun _ => (push _).bind fun _ => pure _
  · exact (push _).bind fun _ => pure _

theorem reached (mode : Mode) (isResult : Bool) (source : Operand) :
    Alike r shared (reached env mode isResult source)
      (reached (env.relocate r record) mode isResult source) := by
  unfold Lowering.reached
  split
  · cases mode with
    | value => exact loadOrDecay env record source
    | address =>
      dsimp only
      split
      · exact load env record source
      · exact pure source
  · exact pure source

theorem finishChain (mode : Mode) (endsWithCall : Bool) :
    Alike r shared (finishChain env mode endsWithCall)
      (finishChain (env.relocate r record) mode endsWithCall) :=
  (dereference env record).bind fun _ => withTop _ fun _ =>
    (reached env record _ _ _).bind fun _ => push _

theorem pushElement (type : Ty) (location index : Operand) :
    Alike r shared (pushElement env type location index)
      (pushElement (env.relocate r record) type location index) :=
  (loadOrDecay env record location).bind fun _ => compute (fun _ => rfl) fun _ => push _

theorem beginDefine (name : String) (type : Ty) :
    Alike r shared (beginDefine env name type) (beginDefine (env.relocate r record) name type) :=
  (freshLocal name).bind fun _ => (addSlot _ _).bind fun _ => pure _

theorem endDefine (name : String) (type : Ty) (slot : String) (value : Operand) :
    Alike r shared (endDefine env name type slot value)
      (endDefine (env.relocate r record) name type slot value) :=
  (bindLocal name slot).bind fun _ => emit rfl

theorem assign (op : AssignOp) (target value : Operand) (span : Span) :
    Alike r shared (assign env op target value span)
      (assign (env.relocate r record) op target value (r.span span)) := by
  unfold Lowering.assign
  split
  · cases compound? op with
    | some op => exact compute (fun _ => rfl) fun _ => compute (fun _ => rfl) fun _ => emit rfl
    | none => exact emit rfl
  · exact fault _ _

theorem loadDown (levels : Nat) (location : Operand) :
    Alike r shared (loadDown env levels location)
      (loadDown (env.relocate r record) levels location) := by
  induction levels generalizing location with
  | zero => exact pure location
  | succ levels ih => exact (load env record location).bind fun inner => ih inner

theorem switchOperand (isUnion : Bool) (condition : Operand) (span : Span) :
    Alike r shared (switchOperand env isUnion condition span)
      (switchOperand (env.relocate r record) isUnion condition (r.span span)) := by
  unfold Lowering.switchOperand
  split
  · exact pure _
  · split
    · refine Alike.bind ?_ fun _ => pure _
      exact (loadDown env record _ _).bind fun _ => (fieldAddress _ _ _).bind fun _ =>
        compute (fun _ => rfl) fun _ => pure _
    · exact (fault _ _).bind fun _ => pure _

theorem lowerParams (params : List (String × Ty)) :
    Alike r shared (lowerParams env params) (lowerParams (env.relocate r record) params) := by
  induction params with
  | nil => exact pure ()
  | cons param rest ih =>
    exact (addSlot _ _).bind fun _ => (emit rfl).bind fun _ => (bindLocal _ _).bind fun _ => ih

/-! ## Symbols -/

theorem globalOperand (type : Ty) (span : Span) :
    Alike r shared (globalOperand env type span)
      (globalOperand (env.relocate r record) type (r.span span)) := by
  have symbol : functionSymbol (env.relocate r record) type = functionSymbol env type := by
    unfold functionSymbol
    rw [Env.symbols_relocate, SymbolTable.findFunction_relocate]
  unfold Lowering.globalOperand
  rw [symbol, Env.symbols_relocate, SymbolTable.kindOf_relocate]
  cases env.symbols.kindOf type with
  | unknown => exact (fault _ _).bind fun _ => pure _
  | _ => exact pure _

theorem pushIdentifier (name : String) (type : Ty) (span : Span) :
    Alike r shared (pushIdentifier env name type span)
      (pushIdentifier (env.relocate r record) name type (r.span span)) := by
  unfold Lowering.pushIdentifier
  split
  · exact (globalOperand env record type span).bind fun _ => push _
  · refine ((findLocal name).bind fun found => ?_).bind fun _ => push _
    cases found with
    | some slot => exact pure _
    | none => exact (fault _ _).bind fun _ => pure _

theorem lowerGetPath (name : String) (type : Ty) (span : Span) :
    Alike r shared (lowerGetPath env name type span)
      (lowerGetPath (env.relocate r record) name type (r.span span)) := by
  refine (pop span).bind fun owner => ?_
  have member : ((env.relocate r record).symbols.findEnum owner.type).bind
      (fun e => e.value? name) = (env.symbols.findEnum owner.type).bind fun e => e.value? name := by
    rw [Env.symbols_relocate, SymbolTable.findEnum_relocate, Option.bind_map]
    rfl
  rw [member]
  split
  case h_4 =>
    split
    · exact push _
    · exact (fault _ _).bind fun _ => push _
  case h_5 => exact (fault _ _).bind fun _ => push _
  all_goals exact push _

theorem pushMethod (receiver : Operand) (aggregate : Ty) (name : String) (type : Ty) :
    Alike r shared (pushMethod receiver aggregate name type)
      (pushMethod receiver aggregate name type) := (push _).bind fun _ => push _

theorem structMember (symbol : StructSymbol) (receiver : Operand) (aggregate : Ty) (name : String)
    (type : Ty) (span : Span) :
    Alike r shared (structMember env symbol receiver aggregate name type span)
      (structMember (env.relocate r record) (symbol.relocate r) receiver aggregate name type
        (r.span span)) := by
  have methods : (symbol.relocate r).methods = symbol.methods := rfl
  have index : (symbol.relocate r).fieldIndex? name = symbol.fieldIndex? name := rfl
  rw [Lowering.structMember, Lowering.structMember, methods, index]
  split
  · exact pushMethod _ _ _ _
  · cases symbol.fieldIndex? name with
    | some index => exact (fieldAddress _ _ _).bind fun _ => push _
    | none => exact (fault _ _).bind fun _ => push _

theorem unionMember (symbol : UnionSymbol) (receiver : Operand) (aggregate : Ty) (name : String)
    (type : Ty) (span : Span) :
    Alike r shared (unionMember env symbol receiver aggregate name type span)
      (unionMember (env.relocate r record) (symbol.relocate r) receiver aggregate name type
        (r.span span)) := by
  have methods : (symbol.relocate r).methods = symbol.methods := rfl
  have member : (symbol.relocate r).member? name = symbol.member? name := rfl
  rw [Lowering.unionMember, Lowering.unionMember, methods, member]
  split
  · exact pushMethod _ _ _ _
  · cases symbol.member? name with
    | some member => exact (unionPayload env record _ _ _ _).bind fun _ => push _
    | none => exact (fault _ _).bind fun _ => push _

theorem pushMember (receiver : Operand) (name : String) (type : Ty) (span : Span) :
    Alike r shared (pushMember env receiver name type span)
      (pushMember (env.relocate r record) receiver name type (r.span span)) := by
  unfold Lowering.pushMember
  dsimp only
  split
  · unfold primitiveMember
    change Alike r shared (if _ then _ else _) (if
      !((env.symbols.findPrimitive receiver.type.pointee.name).any fun p => p.methods.contains name)
      then _ else _)
    split
    · exact (fault _ _).bind fun _ => pushMethod _ _ _ _
    · exact pushMethod _ _ _ _
  · rw [Env.symbols_relocate, SymbolTable.findStruct_relocate, SymbolTable.findUnion_relocate]
    cases env.symbols.findStruct receiver.type.pointee with
    | some symbol => exact structMember env record symbol _ _ _ _ _
    | none =>
      cases env.symbols.findUnion receiver.type.pointee with
      | some symbol => exact unionMember env record symbol _ _ _ _ _
      | none => exact (fault _ _).bind fun _ => push _

theorem lowerGetField (name : String) (type : Ty) (span : Span) :
    Alike r shared (lowerGetField env name type span)
      (lowerGetField (env.relocate r record) name type (r.span span)) :=
  (dereference env record).bind fun _ => (pop span).bind fun _ => pushMember env record _ _ _ _

theorem lowerPtrGetField (name : String) (type : Ty) (span : Span) :
    Alike r shared (lowerPtrGetField env name type span)
      (lowerPtrGetField (env.relocate r record) name type (r.span span)) :=
  (dereference env record).bind fun _ => (pop span).bind fun _ => (load env record _).bind
    fun _ => pushMember env record _ _ _ _

theorem emitCall (callee : String) (type : Ty) (args : List Operand) (span : Span) :
    Alike r shared (emitCall env callee type args span)
      (emitCall (env.relocate r record) callee type args (r.span span)) := by
  unfold Lowering.emitCall
  dsimp only
  split
  · exact call _ _ _ _ _ span (push _)
  · exact temp.bind fun _ => call _ _ _ _ _ span
      ((hiddenSlot _).bind fun _ => (emit rfl).bind fun _ => push _)

end Line.Alike

/-- Every straight-line step that a walk takes does the same in two runs. -/
theorem Taken.alike {r : Relocation} {shared : Prop} {env : Env} {record : Option Nat}
    {locals : Set String} {x x' : Line α} (h : Taken r env record locals x x') :
    Line.Alike r shared x x' := by
  cases h with
  | height => exact .height
  | dropTo limit => exact .dropTo limit
  | mend kind span expected found => exact .mend kind span expected found
  | push operand => exact .push operand
  | pop span => exact .pop span
  | fault span fault => exact .fault span fault
  | store => exact .emit rfl
  | applyUnary => exact .applyUnary env record _ _ _
  | applyArithmetic => exact .applyArithmetic env record _ _ _ _
  | applyComparison => exact .applyComparison env record _ _ _ _
  | applyConvert => exact .applyConvert env record _ _
  | storeLeft => exact .storeLeft _
  | loadResult => exact .loadResult _ _
  | beginArray => exact .beginArray _ _
  | elementSlot => exact .elementSlot _ _ _
  | beginInit => exact .beginInit env record _
  | storeFields => exact .storeFields env record _ _ _
  | beginMember => exact .beginMember env record _ _ _ _
  | pushIdentifier => exact .pushIdentifier env record _ _ _
  | beginDefine => exact .beginDefine env record _ _
  | endDefine => exact .endDefine env record _ _ _ _
  | assign => exact .assign env record _ _ _ _
  | switchOperand => exact .switchOperand env record _ _ _
  | dereference => exact .dereference env record
  | finishChain => exact .finishChain env record _ _
  | pushElement => exact .pushElement env record _ _ _
  | lowerGetField => exact .lowerGetField env record _ _ _
  | lowerPtrGetField => exact .lowerPtrGetField env record _ _ _
  | lowerGetPath => exact .lowerGetPath env record _ _ _
  | emitCall => exact .emitCall env record _ _ _ _

end Codegen.Lowering
