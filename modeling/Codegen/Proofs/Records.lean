import Codegen.Lowering.Records
import Codegen.Proofs.Lookup
import Mathlib.Data.List.Forall2
import Mathlib.Data.List.Perm.Basic

/-!
# Debug records refer to debug records

`DebugInfo.Closed` says that records are numbered without gaps and that all numbers they mention
lead to records of the right kind.

While records are added, a number may be taken whose record still has to come: the record of an enum
stands behind those of its members.  `Recorded` is the invariant with such numbers left open, and
`Adds` says of a step that it keeps the invariant and which records are there behind it.
-/

namespace Codegen.Ir

/-- Whether an entry is a compile unit. -/
def Entry.isUnit : Entry → Bool
  | .compileUnit .. => true
  | _ => false

/-- The numbers that an entry mentions lead to entries of the right kind; `Has` says which entry a
number leads to. -/
def Entry.Refers (Has : Nat → Entry → Prop) : Entry → Prop
  | .list items => ∀ i, .ref i ∈ items → ∃ entry, Has i entry
  | .file .. | .basicType .. | .enumerator .. => True
  | .compileUnit _ source => ∃ name directory, Has source (.file name directory)
  | .enumType _ _ source _ baseType elements =>
    (∃ name directory, Has source (.file name directory)) ∧
      Has baseType (.basicType "i64" 64 "DW_ATE_signed") ∧
      ∀ i ∈ elements, ∃ items, Has i (.list items)
  | .structureType _ _ source _ => ∃ name directory, Has source (.file name directory)
  | .subprogram _ source _ typeIndex unit =>
    (∃ name directory, Has source (.file name directory)) ∧
      (∃ types, Has typeIndex (.subroutineType types)) ∧
      ∃ producer unitFile, Has unit (.compileUnit producer unitFile)
  | .subroutineType types => ∃ items, Has types (.list items)
  | .location _ _ scope => ∃ name source line typeIndex unit,
      Has scope (.subprogram name source line typeIndex unit)

theorem Entry.Refers.mono {Has Has' : Nat → Entry → Prop} (h : ∀ i e, Has i e → Has' i e)
    {entry : Entry} (hr : entry.Refers Has) : entry.Refers Has' := by
  cases entry with
  | list items => exact fun i hi => (hr i hi).imp fun _ => h i _
  | file => trivial
  | basicType => trivial
  | enumerator => trivial
  | compileUnit => exact hr.imp fun _ => Exists.imp fun _ => h _ _
  | structureType => exact hr.imp fun _ => Exists.imp fun _ => h _ _
  | enumType =>
    obtain ⟨hf, hb, he⟩ := hr
    exact ⟨hf.imp fun _ => Exists.imp fun _ => h _ _, h _ _ hb,
      fun i hi => (he i hi).imp fun _ => h i _⟩
  | subprogram =>
    obtain ⟨hf, ht, hu⟩ := hr
    exact ⟨hf.imp fun _ => Exists.imp fun _ => h _ _, ht.imp fun _ => h _ _,
      hu.imp fun _ => Exists.imp fun _ => h _ _⟩
  | subroutineType => exact hr.imp fun _ => h _ _
  | location =>
    obtain ⟨name, source, line, typeIndex, unit, hs⟩ := hr
    exact ⟨name, source, line, typeIndex, unit, h _ _ hs⟩

namespace DebugInfo

/-- What the record with a number says. -/
def entry? (info : DebugInfo) (i : Nat) : Option Entry := (info.find? i).map Record.entry

/-- Records have the numbers up to the first one that is not taken, each of them once; named entries
and records mention only records of the right kind; and there is one compile unit. -/
structure Closed (info : DebugInfo) : Prop where
  numbered : (info.records.map Record.index).Perm (List.range info.next)
  named : ∀ n ∈ info.named, ∀ i ∈ n.refs, ∃ entry, info.entry? i = some entry
  refers : ∀ r ∈ info.records, r.entry.Refers fun i entry => info.entry? i = some entry
  unit : info.records.countP (·.entry.isUnit) = 1

/-- Different records have different numbers, so each is found under its own. -/
theorem find?_of_mem {records : List Record} (h : (records.map Record.index).Nodup) {r : Record}
    (hr : r ∈ records) : (records.find? fun r' => r'.index = r.index) = some r := by
  induction records with
  | nil => cases hr
  | cons r' records ih =>
    obtain ⟨hfirst, hrest⟩ := List.nodup_cons.1 h
    rcases List.mem_cons.1 hr with rfl | hr
    · simp
    · have other : r'.index ≠ r.index := fun heq => hfirst (List.mem_map.2 ⟨r, hr, heq.symm⟩)
      rw [List.find?_cons_of_neg (by simpa using other)]
      exact ih hrest hr

theorem entry?_of_mem {info : DebugInfo} (h : (info.records.map Record.index).Nodup) {i : Nat}
    {entry : Entry} (hr : ⟨i, entry⟩ ∈ info.records) : info.entry? i = some entry :=
  congrArg (Option.map Record.entry) (find?_of_mem h hr)

end DebugInfo

end Codegen.Ir

namespace Codegen.Lowering

open Ir (DebugInfo Entry Item Record)

variable {α β : Type}

/-- The records have a record with the number and the entry. -/
def Lists (records : List Record) (i : Nat) (entry : Entry) : Prop := ⟨i, entry⟩ ∈ records

/-- The number leads to the record of a file. -/
def ListsFile (records : List Record) (i : Nat) : Prop :=
  ∃ name directory, Lists records i (.file name directory)

/-- How far the records have got: the numbers whose records still have to come, and how many compile
units there are. -/
structure Stage where
  pending : List Nat := []
  units : Nat := 0

/-- The invariant of the records of a module while they are added. -/
structure Recorded (s : Stage) (info : DebugInfo) : Prop where
  numbered : (info.records.map Record.index ++ s.pending).Perm (List.range info.next)
  named : ∀ n ∈ info.named, ∀ i ∈ n.refs, ∃ entry, Lists info.records i entry
  refers : ∀ r ∈ info.records, r.entry.Refers (Lists info.records)
  units : info.records.countP (·.entry.isUnit) = s.units

theorem refers_mono {records records' : List Record} (h : records ⊆ records') {entry : Entry}
    (he : entry.Refers (Lists records)) : entry.Refers (Lists records') :=
  he.mono fun _ _ hr => h hr

namespace Recorded

variable {s : Stage} {info : DebugInfo}

theorem start : Recorded {} {} where
  numbered := List.Perm.refl []
  named := List.forall_mem_nil _
  refers := List.forall_mem_nil _
  units := rfl

theorem reserve (h : Recorded s info) :
    Recorded { s with pending := info.next :: s.pending } info.reserve where
  numbered := by
    have taken : List.range (info.next + 1) = List.range info.next ++ [info.next] :=
      List.range_succ
    change (_ ++ info.next :: s.pending).Perm (List.range (info.next + 1))
    rw [taken]
    exact List.perm_middle.trans ((h.numbered.cons _).trans (List.perm_append_singleton _ _).symm)
  named := h.named
  refers := h.refers
  units := h.units

/-- A record for the last number that was taken and not used. -/
theorem push {i : Nat} (h : Recorded { s with pending := i :: s.pending } info) {entry : Entry}
    (he : entry.Refers (Lists info.records)) :
    Recorded { s with units := s.units + entry.isUnit.toNat } (info.push i entry) where
  numbered := by
    have order := h.numbered
    change (List.map _ (_ ++ [_]) ++ s.pending).Perm _
    rwa [List.map_append, List.map_singleton, List.append_assoc]
  named n hn i hi := (h.named n hn i hi).imp fun _ => List.mem_append_left _
  refers r hr := by
    have sub : info.records ⊆ (info.push i entry).records := List.subset_append_left _ _
    rcases List.mem_append.1 hr with hr | hr
    · exact refers_mono sub (h.refers r hr)
    · obtain rfl := List.mem_singleton.1 hr
      exact refers_mono sub he
  units := by
    change List.countP _ (_ ++ [_]) = _
    rw [List.countP_append, h.units, List.countP_singleton]
    cases entry.isUnit <;> rfl

theorem add (h : Recorded s info) {entry : Entry} (he : entry.Refers (Lists info.records)) :
    Recorded { s with units := s.units + entry.isUnit.toNat } (info.add entry) := h.reserve.push he

theorem addNamed (h : Recorded s info) (name : String) {refs : List Nat}
    (hr : ∀ i ∈ refs, ∃ entry, Lists info.records i entry) :
    Recorded s (info.addNamed name refs) where
  numbered := h.numbered
  named n hn := by
    rcases List.mem_append.1 hn with hn | hn
    · exact h.named n hn
    · obtain rfl := List.mem_singleton.1 hn
      exact hr
  refers := h.refers
  units := h.units

/-- When all records are there, they are closed. -/
theorem closed (h : Recorded { units := 1 } info) : info.Closed := by
  have numbered : (info.records.map Record.index).Perm (List.range info.next) := by
    have := h.numbered
    rwa [List.append_nil] at this
  have found {i : Nat} {entry : Entry} (hr : Lists info.records i entry) :
      info.entry? i = some entry :=
    DebugInfo.entry?_of_mem (numbered.nodup_iff.2 List.nodup_range) hr
  exact ⟨numbered, fun n hn i hi => (h.named n hn i hi).imp fun _ => found,
    fun r hr => (h.refers r hr).mono fun _ _ => found, h.units⟩

end Recorded

/-! ## Steps -/

/-- A step that keeps the invariant: it needs the records `known`, loses none, and leaves a result
and records that are as `post` says. -/
def Adds (s s' : Stage) (known : List Record) (step : Recording α)
    (post : α → List Record → Prop) : Prop :=
  ∀ info, Recorded s info → known ⊆ info.records →
    Recorded s' (step info).2 ∧ info.records ⊆ (step info).2.records ∧
      post (step info).1 (step info).2.records

section Adds

variable {s s' s'' : Stage} {known : List Record}

theorem Adds.bind {x : Recording α} {f : α → Recording β} {post : α → List Record → Prop}
    {post' : β → List Record → Prop} (hx : Adds s s' known x post)
    (hf : ∀ a known', known ⊆ known' → post a known' → Adds s' s'' known' (f a) post') :
    Adds s s'' known (x >>= f) post' := by
  intro info h hk
  obtain ⟨h', hsub, hpost⟩ := hx info h hk
  obtain ⟨h'', hsub', hpost'⟩ :=
    hf _ _ (List.Subset.trans hk hsub) hpost _ h' (List.Subset.refl _)
  exact ⟨h'', List.Subset.trans hsub hsub', hpost'⟩

theorem Adds.mono {x : Recording α} {post post' : α → List Record → Prop}
    (h : Adds s s' known x post)
    (hp : ∀ a records, known ⊆ records → post a records → post' a records) :
    Adds s s' known x post' := by
  intro info hi hk
  obtain ⟨h', hsub, hpost⟩ := h info hi hk
  exact ⟨h', hsub, hp _ _ (List.Subset.trans hk hsub) hpost⟩

theorem adds_pure {a : α} {post : α → List Record → Prop}
    (h : ∀ records, known ⊆ records → post a records) : Adds s s known (pure a) post :=
  fun _ hi hk => ⟨hi, List.Subset.refl _, h _ hk⟩

theorem adds_record {entry : Entry} (he : entry.Refers (Lists known)) :
    Adds s { s with units := s.units + entry.isUnit.toNat } known (record entry)
      fun i records => Lists records i entry := fun _ h hk =>
  ⟨h.add (refers_mono hk he), List.subset_append_left _ _,
    List.mem_append_right _ (List.mem_singleton_self _)⟩

/-- A record that is no compile unit. -/
theorem adds_record_of_not_unit {entry : Entry} (he : entry.Refers (Lists known))
    (hu : entry.isUnit = false) :
    Adds s s known (record entry) fun i records => Lists records i entry := by
  have added := adds_record (s := s) he
  rwa [hu] at added

theorem adds_recordAll {entries : List Entry}
    (h : ∀ entry ∈ entries, entry.Refers (Lists known) ∧ entry.isUnit = false) :
    Adds s s known (recordAll entries) fun indices records =>
      List.Forall₂ (Lists records) indices entries := by
  induction entries generalizing known with
  | nil => exact adds_pure fun _ _ => .nil
  | cons entry rest ih =>
    obtain ⟨⟨he, hu⟩, hrest⟩ := List.forall_mem_cons.1 h
    refine (adds_record_of_not_unit he hu).bind fun i known' hsub hi => ?_
    have others := ih fun e he => ⟨refers_mono hsub (hrest e he).1, (hrest e he).2⟩
    refine others.bind fun indices known'' hsub' his => adds_pure fun _ hsub'' => ?_
    exact .cons (hsub'' (hsub' hi)) (his.imp fun _ _ hr => hsub'' hr)

theorem adds_recordNamed (name : String) {refs : List Nat}
    (h : ∀ i ∈ refs, ∃ entry, Lists known i entry) :
    Adds s s known (recordNamed name refs) fun _ _ => True := fun _ hi hk =>
  ⟨hi.addNamed name fun i hm => (h i hm).imp fun _ hr => hk hr, List.Subset.refl _, trivial⟩

theorem exists_lists_of_forall₂ {records : List Record} {indices : List Nat}
    {entries : List Entry} (h : List.Forall₂ (Lists records) indices entries) :
    ∀ i ∈ indices, ∃ entry ∈ entries, Lists records i entry := by
  induction h with
  | nil => exact List.forall_mem_nil _
  | cons hi _ ih =>
    refine List.forall_mem_cons.2 ⟨⟨_, List.mem_cons_self, hi⟩, fun i hm => ?_⟩
    obtain ⟨entry, he, hr⟩ := ih i hm
    exact ⟨entry, List.mem_cons_of_mem _ he, hr⟩

/-! ## Files -/

/-- Every file name leads to the record of a file. -/
def FilesListed (records : List Record) (files : FileIndex) : Prop :=
  ∀ name, ListsFile records (files.find name)

theorem FilesListed.mono {records records' : List Record} {files : FileIndex}
    (h : FilesListed records files) (hsub : records ⊆ records') : FilesListed records' files :=
  fun name => (h name).imp fun _ => Exists.imp fun _ hr => hsub hr

/-- A name without a record has the record of the empty name. -/
theorem filesListed_ofList {records : List Record} {names : List String} {indices : List Nat}
    {directory : String} (hempty : "" ∈ names)
    (h : List.Forall₂ (Lists records) indices (names.map fun name => .file name directory)) :
    FilesListed records (Dict.ofList (names.zip indices)) := by
  have listed {name : String} {i : Nat}
      (hi : (Dict.ofList (names.zip indices)).get? name = some i) : ListsFile records i := by
    have hmem := (List.of_mem_zip (Dict.mem_of_get?_ofList hi)).2
    obtain ⟨entry, he, hr⟩ := exists_lists_of_forall₂ h i hmem
    obtain ⟨file, -, rfl⟩ := List.mem_map.1 he
    exact ⟨file, directory, hr⟩
  have hkeys : (names.zip indices).map Prod.fst = names := by
    refine List.map_fst_zip ?_
    have := h.length_eq
    rw [List.length_map] at this
    omega
  intro name
  unfold FileIndex.find
  obtain ⟨empty, hfound⟩ := Dict.exists_get?_ofList (hkeys.symm ▸ hempty)
  cases hname : (Dict.ofList (names.zip indices)).get? name with
  | some i => exact listed hname
  | none =>
    rw [hfound]
    exact listed hfound

theorem adds_recordFiles {names : List String} (hempty : "" ∈ names) (directory : String) :
    Adds s s known (recordFiles names directory) fun files records =>
      FilesListed records files := by
  have each : ∀ entry ∈ names.map (fun name => Entry.file name directory),
      entry.Refers (Lists known) ∧ entry.isUnit = false := by
    intro entry he
    obtain ⟨name, -, rfl⟩ := List.mem_map.1 he
    exact ⟨trivial, rfl⟩
  refine (adds_recordAll each).bind fun indices known' _ h => adds_pure fun records hsub => ?_
  exact (filesListed_ofList hempty h).mono hsub

/-! ## Enums -/

theorem adds_recordMembers (members : List (String × Int)) :
    Adds s s known (recordMembers members) fun list records =>
      ∀ i ∈ list, ∃ items, Lists records i (.list items) := by
  unfold recordMembers
  split
  · exact adds_pure fun _ _ i hi => nomatch hi
  · have each : ∀ entry ∈ members.map (fun member => Entry.enumerator member.1 member.2),
        entry.Refers (Lists known) ∧ entry.isUnit = false := by
      intro entry he
      obtain ⟨member, -, rfl⟩ := List.mem_map.1 he
      exact ⟨trivial, rfl⟩
    refine (adds_recordAll each).bind fun refs known' _ hrefs => ?_
    have list : (Entry.list (refs.map .ref)).Refers (Lists known') := by
      intro i hi
      obtain ⟨j, hj, hji⟩ := List.mem_map.1 hi
      obtain rfl := Item.ref.inj hji
      obtain ⟨entry, -, hr⟩ := exists_lists_of_forall₂ hrefs j hj
      exact ⟨entry, hr⟩
    refine (adds_record_of_not_unit list rfl).bind fun i known'' _ hi => ?_
    refine adds_pure fun records hsub j hj => ?_
    obtain rfl := Option.some.inj hj
    exact ⟨_, hsub hi⟩

/-- The number of an enum is taken before its members are recorded, and used behind them. -/
theorem adds_recordEnum (path : String) {file baseType : Nat} (hf : ListsFile known file)
    (hb : Lists known baseType (.basicType "i64" 64 "DW_ATE_signed")) (symbol : EnumSymbol) :
    Adds s s known (recordEnum path file baseType symbol) fun _ _ => True := by
  intro info h hk
  obtain ⟨hmembers, hsub, hlist⟩ :=
    adds_recordMembers symbol.members info.reserve h.reserve (List.Subset.refl _)
  have hsub' := List.Subset.trans hk hsub
  have entry : (Entry.enumType symbol.name (Text.mangle (Ty.named symbol.name path).fullPath) file
      symbol.line baseType (recordMembers symbol.members info.reserve).1).Refers
        (Lists (recordMembers symbol.members info.reserve).2.records) :=
    ⟨hf.imp fun _ => Exists.imp fun _ hr => hsub' hr, hsub' hb, hlist⟩
  exact ⟨hmembers.push entry, List.Subset.trans hsub (List.subset_append_left _ _), trivial⟩

theorem adds_recordEnums (path : String) {file baseType : Nat} (hf : ListsFile known file)
    (hb : Lists known baseType (.basicType "i64" 64 "DW_ATE_signed"))
    (symbols : List EnumSymbol) :
    Adds s s known (recordEnums path file baseType symbols) fun _ _ => True := by
  induction symbols generalizing known with
  | nil => exact adds_pure fun _ _ => trivial
  | cons symbol rest ih =>
    refine (adds_recordEnum path hf hb symbol).bind fun _ known' hsub _ => ?_
    exact ih (hf.imp fun _ => Exists.imp fun _ hr => hsub hr) (hsub hb)

theorem adds_recordModules {files : FileIndex} {baseType : Nat} (hf : FilesListed known files)
    (hb : Lists known baseType (.basicType "i64" 64 "DW_ATE_signed"))
    (modules : List (String × ModuleSymbols)) :
    Adds s s known (recordModules files baseType modules) fun _ _ => True := by
  induction modules generalizing known with
  | nil => exact adds_pure fun _ _ => trivial
  | cons m rest ih =>
    refine (adds_recordEnums m.1 (hf m.2.file) hb m.2.enums.values).bind fun _ known' hsub _ => ?_
    exact ih (hf.mono hsub) (hsub hb)

/-! ## Functions -/

/-- The numbers lead to the records of functions with the given names. -/
def FunctionsListed (records : List Record) (functions : List (String × Nat)) : Prop :=
  ∀ f ∈ functions, ∃ source line typeIndex unit,
    Lists records f.2 (.subprogram f.1 source line typeIndex unit)

theorem adds_recordFunctions {files : FileIndex} {unit : Nat} (hf : FilesListed known files)
    {producer : String} {unitFile : Nat} (hu : Lists known unit (.compileUnit producer unitFile))
    (fs : List Func) :
    Adds s s known (recordFunctions files unit fs) fun functions records =>
      functions.map Prod.fst = fs.map Func.name ∧ FunctionsListed records functions := by
  induction fs generalizing known with
  | nil => exact adds_pure fun _ _ => ⟨rfl, List.forall_mem_nil _⟩
  | cons f rest ih =>
    have types : (Entry.list [.null]).Refers (Lists known) := fun i hi =>
      absurd (List.mem_singleton.1 hi) (by simp)
    refine (adds_record_of_not_unit types rfl).bind fun t known₁ h₁ ht => ?_
    have subroutine : (Entry.subroutineType t).Refers (Lists known₁) := ⟨_, ht⟩
    refine (adds_record_of_not_unit subroutine rfl).bind fun r known₂ h₂ hr => ?_
    have hsub := List.Subset.trans h₁ h₂
    have entry : (Entry.subprogram f.name (files.find f.file) f.span.line r unit).Refers
        (Lists known₂) :=
      ⟨hf.mono hsub f.file, ⟨t, hr⟩, producer, unitFile, hsub hu⟩
    refine (adds_record_of_not_unit entry rfl).bind fun i known₃ h₃ hi => ?_
    have hsub := List.Subset.trans hsub h₃
    refine (ih (hf.mono hsub) (hsub hu)).bind fun functions known₄ h₄ hfs => adds_pure ?_
    intro records h₅
    refine ⟨by rw [List.map_cons, List.map_cons, hfs.1], List.forall_mem_cons.2 ⟨?_, ?_⟩⟩
    · exact ⟨_, _, _, _, h₅ (h₄ hi)⟩
    · intro g hg
      obtain ⟨source, line, typeIndex, unit, hr⟩ := hfs.2 g hg
      exact ⟨source, line, typeIndex, unit, h₅ hr⟩

/-! ## Modules -/

/-- The numbers of the built-in types, in order, with the record of `i64` among them. -/
theorem lists_i64 {records : List Record} {basics : List Nat}
    (h : List.Forall₂ (Lists records) basics
      (basicTypes.map fun (name, size, encoding) => .basicType name size encoding)) :
    Lists records ((((basicTypes.map Prod.fst).zip basics).lookup "i64").getD 0)
      (.basicType "i64" 64 "DW_ATE_signed") := by
  simp only [basicTypes, List.map_cons] at h
  match h with
  | .cons _ (.cons _ (.cons _ (.cons hi _))) => exact hi

/-- A list without references mentions nothing. -/
theorem refers_list {Has : Nat → Entry → Prop} {items : List Item} (h : ∀ i, .ref i ∉ items) :
    (Entry.list items).Refers Has := fun i hi => absurd hi (h i)

theorem mentions_nothing_of_mem_moduleFlags {triple : String} {entry : Entry}
    (h : entry ∈ moduleFlags triple) (Has : Nat → Entry → Prop) :
    entry.Refers Has ∧ entry.isUnit = false := by
  have flagged : ∃ behavior name value, entry = flag behavior name value := by
    simp only [moduleFlags, List.mem_append, List.mem_cons, List.mem_ite_nil_right,
      List.not_mem_nil, or_false] at h
    rcases h with ((h | h | h) | ⟨-, h⟩) | h | h <;> exact ⟨_, _, _, h⟩
  obtain ⟨behavior, name, value, rfl⟩ := flagged
  exact ⟨refers_list (by simp), rfl⟩

/-- The records of a module are closed, and every function has one under its name. -/
theorem adds_recordModule (context : Context) (symbols : SymbolTable) (config : Config) :
    Adds {} { units := 1 } [] (recordModule context symbols config) fun functions records =>
      ∀ f ∈ context.impls, ∃ i source line typeIndex unit, functions.get? f.name = some i ∧
        Lists records i (.subprogram f.name source line typeIndex unit) := by
  refine (adds_record_of_not_unit (refers_list (by simp)) rfl).bind fun ident known₁ _ hident => ?_
  refine (adds_recordNamed "llvm.ident" (by simpa using ⟨_, hident⟩)).bind fun _ known₂ _ _ => ?_
  refine (adds_recordAll fun _ h => mentions_nothing_of_mem_moduleFlags h _).bind
    fun flags known₃ _ hflags => ?_
  refine (adds_recordNamed "llvm.module.flags" fun i hi => ?_).bind fun _ known₄ _ _ => ?_
  · obtain ⟨entry, -, hr⟩ := exists_lists_of_forall₂ hflags i hi
    exact ⟨entry, hr⟩
  refine (adds_recordFiles List.mem_cons_self config.directory).bind fun files known₅ _ hfiles => ?_
  have unit : (Entry.compileUnit config.producer (files.find symbols.inputFile)).Refers
      (Lists known₅) := hfiles _
  refine (adds_record unit).bind fun unit known₆ h₆ hunit => ?_
  refine (adds_recordNamed "llvm.dbg.cu" (by simpa using ⟨_, hunit⟩)).bind fun _ known₇ h₇ _ => ?_
  have basics : ∀ entry ∈ basicTypes.map (fun (name, size, encoding) =>
      Entry.basicType name size encoding), entry.Refers (Lists known₇) ∧ entry.isUnit = false := by
    intro entry he
    obtain ⟨type, -, rfl⟩ := List.mem_map.1 he
    exact ⟨trivial, rfl⟩
  refine (adds_recordAll basics).bind fun basics known₈ h₈ hbasics => ?_
  have hsub := List.Subset.trans h₆ (List.Subset.trans h₇ h₈)
  refine (adds_recordModules (hfiles.mono hsub) (lists_i64 hbasics) _).bind
    fun _ known₉ h₉ _ => ?_
  have hsub := List.Subset.trans hsub h₉
  have structs : ∀ entry ∈ context.structs.map (structEntry files),
      entry.Refers (Lists known₉) ∧ entry.isUnit = false := by
    intro entry he
    obtain ⟨a, -, rfl⟩ := List.mem_map.1 he
    exact ⟨hfiles.mono hsub a.file, rfl⟩
  refine (adds_recordAll structs).bind fun _ known₁₀ h₁₀ _ => ?_
  have hunit := h₁₀ (h₉ (h₈ (h₇ hunit)))
  refine (adds_recordFunctions (hfiles.mono (List.Subset.trans hsub h₁₀)) hunit context.impls).bind
    fun functions known₁₁ _ hfunctions => adds_pure fun records h₁₂ f hf => ?_
  obtain ⟨i, hi⟩ := Dict.exists_get?_ofList
    (hfunctions.1 ▸ List.mem_map_of_mem hf : f.name ∈ functions.map Prod.fst)
  obtain ⟨source, line, typeIndex, unit, hr⟩ := hfunctions.2 _ (Dict.mem_of_get?_ofList hi)
  exact ⟨i, source, line, typeIndex, unit, hi, h₁₂ hr⟩

end Adds

end Codegen.Lowering
