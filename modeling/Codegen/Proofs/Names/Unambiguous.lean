import Codegen.Proofs.Names.Mangled
import Codegen.Proofs.Names.Quoted
import Mathlib.Data.List.Forall2

/-!
# Symbol names of types are unambiguous

A printed type is read from left to right without looking ahead: the identifiers of its path and its
name, its arguments between `<` and `>`, and its stars.  What is read ends where one of the marks
`: < > , * .` stands that it cannot go on with, so a text that begins with a type tells the type
and what follows it (`Readable.determined`).  The symbol name of a type differs from its full path
in the marks of the outermost path only, hence tells the same.
-/

namespace Codegen.Text

/-- The characters that stand between the parts of a printed type. -/
def isMark (c : Char) : Bool := [':', '<', '>', ',', '*', '.'].contains c

/-- A part of a name: it is not empty and has no marks. -/
def IsIdentifier (text : String) : Prop := text ≠ "" ∧ ∀ c ∈ text.toList, isMark c = false

-- by the list of its characters: there is also an instance that goes through all characters
instance (text : String) : Decidable (IsIdentifier text) :=
  @instDecidableAnd _ _ inferInstance (List.decidableBAll _ _)

theorem IsIdentifier.notMem {text : String} (h : IsIdentifier text) {c : Char}
    (hc : isMark c = true) : c ∉ text.toList :=
  fun hm => Bool.noConfusion (hc.symm.trans (h.2 c hm))

/-! ## Joined texts -/

theorem toList_join (separator part : String) (rest : List String) :
    (join separator (part :: rest)).toList =
      part.toList ++ rest.flatMap fun next => separator.toList ++ next.toList := by
  induction rest generalizing part with
  | nil => simp [join]
  | cons next rest ih => rw [join, String.toList_append, ih]; simp [String.toList_append]

theorem mem_join {separator : String} {parts : List String} {c : Char}
    (h : c ∈ (join separator parts).toList) :
    c ∈ separator.toList ∨ ∃ part ∈ parts, c ∈ part.toList := by
  cases parts with
  | nil => simp [join] at h
  | cons part rest =>
    rw [toList_join, List.mem_append, List.mem_flatMap] at h
    rcases h with h | ⟨next, hnext, h⟩
    · exact .inr ⟨part, List.mem_cons_self, h⟩
    · exact (List.mem_append.1 h).imp_right fun h => ⟨next, List.mem_cons_of_mem _ hnext, h⟩

/-- In joined identifiers the separators are all the `::` there are. -/
theorem dotted_join {parts : List String} (h : ∀ part ∈ parts, IsIdentifier part) :
    dotted (join "::" parts).toList = (join "." parts).toList := by
  have behind (cs : List Char) (hcs : ':' ∉ cs) (more : List Char) :
      dotted (cs ++ more) = cs ++ dotted more := by
    induction cs with
    | nil => rfl
    | cons c cs ih =>
      obtain ⟨hc, hcs⟩ := not_or.1 (mt List.mem_cons.2 hcs)
      rw [List.cons_append, dotted_cons fun h => absurd h.symm hc, ih hcs, List.cons_append]
  have later {rest : List String} (hrest : ∀ part ∈ rest, IsIdentifier part) :
      dotted (rest.flatMap fun next => "::".toList ++ next.toList) =
        rest.flatMap fun next => ".".toList ++ next.toList := by
    induction rest with
    | nil => rfl
    | cons next rest ih =>
      obtain ⟨hnext, hrest⟩ := List.forall_mem_cons.1 hrest
      rw [List.flatMap_cons, List.flatMap_cons, ← ih hrest, List.append_assoc, List.append_assoc,
        ← behind _ (hnext.notMem (by decide))]
      rfl
  cases parts with
  | nil => rfl
  | cons part rest =>
    obtain ⟨hpart, hrest⟩ := List.forall_mem_cons.1 h
    rw [toList_join, toList_join, behind _ (hpart.notMem (by decide)), later hrest]

/-- What follows begins with a mark other than `mark`, or nothing follows. -/
def Closes (mark : Char) (rest : List Char) : Prop := ∀ c ∈ rest.head?, isMark c = true ∧ c ≠ mark

section Separated

variable {separator : String} {mark : Char} {more : List Char}
  (hs : separator.toList = mark :: more) (hm : isMark mark = true)
include hs hm

theorem separated_append_inj {xs ys : List String} (hxs : ∀ x ∈ xs, IsIdentifier x)
    (hys : ∀ y ∈ ys, IsIdentifier y) {r r' : List Char} (hr : Closes mark r) (hr' : Closes mark r')
    (h : (xs.flatMap fun next => separator.toList ++ next.toList) ++ r =
      (ys.flatMap fun next => separator.toList ++ next.toList) ++ r') : xs = ys ∧ r = r' := by
  have marked (zs : List String) {q : List Char} (hq : Closes mark q) :
      ∀ c ∈ ((zs.flatMap fun next => separator.toList ++ next.toList) ++ q).head?,
        isMark c = true := by
    intro c hc
    cases zs with
    | nil => exact (hq c hc).1
    | cons z zs =>
      rw [List.flatMap_cons, hs] at hc
      exact Option.some.inj hc ▸ hm
  induction xs generalizing ys with
  | nil =>
    cases ys with
    | nil => exact ⟨rfl, h⟩
    | cons y ys =>
      rw [List.flatMap_nil, List.nil_append, List.flatMap_cons, hs] at h
      exact absurd rfl (hr mark (h ▸ rfl)).2
  | cons x xs ih =>
    obtain ⟨hx, hxs⟩ := List.forall_mem_cons.1 hxs
    cases ys with
    | nil =>
      rw [List.flatMap_nil, List.nil_append, List.flatMap_cons, hs] at h
      exact absurd rfl (hr' mark (h ▸ rfl)).2
    | cons y ys =>
      obtain ⟨hy, hys⟩ := List.forall_mem_cons.1 hys
      simp only [List.flatMap_cons, List.append_assoc] at h
      obtain ⟨same, hrest⟩ := span_append_inj hx.2 hy.2 (marked xs hr) (marked ys hr')
        (List.append_cancel_left h)
      obtain ⟨rest, hrest⟩ := ih hxs hys hrest
      exact ⟨by rw [String.toList_inj.1 same, rest], hrest⟩

/-- Joined identifiers end where something else than the separator follows. -/
theorem join_append_inj {xs ys : List String} (hx : xs ≠ []) (hy : ys ≠ [])
    (hxs : ∀ x ∈ xs, IsIdentifier x) (hys : ∀ y ∈ ys, IsIdentifier y) {r r' : List Char}
    (hr : Closes mark r) (hr' : Closes mark r')
    (h : (join separator xs).toList ++ r = (join separator ys).toList ++ r') :
    xs = ys ∧ r = r' := by
  obtain ⟨x, xs, rfl⟩ := List.exists_cons_of_ne_nil hx
  obtain ⟨y, ys, rfl⟩ := List.exists_cons_of_ne_nil hy
  -- a separator in front of both makes the first identifiers like the others
  have fronted : ((x :: xs).flatMap fun next => separator.toList ++ next.toList) ++ r =
      ((y :: ys).flatMap fun next => separator.toList ++ next.toList) ++ r' := by
    rw [toList_join, toList_join] at h
    simp only [List.flatMap_cons, List.append_assoc] at h ⊢
    rw [h]
  exact separated_append_inj hs hm hxs hys hr hr' fronted

end Separated

end Codegen.Text

namespace Codegen.Ty

open Text (IsIdentifier isMark Closes join mangle)

/-- Down to all generic arguments, names are identifiers, and paths are empty or identifiers joined
by `::`. -/
inductive Readable : Ty → Prop where
  | mk {ty : Ty} (name : IsIdentifier ty.name)
      (path : ∃ parts : List String, (∀ part ∈ parts, IsIdentifier part) ∧
        ty.path = join "::" parts)
      (generics : ∀ argument ∈ ty.generics, Readable argument) : Readable ty

/-- The types have the same path, the same name and equally many generic arguments, which are
pairwise of the same kind and have equally many pointer levels. -/
inductive SameInstance : Ty → Ty → Prop where
  | mk {t u : Ty} (path : t.path = u.path) (name : t.name = u.name)
      (length : t.generics.length = u.generics.length)
      (levels : ∀ pair ∈ t.generics.zip u.generics, pair.1.depth.toNat = pair.2.depth.toNat)
      (generics : ∀ pair ∈ t.generics.zip u.generics, SameInstance pair.1 pair.2) :
    SameInstance t u

/-! ## The text of a type -/

theorem starredPath_eq (ty : Ty) : ty.starredPath = ty.fullPath ++ Text.stars ty.depth.toNat := by
  obtain ⟨⟩ := ty
  rfl

theorem starredPaths_eq (types : List Ty) : starredPaths types = types.map starredPath := by
  induction types with
  | nil => rfl
  | cons ty types ih => rw [starredPaths, ih, List.map_cons]

/-- Generic arguments between `<` and `>`, if there are any. -/
def argumentText : List Ty → List Char
  | [] => []
  | generics => '<' :: ((join "," (generics.map starredPath)).toList ++ ['>'])

theorem argumentText_of_ne_nil {generics : List Ty} (h : generics ≠ []) :
    argumentText generics = '<' :: ((join "," (generics.map starredPath)).toList ++ ['>']) := by
  obtain ⟨_, _, rfl⟩ := List.exists_cons_of_ne_nil h
  rfl

theorem head?_argumentText {generics : List Ty} {c : Char}
    (h : c ∈ (argumentText generics).head?) : c = '<' := by
  cases generics with
  | nil => cases h
  | cons ty rest => exact (Option.some.inj h).symm

theorem toList_genericName (ty : Ty) :
    ty.genericName.toList = ty.name.toList ++ argumentText ty.generics := by
  rw [genericName, starredPaths_eq, instantiate]
  by_cases h : ty.generics = []
  · simp [h, argumentText]
  · rw [if_neg (by simpa using h), argumentText_of_ne_nil h]
    simp [String.toList_append]

theorem toList_fullPath (ty : Ty) : ty.fullPath.toList =
    (qualify ty.path ty.name).toList ++ argumentText ty.generics := by
  rw [fullPath, qualify, qualify]
  split
  · exact toList_genericName ty
  · simp only [String.toList_append, toList_genericName, List.append_assoc]

/-- The identifiers of the path and of the name. -/
structure HasParts (ty : Ty) (parts : List String) : Prop where
  path : ty.path = join "::" parts
  identifiers : ∀ part ∈ parts ++ [ty.name], IsIdentifier part

theorem Readable.exists_parts {ty : Ty} (h : ty.Readable) : ∃ parts, ty.HasParts parts := by
  obtain ⟨name, ⟨parts, hparts, path⟩, -⟩ := h
  exact ⟨parts, path, List.forall_mem_append.2 ⟨hparts, List.forall_mem_singleton.2 name⟩⟩

theorem Readable.generics {ty : Ty} (h : ty.Readable) :
    ∀ argument ∈ ty.generics, argument.Readable := by
  obtain ⟨-, -, generics⟩ := h
  exact generics

namespace HasParts

variable {ty : Ty} {parts : List String}

theorem toList_qualify (h : ty.HasParts parts) (name : String) :
    (qualify ty.path name).toList = (join "::" (parts ++ [name])).toList := by
  rw [qualify, h.path]
  cases parts with
  | nil => rfl
  | cons part rest =>
    have hpart : IsIdentifier part := h.identifiers part List.mem_cons_self
    have hne : join "::" (part :: rest) ≠ "" := by
      intro hjoin
      have empty := congrArg String.toList hjoin
      rw [Text.toList_join] at empty
      exact hpart.1 (String.toList_inj.1 (List.append_eq_nil_iff.1 empty).1)
    rw [if_neg hne, List.cons_append, Text.toList_join]
    simp [String.toList_append, Text.toList_join]

theorem toList_fullPath (h : ty.HasParts parts) :
    ty.fullPath.toList = (join "::" (parts ++ [ty.name])).toList ++ argumentText ty.generics := by
  rw [Ty.toList_fullPath, h.toList_qualify]

/-- Only the outermost path is mangled. -/
theorem toList_mangle_fullPath (h : ty.HasParts parts) :
    (mangle ty.fullPath).toList =
      (join "." (parts ++ [ty.name])).toList ++ argumentText ty.generics := by
  have hopen : '<' ∉ (join "::" (parts ++ [ty.name])).toList := by
    intro hmem
    rcases Text.mem_join hmem with hmem | ⟨part, hpart, hmem⟩
    · exact absurd hmem (by decide)
    · exact (h.identifiers part hpart).notMem (by decide) hmem
  rw [mangle, String.toList_ofList, h.toList_fullPath,
    Text.mangleChars_append hopen fun _ => head?_argumentText, Text.dotted_join h.identifiers]

end HasParts

/-! ## Reading a type back -/

/-- The arguments have the same pointer levels and are of the same kind. -/
def SameArgument (t u : Ty) : Prop := t.depth.toNat = u.depth.toNat ∧ t.SameInstance u

theorem sameInstance_iff {t u : Ty} : t.SameInstance u ↔
    t.path = u.path ∧ t.name = u.name ∧ List.Forall₂ SameArgument t.generics u.generics := by
  simp only [List.forall₂_iff_zip]
  constructor
  · rintro ⟨path, name, length, levels, generics⟩
    exact ⟨path, name, length, fun h => ⟨levels _ h, generics _ h⟩⟩
  · rintro ⟨path, name, length, generics⟩
    exact ⟨path, name, length, fun _ h => (generics h).1, fun _ h => (generics h).2⟩

/-- What follows is the end of a list of arguments or the next argument. -/
def EndsArgument (rest : List Char) : Prop := ∀ c ∈ rest.head?, c = ',' ∨ c = '>'

/-- A text that begins with the type tells the type and what follows it. -/
def Determined (t : Ty) : Prop :=
  ∀ {u : Ty} {r r' : List Char}, u.Readable → EndsArgument r → EndsArgument r' →
    t.starredPath.toList ++ r = u.starredPath.toList ++ r' → t.SameArgument u ∧ r = r'

theorem arguments_append_inj {ts us : List Ty} (hts : ∀ t ∈ ts, t.Determined)
    (hus : ∀ u ∈ us, u.Readable) {q q' : List Char}
    (h : (ts.flatMap fun t => ',' :: t.starredPath.toList) ++ '>' :: q =
      (us.flatMap fun u => ',' :: u.starredPath.toList) ++ '>' :: q') :
    List.Forall₂ SameArgument ts us ∧ q = q' := by
  have ends (vs : List Ty) (q : List Char) :
      EndsArgument ((vs.flatMap fun v => ',' :: v.starredPath.toList) ++ '>' :: q) := by
    intro c hc
    cases vs with
    | nil => exact .inr (Option.some.inj hc).symm
    | cons v vs => exact .inl (Option.some.inj hc).symm
  induction ts generalizing us with
  | nil =>
    cases us with
    | nil => exact ⟨.nil, (List.cons.inj h).2⟩
    | cons u us => exact absurd (List.cons.inj h).1 (by decide)
  | cons t ts ih =>
    obtain ⟨ht, hts⟩ := List.forall_mem_cons.1 hts
    cases us with
    | nil => exact absurd (List.cons.inj h).1 (by decide)
    | cons u us =>
      obtain ⟨hu, hus⟩ := List.forall_mem_cons.1 hus
      simp only [List.flatMap_cons, List.append_assoc, List.cons_append] at h
      obtain ⟨same, hrest⟩ := ht hu (ends ts q) (ends us q') (List.cons.inj h).2
      obtain ⟨rest, hq⟩ := ih hts hus hrest
      exact ⟨.cons same rest, hq⟩

theorem argumentText_append_inj {ts us : List Ty} (hts : ∀ t ∈ ts, t.Determined)
    (hus : ∀ u ∈ us, u.Readable) {q q' : List Char} (hq : q.head? ≠ some '<')
    (hq' : q'.head? ≠ some '<') (h : argumentText ts ++ q = argumentText us ++ q') :
    List.Forall₂ SameArgument ts us ∧ q = q' := by
  have text (v : Ty) (vs : List Ty) (q : List Char) : argumentText (v :: vs) ++ q =
      '<' :: (v.starredPath.toList ++
        ((vs.flatMap fun v => ',' :: v.starredPath.toList) ++ '>' :: q)) := by
    rw [argumentText_of_ne_nil (List.cons_ne_nil v vs), List.map_cons, Text.toList_join]
    simp [List.flatMap_map]
  cases ts with
  | nil =>
    cases us with
    | nil => exact ⟨.nil, h⟩
    | cons u us =>
      rw [text] at h
      exact absurd (congrArg List.head? h) hq
  | cons t ts =>
    cases us with
    | nil =>
      rw [text] at h
      exact absurd (congrArg List.head? h.symm) hq'
    | cons u us =>
      -- with a comma in front of both, the first arguments are like the others
      rw [text, text] at h
      refine arguments_append_inj hts hus ?_
      simpa using (List.cons.inj h).2

theorem stars_append_inj {m n : Nat} {r r' : List Char} (hr : r.head? ≠ some '*')
    (hr' : r'.head? ≠ some '*') (h : (Text.stars m).toList ++ r = (Text.stars n).toList ++ r') :
    m = n ∧ r = r' := by
  have stars (k : Nat) : ∀ c ∈ (Text.stars k).toList, decide (c ≠ '*') = false := by
    intro c hc
    rw [Text.stars, String.toList_ofList] at hc
    simp [List.eq_of_mem_replicate hc]
  have ends {q : List Char} (hq : q.head? ≠ some '*') : ∀ c ∈ q.head?, decide (c ≠ '*') = true :=
    fun c hc => decide_eq_true fun same => hq (same ▸ hc)
  obtain ⟨same, hrest⟩ := Text.span_append_inj (stars m) (stars n) (ends hr) (ends hr') h
  have lengths := congrArg List.length same
  simp only [Text.stars, String.toList_ofList, List.length_replicate] at lengths
  exact ⟨lengths, hrest⟩

/-- What can follow the generic arguments of a type: its stars and what is behind them. -/
def EndsInstance (rest : List Char) : Prop := ∀ c ∈ rest.head?, c = '*' ∨ c = ',' ∨ c = '>'

theorem EndsArgument.stars_append {r : List Char} (hr : EndsArgument r) (n : Nat) :
    EndsInstance ((Text.stars n).toList ++ r) := by
  intro c hc
  rw [Text.stars, String.toList_ofList] at hc
  cases n with
  | zero => exact .inr (hr c hc)
  | succ n => exact .inl (Option.some.inj hc).symm

/-- What can follow the name of a type: its generic arguments and what is behind them. -/
theorem EndsInstance.closes {q : List Char} (hq : EndsInstance q) {mark : Char}
    (hm : mark = ':' ∨ mark = '.') (generics : List Ty) :
    Closes mark (argumentText generics ++ q) := by
  intro c hc
  have hc : c = '<' ∨ c = '*' ∨ c = ',' ∨ c = '>' := by
    cases generics with
    | nil => exact .inr (hq c hc)
    | cons ty rest => exact .inl (Option.some.inj hc).symm
  rcases hc with rfl | rfl | rfl | rfl <;> rcases hm with rfl | rfl <;> decide

/-- The path and the name, and then the arguments: this is read in the same way whether the path is
mangled or not. -/
theorem instance_append_inj {separator : String} {mark : Char} {more : List Char}
    (hs : separator.toList = mark :: more) (hm : mark = ':' ∨ mark = '.') {t u : Ty}
    {parts parts' : List String} (ht : t.HasParts parts) (hu : u.HasParts parts')
    (hts : ∀ argument ∈ t.generics, argument.Determined)
    (hus : ∀ argument ∈ u.generics, argument.Readable) {q q' : List Char} (hq : EndsInstance q)
    (hq' : EndsInstance q')
    (h : (join separator (parts ++ [t.name])).toList ++ (argumentText t.generics ++ q) =
      (join separator (parts' ++ [u.name])).toList ++ (argumentText u.generics ++ q')) :
    t.SameInstance u ∧ q = q' := by
  have marks : isMark mark = true := by
    rcases hm with rfl | rfl <;> decide
  have notOpen {q : List Char} (hq : EndsInstance q) : q.head? ≠ some '<' := by
    intro hc
    rcases hq _ hc with h | h | h <;> cases h
  obtain ⟨same, behind⟩ := Text.join_append_inj hs marks (by simp) (by simp) ht.identifiers
    hu.identifiers (hq.closes hm _) (hq'.closes hm _) h
  obtain ⟨arguments, behind⟩ := argumentText_append_inj hts hus (notOpen hq) (notOpen hq') behind
  obtain ⟨hparts, hname⟩ := List.append_inj' same rfl
  have hpath : t.path = u.path := by
    rw [ht.path, hu.path, hparts]
  exact ⟨sameInstance_iff.2 ⟨hpath, (List.cons.inj hname).1, arguments⟩, behind⟩

theorem Readable.determined {t : Ty} (ht : t.Readable) : t.Determined := by
  induction ht with
  | @mk t name path generics ih =>
    intro u r r' hu hr hr' h
    obtain ⟨parts, ht⟩ := (Readable.mk name path generics).exists_parts
    obtain ⟨parts', hu'⟩ := hu.exists_parts
    have notStar {r : List Char} (hr : EndsArgument r) : r.head? ≠ some '*' := by
      intro hc
      rcases hr _ hc with h | h <;> cases h
    rw [starredPath_eq, starredPath_eq, String.toList_append, String.toList_append,
      ht.toList_fullPath, hu'.toList_fullPath] at h
    simp only [List.append_assoc] at h
    obtain ⟨same, behind⟩ := instance_append_inj rfl (.inl rfl) ht hu' ih hu.generics
      (hr.stars_append _) (hr'.stars_append _) h
    obtain ⟨levels, behind⟩ := stars_append_inj (notStar hr) (notStar hr') behind
    exact ⟨⟨levels, same⟩, behind⟩

/-- Types of the same kind have the same full path. -/
theorem SameInstance.fullPath_eq {t u : Ty} (h : t.SameInstance u) : t.fullPath = u.fullPath := by
  induction h with
  | @mk t u path name length levels _ ih =>
    have same : t.generics.map starredPath = u.generics.map starredPath := by
      rw [← List.forall₂_eq_eq_eq, List.forall₂_map_left_iff, List.forall₂_map_right_iff,
        List.forall₂_iff_zip]
      refine ⟨length, fun hpair => ?_⟩
      rw [starredPath_eq, starredPath_eq, ih _ hpair, levels _ hpair]
    rw [fullPath, genericName, starredPaths_eq, same, path, name, ← starredPaths_eq]
    rfl

theorem Readable.mangle_fullPath_inj {t u : Ty} (ht : t.Readable) (hu : u.Readable)
    (h : mangle t.fullPath = mangle u.fullPath) : t.SameInstance u := by
  obtain ⟨parts, ht'⟩ := ht.exists_parts
  obtain ⟨parts', hu'⟩ := hu.exists_parts
  have texts := congrArg String.toList h
  rw [ht'.toList_mangle_fullPath, hu'.toList_mangle_fullPath,
    ← List.append_nil (argumentText t.generics), ← List.append_nil (argumentText u.generics)]
    at texts
  have ends : EndsInstance [] := fun _ hc => nomatch hc
  exact (instance_append_inj rfl (.inr rfl) ht' hu'
    (fun argument hmem => (ht.generics argument hmem).determined) hu.generics ends ends texts).1

/-! ## Names that are kept apart -/

theorem mangle_member {member : String} (h : IsIdentifier member) (ty : Ty) :
    (mangle (ty.fullPath ++ "." ++ member)).toList =
      (mangle ty.fullPath).toList ++ '.' :: member.toList := by
  have pathFree : Text.PathFree member.toList := fun hpath =>
    h.notMem (by decide) (hpath.subset List.mem_cons_self)
  rw [Text.mangle_append_dot _ pathFree]
  simp [String.toList_append]

/-- The symbol of a member ends in its last dot and the member. -/
theorem mangle_member_inj {t u : Ty} {member other : String} (hm : IsIdentifier member)
    (ho : IsIdentifier other)
    (h : mangle (t.fullPath ++ "." ++ member) = mangle (u.fullPath ++ "." ++ other)) :
    mangle t.fullPath = mangle u.fullPath := by
  have texts := congrArg String.toList h
  rw [mangle_member hm, mangle_member ho] at texts
  exact String.toList_inj.1 (Text.append_cons_span_inj (by decide) hm.2 ho.2 texts).1

/-- Two types have the same symbol name exactly if they have the same path, the same name and
generic arguments that agree pairwise, down to their pointer levels.  So struct types that differ
are declared, used and have members under different names, also in the quotes of their printed
forms. -/
theorem mangled_names_are_unambiguous {t u : Ty} (ht : t.Readable) (hu : u.Readable) :
    (mangle t.fullPath = mangle u.fullPath ↔ t.SameInstance u) ∧
      (¬ t.SameInstance u →
        Ir.structName (mangle t.fullPath) ≠ Ir.structName (mangle u.fullPath) ∧
        (∀ types : TypeMap, types.kinds.get? t.fullPath = some .struct →
          types.kinds.get? u.fullPath = some .struct →
            types.declaredName t ≠ types.declaredName u) ∧
        ∀ member other : String, IsIdentifier member → IsIdentifier other →
          Ir.globalName (mangle (t.fullPath ++ "." ++ member)) ≠
            Ir.globalName (mangle (u.fullPath ++ "." ++ other))) := by
  have apart : ¬ t.SameInstance u → mangle t.fullPath ≠ mangle u.fullPath :=
    mt (ht.mangle_fullPath_inj hu)
  refine ⟨⟨ht.mangle_fullPath_inj hu, fun h => congrArg mangle h.fullPath_eq⟩, ?_⟩
  refine fun hne => ⟨?_, ?_, ?_⟩
  · intro h
    exact apart hne (String.append_right_inj _ |>.1 (Text.quoted_inj h))
  · intro types hts hus h
    rw [TypeMap.declaredName, TypeMap.declaredName, hts, hus] at h
    exact apart hne (String.append_right_inj _ |>.1 h)
  · intro member other hm ho h
    exact apart hne (mangle_member_inj hm ho (Text.quoted_inj (String.append_right_inj _ |>.1 h)))

namespace Sample

/-- The type `m::box<i64*,m::pair<u8,…>>` over a type `cell` of the module `path`. -/
def boxOf (path : String) (depth : Int) : Ty :=
  let cell : Ty := { name := "cell", path, depth }
  { name := "box", path := "m",
    generics := [.primitive "i64" 1, { name := "pair", path := "m", generics := [.u8, cell] }] }

end Sample

theorem boxes_are_unambiguous :
    (Sample.boxOf "a::b" 1).Readable ∧ (Sample.boxOf "a" 0).Readable ∧
      mangle (Sample.boxOf "a::b" 1).fullPath = "m.box<i64*,m::pair<u8,a::b::cell*>>" ∧
      ¬ (Sample.boxOf "a::b" 1).SameInstance (Sample.boxOf "a" 0) ∧
      Ir.globalName (mangle ((Sample.boxOf "a::b" 1).fullPath ++ "." ++ "__size__")) ≠
        Ir.globalName (mangle ((Sample.boxOf "a" 0).fullPath ++ "." ++ "__size__")) := by
  have i64 : IsIdentifier "i64" := by decide +kernel
  have u8 : IsIdentifier "u8" := by decide +kernel
  have names : IsIdentifier "box" ∧ IsIdentifier "pair" ∧ IsIdentifier "cell" := by decide +kernel
  have inM : ∀ part ∈ ["m"], IsIdentifier part := by decide +kernel
  have readable {name : String} {depth : Int} (parts : List String) (generics : List Ty)
      (hname : IsIdentifier name) (hparts : ∀ part ∈ parts, IsIdentifier part)
      (hgenerics : ∀ argument ∈ generics, argument.Readable) :
      ({ name, path := join "::" parts, depth, generics } : Ty).Readable :=
    ⟨hname, ⟨parts, hparts, rfl⟩, hgenerics⟩
  have box (parts : List String) (depth : Int) (hparts : ∀ part ∈ parts, IsIdentifier part) :
      (Sample.boxOf (join "::" parts) depth).Readable :=
    readable ["m"] _ names.1 inM <| List.forall_mem_cons.2
      ⟨readable [] [] i64 nofun nofun, List.forall_mem_singleton.2 <|
        readable ["m"] _ names.2.1 inM <| List.forall_mem_cons.2
          ⟨readable [] [] u8 nofun nofun, List.forall_mem_singleton.2 <|
            readable parts [] names.2.2 hparts nofun⟩⟩
  have left : (Sample.boxOf "a::b" 1).Readable := box ["a", "b"] 1 (by decide +kernel)
  have right : (Sample.boxOf "a" 0).Readable := box ["a"] 0 (by decide +kernel)
  have apart : ¬ (Sample.boxOf "a::b" 1).SameInstance (Sample.boxOf "a" 0) :=
    fun h => absurd h.fullPath_eq (by decide +kernel)
  exact ⟨left, right, by decide +kernel, apart,
    ((mangled_names_are_unambiguous left right).2 apart).2.2 _ _
      (by decide +kernel) (by decide +kernel)⟩

end Codegen.Ty
