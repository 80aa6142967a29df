import Codegen.Proofs.Fresh
import Codegen.Proofs.Scalar.Frames

/-!
# Stores and frames

What holds between the tree and its code while both run: a walk sees the same locals as the tree
(`Sees`), and the stack slots of a frame hold the values of the locals (`Mirrors`).  The code of an
expression changes a frame only at new temporaries and new hidden slots (`Keeps`), so it disturbs
nothing that anyone still looks at.
-/

namespace Codegen

open Lowering (Origin)

namespace Cell

/-- What the name of the stack slot of a local is made for. -/
def origin : Cell → Origin
  | .param name => .slot name
  | .defined name number => .defined name number

/-- The stack slot of a local. -/
def slot (cell : Cell) : String := cell.origin.name

/-- Every local has a slot of its own. -/
theorem slot_injective {a b : Cell} (h : a.slot = b.slot) : a = b := by
  have origins := Origin.name_injective h
  cases a <;> cases b <;> simp_all [origin]

theorem slot_ne_hidden (cell : Cell) (number : Nat) :
    cell.slot ≠ (Origin.hidden number).name :=
  Origin.name_ne (by cases cell <;> simp [origin])

end Cell

/-- The visible locals with their slots. -/
def Scope.slots (Γ : Scope) : List (List (String × String)) :=
  Γ.blocks.map fun block => block.map fun binding => (binding.1, binding.2.slot)

theorem Scope.findSome?_slots (Γ : Scope) (name : String) :
    (Γ.slots.findSome? fun scope => scope.lookup name) = (Γ.find? name).map Cell.slot := by
  have inner (block : List (String × Cell)) :
      (block.map fun binding => (binding.1, binding.2.slot)).lookup name =
        (block.lookup name).map Cell.slot := by
    induction block with
    | nil => rfl
    | cons binding rest ih =>
      rw [List.map_cons, List.lookup_cons, List.lookup_cons, ih]
      cases name == binding.1 <;> rfl
  rw [Scope.slots, Scope.find?]
  induction Γ.blocks with
  | nil => rfl
  | cons block rest ih =>
    rw [List.map_cons, List.findSome?_cons, List.findSome?_cons, inner, ih]
    cases block.lookup name <;> rfl

namespace Lowering

open Ir (Frame Content Slot Value)

/-! ## Slots of scalar code -/

/-- The names of the stack slots of scalar code. -/
inductive SlotName : String → Prop where
  | cell (cell : Cell) : SlotName cell.slot
  | hidden (number : Nat) : SlotName (Origin.hidden number).name

namespace SlotName

theorem ne_temp {name : String} (h : SlotName name) (number : Nat) :
    name ≠ (Origin.temp number).name := by
  cases h with
  | cell cell => exact Origin.name_ne (by cases cell <;> simp [Cell.origin])
  | hidden i => exact Origin.name_ne (by simp)

end SlotName

/-! ## Frames -/

/-- Between the frames, only temporaries and hidden slots from a number on change. -/
structure Keeps (k : Nat) (fr fr' : Frame) : Prop where
  names : ∀ name, (∀ j, k ≤ j → name ≠ (Origin.temp j).name) → fr'.names name = fr.names name
  slots : ∀ slot, (∀ j, k ≤ j → slot ≠ (Origin.hidden j).name) → fr'.slots slot = fr.slots slot

namespace Keeps

variable {k : Nat} {fr fr' fr'' : Frame}

theorem refl (k : Nat) (fr : Frame) : Keeps k fr fr := ⟨fun _ _ => rfl, fun _ _ => rfl⟩

theorem trans {k' : Nat} (h : Keeps k fr fr') (h' : Keeps k' fr' fr'') (hk : k ≤ k') :
    Keeps k fr fr'' where
  names name hn := (h'.names name fun j hj => hn j (Nat.le_trans hk hj)).trans (h.names name hn)
  slots slot hs := (h'.slots slot fun j hj => hs j (Nat.le_trans hk hj)).trans (h.slots slot hs)

theorem define {j : Nat} (hj : k ≤ j) (fr : Frame) (content : Content) :
    Keeps k fr (fr.define (Origin.temp j).name content) where
  names _ hn := Function.update_of_ne (hn j hj) _ _
  slots _ _ := rfl

theorem put {j : Nat} (hj : k ≤ j) (fr : Frame) (d : Datum) :
    Keeps k fr (fr.put (Origin.hidden j).name d) where
  names _ _ := rfl
  slots _ hs := Function.update_of_ne (hs j hj) _ _

/-- An operand that is not new keeps its value. -/
theorem read {v : Value} (h : Keeps k fr fr') (hv : ∀ j, k ≤ j → v ≠ .var (Origin.temp j).name)
    (type : String) : fr'.read type v = fr.read type v := by
  cases v with
  | null note => rfl
  | lit text => rfl
  | var name =>
    have same := h.names name fun j hj heq => hv j hj (congrArg Value.var heq)
    simp only [Frame.read, same]

end Keeps

/-- The frame holds the addresses of the stack slots and the values of the locals. -/
structure Mirrors (slots : List Slot) (σ : Store) (fr : Frame) : Prop where
  addresses : ∀ slot ∈ slots, SlotName slot.name →
    fr.names slot.name = some (.address slot.name)
  values : ∀ cell d, σ cell = some d → fr.slots cell.slot = some d

namespace Mirrors

variable {slots : List Slot} {σ : Store} {fr fr' : Frame}

theorem keeps {k : Nat} (h : Mirrors slots σ fr) (hk : Keeps k fr fr') : Mirrors slots σ fr' where
  addresses slot hm hs :=
    (hk.names _ fun j _ => hs.ne_temp j).trans (h.addresses slot hm hs)
  values cell d hd :=
    (hk.slots _ fun j _ => cell.slot_ne_hidden j).trans (h.values cell d hd)

/-- A local and its slot get the same value. -/
theorem put (h : Mirrors slots σ fr) (cell : Cell) (d : Datum) :
    Mirrors slots (σ.set cell d) (fr.put cell.slot d) where
  addresses := h.addresses
  values c e he := by
    by_cases hc : c = cell
    · subst hc
      rw [Store.set, Function.update_self] at he
      exact (Function.update_self ..).trans he
    · rw [Store.set, Function.update_of_ne hc] at he
      exact (Function.update_of_ne (fun heq => hc (Cell.slot_injective heq)) _ _).trans
        (h.values c e he)

theorem address? (h : Mirrors slots σ fr) {slot : Slot} (hm : slot ∈ slots)
    (hs : SlotName slot.name) : fr.address? (.var slot.name) = some slot.name := by
  simp only [Frame.address?, h.addresses slot hm hs]

end Mirrors

/-! ## Scopes -/

/-- The walk sees the locals of a scope, and all of them have stack slots. -/
structure Sees (slots : List Slot) (Γ : Scope) (n : Names) : Prop where
  scopes : n.scopes = Γ.slots
  kept : ∀ block ∈ Γ.blocks, ∀ binding ∈ block, ∃ slot ∈ slots, slot.name = binding.2.slot

/-- The walk sees a scope, and numbers the next local like the scope. -/
structure Tracks (slots : List Slot) (Γ : Scope) (n : Names) : Prop extends Sees slots Γ n where
  next : n.nextLocal = Γ.next

namespace Sees

variable {slots : List Slot} {Γ : Scope} {n n' : Names}

theorem of_scopes (h : Sees slots Γ n) (hn : n'.scopes = n.scopes) : Sees slots Γ n' :=
  ⟨hn.trans h.scopes, h.kept⟩

/-- A visible local is found by the walk, and it has a stack slot. -/
theorem find (h : Sees slots Γ n) {name : String} {cell : Cell} (hc : Γ.find? name = some cell) :
    (n.scopes.findSome? fun scope => scope.lookup name) = some cell.slot ∧
      ∃ slot ∈ slots, slot.name = cell.slot := by
  refine ⟨by rw [h.scopes, Scope.findSome?_slots, hc]; rfl, ?_⟩
  obtain ⟨block, hb, hl⟩ := List.exists_of_findSome?_eq_some hc
  obtain ⟨before, after, rfl, -⟩ := List.lookup_eq_some_iff.1 hl
  exact h.kept _ hb (name, cell) (by simp)

end Sees

namespace Tracks

variable {slots : List Slot} {Γ : Scope} {n n' : Names}

theorem of_eq (h : Tracks slots Γ n) (hs : n'.scopes = n.scopes) (hl : n'.nextLocal = n.nextLocal) :
    Tracks slots Γ n' :=
  ⟨h.toSees.of_scopes hs, hl.trans h.next⟩

theorem opened (h : Tracks slots Γ n) :
    Tracks slots Γ.opened { n with scopes := [] :: n.scopes } where
  scopes := congrArg (List.cons []) h.scopes
  kept := List.forall_mem_cons.2 ⟨List.forall_mem_nil _, h.kept⟩
  next := h.next

theorem closed (h : Tracks slots Γ n) :
    Tracks slots Γ.closed { n with scopes := n.scopes.tail } where
  scopes := by
    rw [h.scopes, Scope.slots, Scope.slots, Scope.closed, List.map_tail]
  kept block hb := h.kept block (List.mem_of_mem_tail hb)
  next := h.next

theorem scopes_bindLocal (name slot : String) (n : Names) :
    (bindLocal name slot n).names.scopes =
      match n.scopes with
      | [] => [[(name, slot)]]
      | scope :: rest => ((name, slot) :: scope) :: rest := rfl

/-- A local becomes visible to both sides. -/
theorem bound (h : Tracks slots Γ n) {name : String} {cell : Cell}
    (hc : ∃ slot ∈ slots, slot.name = cell.slot) :
    Tracks slots (Γ.bound name cell) (bindLocal name cell.slot n).names := by
  refine ⟨⟨?_, ?_⟩, h.next⟩
  · rw [scopes_bindLocal, h.scopes, Scope.slots, Scope.slots, Scope.bound]
    cases Γ.blocks <;> rfl
  · have kept := h.kept
    rw [Scope.bound]
    cases hb : Γ.blocks with
    | nil => simpa using hc
    | cons block rest =>
      rw [hb] at kept
      obtain ⟨hblock, hrest⟩ := List.forall_mem_cons.1 kept
      exact List.forall_mem_cons.2 ⟨List.forall_mem_cons.2 ⟨hc, hblock⟩, hrest⟩

end Tracks

/-- The frame holds the address of a visible local. -/
theorem Mirrors.address_of_find {slots : List Slot} {σ : Store} {fr : Frame} {Γ : Scope}
    {n : Names} (h : Mirrors slots σ fr) (hs : Sees slots Γ n) {name : String} {cell : Cell}
    (hc : Γ.find? name = some cell) : fr.address? (.var cell.slot) = some cell.slot := by
  obtain ⟨-, slot, hm, hslot⟩ := hs.find hc
  exact hslot ▸ h.address? hm (hslot ▸ .cell cell)

end Lowering

end Codegen
