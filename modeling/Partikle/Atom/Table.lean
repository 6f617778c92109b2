import Partikle.Atom.Core
import Mathlib.Data.List.Count
import Mathlib.Data.List.Range

/-!
The invariant of the atom table: what the slots, the chains and the free list say
about the strings, independently of who refers to them.
-/

namespace Atoms

open Strings HashChain Function Option

def link (i : Nat) : Option Nat := if i = 0 then none else some i

@[simp] theorem link_zero : link 0 = none := rfl

variable {i : Nat} {rt : Runtime} {p : Ptr} {c : Cell}

theorem link_of_ne (nonzero : i ≠ 0) : link i = some i := by simp [link, nonzero]

variable {j : Nat} {rt' : Runtime} {d c' : Cell}

theorem link_eq_some : link i = some j ↔ i = j ∧ i ≠ 0 := by
  unfold link
  split
  · simp_all
  · simp_all

theorem link_eq_none : link i = none ↔ i = 0 := by simp [link]

theorem link_inj (same : link i = link j) : i = j := by
  by_cases zero : i = 0
  · rw [zero, link_zero] at same
    rw [zero, link_eq_none.mp same.symm]
  · rw [link_of_ne zero] at same
    exact (link_eq_some.mp same.symm).1.symm

def Cell.core (c : Cell) : Cell := { c with hashNext := 0 }

section

variable (rt : Runtime)

def Runtime.core (p : Ptr) : Option Cell := (rt.cell p).map Cell.core

def Runtime.nextOf (i : Nat) : Option Nat := (rt.cellAt i).bind fun c => link c.hashNext

def Runtime.headOf (b : Nat) : Option Nat := link (rt.atomHash b)

def Runtime.bucketAt (size i : Nat) : Nat :=
  ((rt.cellAt i).map fun c => bucketIn size c.hash).getD 0

def Runtime.isHashed (i : Nat) : Prop := ∃ c, rt.cellAt i = some c ∧ c.atomType.hashed = true

def Runtime.isFree (i : Nat) : Prop := i < rt.atomSize ∧ ∃ next, rt.atomArray i = .free next

def Runtime.freeNext (i : Nat) : Option Nat :=
  match rt.atomArray i with
  | .free next => link next
  | .atom _ => none

def Runtime.liveCount : Nat := (List.range rt.atomSize).countP fun i => (rt.ptrAt i).isSome

end

theorem bucketAt_eq (size : Nat) (there : rt.cellAt i = some c) : rt.bucketAt size i = bucketIn size c.hash := by
  simp [Runtime.bucketAt, there]

structure Slots (rt : Runtime) : Prop where
  cells : ∀ i p, rt.ptrAt i = some p → ∃ c, rt.cell p = some c ∧ c.atomType ≠ .none
  inj : ∀ i j p, rt.ptrAt i = some p → rt.ptrAt j = some p → i = j
  owner : ∀ p c, rt.cell p = some c → c.atomType ≠ .none → ∃ i, rt.ptrAt i = some p
  nullAtom : 0 < rt.atomSize → ∃ c, rt.cellAt 0 = some c ∧ c.atomType = .symbol
  symbolIndex : ∀ i c, 0 < i → rt.cellAt i = some c → c.atomType = .symbol → c.hashNext = i
  hashes : ∀ i c, rt.cellAt i = some c → c.atomType.hashed = true →
    c.hash = atomHashOf c.atomType c.contents
  distinct : ∀ i j c d, rt.cellAt i = some c → rt.cellAt j = some d → c.atomType.hashed = true →
    c.atomType = d.atomType → c.contents.units = d.contents.units → i = j

def FreeList (rt : Runtime) : Prop :=
  ∃ free, Follows rt.freeNext (link rt.atomFreeIndex) free ∧
    ∀ i, i ∈ free ↔ 0 < i ∧ rt.isFree i

structure Table (rt : Runtime) : Prop where
  slots : Slots rt
  sized : ∃ k, rt.atomHashSize = 2 ^ k
  chains : IsTable rt.nextOf rt.headOf rt.atomHashSize (rt.bucketAt rt.atomHashSize) rt.isHashed
  free : FreeList rt
  counted : rt.atomCount = rt.liveCount

theorem Table.positive (table : Table rt) : 0 < rt.atomHashSize := by
  obtain ⟨k, power⟩ := table.sized
  rw [power]
  exact Nat.two_pow_pos k

theorem ptrAt_lt (there : rt.ptrAt i = some p) : i < rt.atomSize := by
  unfold Runtime.ptrAt at there
  by_contra outside
  simp [outside] at there

theorem ptrAt_eq_some : rt.ptrAt i = some p ↔ i < rt.atomSize ∧ rt.atomArray i = .atom p := by
  unfold Runtime.ptrAt
  by_cases inside : i < rt.atomSize
  · cases slot : rt.atomArray i <;> simp [inside]
  · simp [inside]

theorem cellAt_eq_some : rt.cellAt i = some c ↔ ∃ p, rt.ptrAt i = some p ∧ rt.cell p = some c := by
  simp [Runtime.cellAt, bind_eq_some_iff]

theorem ne_symbol_of_hashed {type : AtomType} (hashed : type.hashed = true) : type ≠ .symbol := by
  rintro rfl
  cases hashed

theorem Slots.pos_of_hashed (slots : Slots rt) (there : rt.cellAt i = some c) (hashed : c.atomType.hashed = true) :
    0 < i := by
  obtain ⟨p, place, -⟩ := cellAt_eq_some.mp there
  apply Nat.pos_of_ne_zero
  rintro rfl
  obtain ⟨d, again, symbol⟩ := slots.nullAtom ((Nat.zero_le _).trans_lt (ptrAt_lt place))
  obtain rfl : c = d := some.inj (there.symm.trans again)
  exact ne_symbol_of_hashed hashed symbol

theorem Slots.held (slots : Slots rt) (positive : 0 < i) (place : rt.ptrAt i = some p) : rt.ptrAt 0 ≠ some p :=
  fun null => positive.ne (slots.inj 0 i p null place)

theorem bucketIn_lt {size : Nat} (positive : 0 < size) (hash : BitVec 30) : bucketIn size hash < size := by
  have bound : bucketIn size hash ≤ size - 1 := Nat.and_le_right
  omega

theorem cell_eq_of_core (same : rt'.core p = rt.core p)
    (found : rt'.cell p = some c) : ∃ c0, rt.cell p = some c0 ∧ c.core = c0.core := by
  unfold Runtime.core at same
  rw [found] at same
  cases present : rt.cell p with
  | none => simp [present] at same
  | some c0 =>
    rw [present] at same
    exact ⟨c0, rfl, some.inj same⟩

theorem core_fields (same : c.core = d.core) :
    c.refCount = d.refCount ∧ c.contents = d.contents ∧ c.usableSize = d.usableSize ∧ c.hash = d.hash ∧
      c.atomType = d.atomType := by
  unfold Cell.core at same
  simp only [Cell.mk.injEq, and_true] at same
  exact same

theorem core_type (same : c.core = d.core) : c.atomType = d.atomType := (core_fields same).2.2.2.2

@[simp] theorem cell_setCell_self : (rt.setCell p c).cell p = some c := update_self ..

theorem core_setCell_of_ne {q : Ptr} (other : q ≠ p) : (rt.setCell p c).core q = rt.core q := by
  simp [Runtime.core, Runtime.setCell, update_of_ne other]

/-- What the slots demand of an atom. -/
structure SameName (c c' : Cell) : Prop where
  hash : c'.hash = c.hash
  atomType : c'.atomType = c.atomType
  contents : c.atomType.hashed = true → c'.contents = c.contents
  index : c.atomType = .symbol → c'.hashNext = c.hashNext

theorem SameName.of_core (same : c.core = d.core) (index : c.atomType = .symbol → d.hashNext = c.hashNext) :
    SameName c d := by
  obtain ⟨-, contents, -, hash, type⟩ := core_fields same
  exact ⟨hash.symm, type.symm, fun _ => contents.symm, index⟩

theorem Slots.carry (slots : Slots rt) (places : ∀ i p, rt'.ptrAt i = some p → rt.ptrAt i = some p)
    (cells : ∀ i p c, rt'.ptrAt i = some p → rt.cell p = some c → c.atomType ≠ .none → ∃ c', rt'.cell p = some c' ∧
      SameName c c')
    (owner : ∀ p c', rt'.cell p = some c' → c'.atomType ≠ .none → ∃ i, rt'.ptrAt i = some p)
    (null : 0 < rt'.atomSize → 0 < rt.atomSize ∧ rt'.ptrAt 0 = rt.ptrAt 0) : Slots rt' := by
  have back : ∀ {i c'}, rt'.cellAt i = some c' → ∃ c, rt.cellAt i = some c ∧ SameName c c' := by
    intro i c' there
    obtain ⟨p, place, now⟩ := cellAt_eq_some.mp there
    obtain ⟨c, found, isAtom⟩ := slots.cells i p (places i p place)
    obtain ⟨d, present, same⟩ := cells i p c place found isAtom
    obtain rfl : d = c' := some.inj (present.symm.trans now)
    exact ⟨c, cellAt_eq_some.mpr ⟨p, places i p place, found⟩, same⟩
  refine ⟨?_, ?_, owner, ?_, ?_, ?_, ?_⟩
  · intro i p place
    obtain ⟨c, found, isAtom⟩ := slots.cells i p (places i p place)
    obtain ⟨c', now, same⟩ := cells i p c place found isAtom
    exact ⟨c', now, same.atomType ▸ isAtom⟩
  · intro i j p first second
    exact slots.inj i j p (places i p first) (places j p second)
  · intro nonempty
    obtain ⟨positive, kept⟩ := null nonempty
    obtain ⟨c, there, symbol⟩ := slots.nullAtom positive
    obtain ⟨p, place, found⟩ := cellAt_eq_some.mp there
    rw [← kept] at place
    obtain ⟨c', now, same⟩ := cells 0 p c place found (by rw [symbol]; decide)
    exact ⟨c', cellAt_eq_some.mpr ⟨p, place, now⟩, same.atomType.trans symbol⟩
  · intro i c' positive there symbol
    obtain ⟨c, old, same⟩ := back there
    rw [same.atomType] at symbol
    rw [same.index symbol]
    exact slots.symbolIndex i c positive old symbol
  · intro i c' there hashed
    obtain ⟨c, old, same⟩ := back there
    rw [same.atomType] at hashed
    rw [same.hash, same.atomType, same.contents hashed]
    exact slots.hashes i c old hashed
  · intro i j c' d' first second hashed types contents
    obtain ⟨c, oldC, sameC⟩ := back first
    obtain ⟨d, oldD, sameD⟩ := back second
    rw [sameC.atomType] at hashed types
    rw [sameD.atomType] at types
    rw [sameC.contents hashed, sameD.contents (types ▸ hashed)] at contents
    exact slots.distinct i j c d oldC oldD hashed types contents

structure SameAtom (c c' : Cell) : Prop where
  hash : c'.hash = c.hash
  atomType : c'.atomType = c.atomType
  hashNext : c'.hashNext = c.hashNext
  contents : c.atomType.hashed = true → c'.contents = c.contents

theorem SameAtom.refl (c : Cell) : SameAtom c c := ⟨rfl, rfl, rfl, fun _ => rfl⟩

section Recell

variable {cell : Ptr → Option Cell}

/-- The strings change, but every atom is there as before and there is no new one. -/
structure KeepsAtoms (rt : Runtime) (cell : Ptr → Option Cell) : Prop where
  kept : ∀ p c, rt.cell p = some c → c.atomType ≠ .none → ∃ c', cell p = some c' ∧ SameAtom c c'
  old : ∀ p c', cell p = some c' → c'.atomType ≠ .none →
    ∃ c, rt.cell p = some c ∧ c.atomType ≠ .none

theorem KeepsAtoms.forward (keeps : KeepsAtoms rt cell) (slots : Slots rt) (there : rt.cellAt i = some c) :
    ∃ c', ({ rt with cell := cell } : Runtime).cellAt i = some c' ∧ SameAtom c c' := by
  obtain ⟨p, place, found⟩ := cellAt_eq_some.mp there
  obtain ⟨d, present, isAtom⟩ := slots.cells i p place
  rw [found] at present
  cases present
  obtain ⟨c', now, same⟩ := keeps.kept p c found isAtom
  exact ⟨c', cellAt_eq_some.mpr ⟨p, place, now⟩, same⟩

theorem KeepsAtoms.backward (keeps : KeepsAtoms rt cell) (slots : Slots rt)
    (there : ({ rt with cell := cell } : Runtime).cellAt i = some c') : ∃ c, rt.cellAt i = some c ∧ SameAtom c c' := by
  obtain ⟨p, place, now⟩ := cellAt_eq_some.mp there
  obtain ⟨c, found, isAtom⟩ := slots.cells i p place
  obtain ⟨d, present, same⟩ := keeps.kept p c found isAtom
  have equal : d = c' := some.inj (present.symm.trans now)
  exact ⟨c, cellAt_eq_some.mpr ⟨p, place, found⟩, equal ▸ same⟩

theorem KeepsAtoms.slots (keeps : KeepsAtoms rt cell) (slots : Slots rt) : Slots { rt with cell := cell } := by
  refine slots.carry (fun _ _ place => place) ?_ ?_ (fun positive => ⟨positive, rfl⟩)
  · intro i p c _ found isAtom
    obtain ⟨c', now, same⟩ := keeps.kept p c found isAtom
    exact ⟨c', now, same.hash, same.atomType, same.contents, fun _ => same.hashNext⟩
  · intro p c' now isAtom
    obtain ⟨c, found, wasAtom⟩ := keeps.old p c' now isAtom
    exact slots.owner p c found wasAtom

theorem KeepsAtoms.table (keeps : KeepsAtoms rt cell) (table : Table rt) : Table { rt with cell := cell } := by
  refine ⟨keeps.slots table.slots, table.sized, ?_, table.free, table.counted⟩
  refine table.chains.congr ?_ ?_ (fun _ _ => rfl) ?_
  · intro i
    constructor
    · rintro ⟨c', there, hashed⟩
      obtain ⟨c, old, same⟩ := keeps.backward table.slots there
      exact ⟨c, old, same.atomType ▸ hashed⟩
    · rintro ⟨c, there, hashed⟩
      obtain ⟨c', now, same⟩ := keeps.forward table.slots there
      exact ⟨c', now, same.atomType.symm ▸ hashed⟩
  · rintro i ⟨c, there, -⟩
    obtain ⟨c', now, same⟩ := keeps.forward table.slots there
    simp [Runtime.nextOf, there, now, same.hashNext]
  · rintro i ⟨c, there, -⟩
    obtain ⟨c', now, same⟩ := keeps.forward table.slots there
    simp [Runtime.bucketAt, there, now, same.hash]

theorem keepsAtoms_setCell (found : rt.cell p = some c)
    (same : SameAtom c c') : KeepsAtoms rt (rt.setCell p c').cell := by
  constructor
  · intro q d present isAtom
    rcases eq_or_ne q p with rfl | equal
    · rw [found] at present
      cases present
      exact ⟨c', cell_setCell_self, same⟩
    · exact ⟨d, by simp [Runtime.setCell, update_of_ne equal, present], .refl d⟩
  · intro q d now isAtom
    rcases eq_or_ne q p with rfl | equal
    · rw [cell_setCell_self] at now
      cases now
      exact ⟨c, found, same.atomType ▸ isAtom⟩
    · simp only [Runtime.setCell, update_of_ne equal] at now
      exact ⟨d, now, isAtom⟩

theorem Table.setCell (table : Table rt) (found : rt.cell p = some c)
    (same : SameAtom c c') : Table (rt.setCell p c') :=
  (keepsAtoms_setCell found same).table table

theorem keepsAtoms_update {value : Option Cell} (before : ∀ c, rt.cell p = some c → c.atomType = .none)
    (after : ∀ c, value = some c → c.atomType = .none) : KeepsAtoms rt (update rt.cell p value) := by
  constructor
  · intro q d present isAtom
    have different : q ≠ p := by
      rintro rfl
      exact isAtom (before d present)
    exact ⟨d, by simp [update_of_ne different, present], .refl d⟩
  · intro q d now isAtom
    rcases eq_or_ne q p with rfl | equal
    · rw [update_self] at now
      exact absurd (after d now) isAtom
    · rw [update_of_ne equal] at now
      exact ⟨d, now, isAtom⟩

end Recell

end Atoms
