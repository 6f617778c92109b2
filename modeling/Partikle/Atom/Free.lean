import Partikle.Atom.Chains

/-!
Freeing an atom: it leaves its chain and its slot goes in front of the free list.
-/

namespace Atoms

open Strings HashChain Function List

theorem countP_eq_succ {l : List Nat} {f g : Nat → Bool} {i : Nat} (unique : l.Nodup) (member : i ∈ l)
    (old : f i = true) (new : g i = false) (others : ∀ j, j ≠ i → g j = f j) : l.countP f = l.countP g + 1 := by
  have split := perm_cons_erase member
  rw [split.countP_eq, split.countP_eq, countP_cons_of_pos old, countP_cons_of_neg (by simp [new])]
  congr 1
  refine countP_congr fun j inside => ?_
  rw [others j (unique.mem_erase_iff.mp inside).1]

structure Released (i : Nat) (p : Ptr) (rt rt' : Runtime) : Prop where
  gone : rt'.cell p = none
  core : ∀ q, q ≠ p → rt'.core q = rt.core q
  slot : rt'.ptrAt i = none
  slots : ∀ j, j ≠ i → rt'.ptrAt j = rt.ptrAt j
  atomSize : rt'.atomSize = rt.atomSize

variable {j : Nat} {c : Cell}

section Release

variable {rt rt' : Runtime} {i : Nat} {p : Ptr}

section Slot

variable (released : Released i p rt rt') (slots : Slots rt) (place : rt.ptrAt i = some p)

include released slots place

theorem Released.other {q : Ptr} (placeQ : rt'.ptrAt j = some q) : j ≠ i ∧ q ≠ p ∧ rt.ptrAt j = some q := by
  have other : j ≠ i := by
    rintro rfl
    simp [released.slot] at placeQ
  rw [released.slots j other] at placeQ
  refine ⟨other, ?_, placeQ⟩
  rintro rfl
  exact other (slots.inj j i q placeQ place)

theorem Released.cellAt (there : rt'.cellAt j = some c) : j ≠ i ∧ ∃ c0, rt.cellAt j = some c0 ∧ c.core = c0.core := by
  obtain ⟨q, placeQ, found⟩ := cellAt_eq_some.mp there
  obtain ⟨other, different, old⟩ := released.other slots place placeQ
  obtain ⟨c0, was, same⟩ := cell_eq_of_core (released.core q different) found
  exact ⟨other, c0, cellAt_eq_some.mpr ⟨q, old, was⟩, same⟩

theorem Released.kept (there : rt.cellAt j = some c) (other : j ≠ i) :
    ∃ c', rt'.cellAt j = some c' ∧ c'.core = c.core := by
  obtain ⟨q, placeQ, found⟩ := cellAt_eq_some.mp there
  rw [← released.slots j other] at placeQ
  obtain ⟨-, different, -⟩ := released.other slots place placeQ
  obtain ⟨c', now, same⟩ := cell_eq_of_core (released.core q different).symm found
  exact ⟨c', cellAt_eq_some.mpr ⟨q, placeQ, now⟩, same.symm⟩

theorem Released.keepsSlots (positive : 0 < i)
    (symbols : ∀ j, j ≠ i → ¬rt.isHashed j → rt'.nextOf j = rt.nextOf j) : Slots rt' := by
  apply slots.carry (fun j q placeQ => (released.other slots place placeQ).2.2)
  · intro j q c placeQ found _
    obtain ⟨other, different, old⟩ := released.other slots place placeQ
    obtain ⟨c', now, same⟩ := cell_eq_of_core (released.core q different).symm found
    refine ⟨c', now, .of_core same fun symbol => ?_⟩
    exact hashNext_of_symbol (cellAt_eq_some.mpr ⟨q, old, found⟩) (cellAt_eq_some.mpr ⟨q, placeQ, now⟩) symbol
      (symbols j other)
  · intro q c found isAtom
    have different : q ≠ p := by
      rintro rfl
      simp [released.gone] at found
    obtain ⟨c0, old, same⟩ := cell_eq_of_core (released.core q different) found
    obtain ⟨j, placeQ⟩ := slots.owner q c0 old (core_type same ▸ isAtom)
    have other : j ≠ i := by
      rintro rfl
      exact different (Option.some.inj (placeQ.symm.trans place))
    exact ⟨j, (released.slots j other).trans placeQ⟩
  · intro nonempty
    rw [released.atomSize] at nonempty
    exact ⟨nonempty, released.slots 0 (by omega)⟩

end Slot

theorem unlinkAtom_atom (table : Table rt) (positive : 0 < i) (place : rt.ptrAt i = some p)
    (found : rt.cell p = some c) : ∃ rt', unlinkAtom p c rt = some (i, rt') ∧ Unlinked i rt rt' := by
  have there : rt.cellAt i = some c := cellAt_eq_some.mpr ⟨p, place, found⟩
  by_cases symbol : c.atomType = .symbol
  · have index := table.slots.symbolIndex i c positive there symbol
    refine ⟨rt, by simp [unlinkAtom, symbol, index], rfl, fun _ => rfl, fun _ _ => rfl, ?_⟩
    refine table.chains.of_iff ?_
    intro j
    refine ⟨And.left, fun hashed => ⟨hashed, ?_⟩⟩
    rintro rfl
    obtain ⟨d, again, hashed⟩ := hashed
    rw [there] at again
    cases again
    exact ne_symbol_of_hashed hashed symbol
  · obtain ⟨d, again, isAtom⟩ := table.slots.cells i p place
    apply unlinkAtom_spec table place found
    cases type : c.atomType <;> simp_all [AtomType.hashed]

theorem released_freeSlot (unlinked : Unlinked i rt rt') : Released i p rt ((rt'.freeSlot i).freeCell p) := by
  have shape := unlinked.shape
  refine ⟨by simp [Runtime.freeCell], ?_, ?_, ?_, ?_⟩
  · intro q different
    rw [← unlinked.core q]
    simp [Runtime.core, Runtime.freeCell, Runtime.freeSlot, update_of_ne different]
  · simp [Runtime.ptrAt, Runtime.freeCell, Runtime.freeSlot]
  · intro j other
    rw [shape]
    simp [Runtime.ptrAt, Runtime.freeCell, Runtime.freeSlot, update_of_ne other]
  · rw [shape]
    rfl

theorem freeList_freeSlot (table : Table rt) (positive : 0 < i) (place : rt.ptrAt i = some p)
    (unlinked : Unlinked i rt rt') : FreeList ((rt'.freeSlot i).freeCell p) := by
  obtain ⟨inside, slot⟩ := ptrAt_eq_some.mp place
  obtain ⟨free, follows, members⟩ := table.free
  have shape := unlinked.shape
  have array : rt'.atomArray = rt.atomArray := by rw [shape]
  have index : rt'.atomFreeIndex = rt.atomFreeIndex := by rw [shape]
  have size : rt'.atomSize = rt.atomSize := by rw [shape]
  have outside : i ∉ free := by
    intro member
    obtain ⟨-, -, next, isFree⟩ := (members i).mp member
    simp [slot] at isFree
  refine ⟨i :: free, ⟨link_of_ne positive.ne', ?_⟩, ?_⟩
  · have next : ((rt'.freeSlot i).freeCell p).freeNext i = link rt.atomFreeIndex := by
      simp [Runtime.freeNext, Runtime.freeCell, Runtime.freeSlot, index]
    rw [next]
    apply follows.congr
    intro j member
    have other : j ≠ i := fun same => outside (same ▸ member)
    simp [Runtime.freeNext, Runtime.freeCell, Runtime.freeSlot, update_of_ne other, array]
  · intro j
    rw [mem_cons, members j]
    rcases eq_or_ne j i with rfl | same
    · simp [Runtime.isFree, Runtime.freeCell, Runtime.freeSlot, size, inside, positive]
    · simp [Runtime.isFree, Runtime.freeCell, Runtime.freeSlot, array, size, same]

theorem liveCount_released (released : Released i p rt rt') (place : rt.ptrAt i = some p) :
    rt.liveCount = rt'.liveCount + 1 := by
  unfold Runtime.liveCount
  rw [released.atomSize]
  apply countP_eq_succ nodup_range (mem_range.mpr (ptrAt_lt place))
  · simp [place]
  · simp [released.slot]
  · intro j other
    rw [released.slots j other]

theorem table_freeSlot (table : Table rt) (positive : 0 < i) (place : rt.ptrAt i = some p)
    (unlinked : Unlinked i rt rt') : Table ((rt'.freeSlot i).freeCell p) := by
  have released := @released_freeSlot rt rt' i p unlinked
  have shape := unlinked.shape
  have size : ((rt'.freeSlot i).freeCell p).atomHashSize = rt.atomHashSize := by rw [shape]; rfl
  -- the chain fields of the atoms that stay
  have links : ∀ j, j ≠ i → ((rt'.freeSlot i).freeCell p).nextOf j = rt'.nextOf j := by
    intro j other
    have ptr : ((rt'.freeSlot i).freeCell p).ptrAt j = rt'.ptrAt j := by
      simp [Runtime.ptrAt, Runtime.freeCell, Runtime.freeSlot, update_of_ne other]
    have old : rt'.ptrAt j = rt.ptrAt j := by rw [shape]; rfl
    simp only [Runtime.nextOf, Runtime.cellAt, ptr]
    cases placeQ : rt'.ptrAt j with
    | none => rfl
    | some q =>
      have different : q ≠ p := by
        rintro rfl
        exact other (table.slots.inj j i q (old.symm.trans placeQ) place)
      simp [Runtime.freeCell, Runtime.freeSlot, update_of_ne different]
  have hashed : ∀ j, ((rt'.freeSlot i).freeCell p).isHashed j ↔ rt.isHashed j ∧ j ≠ i := by
    intro j
    constructor
    · rintro ⟨c, there, isHashed⟩
      obtain ⟨other, c0, old, same⟩ := released.cellAt table.slots place there
      exact ⟨⟨c0, old, core_type same ▸ isHashed⟩, other⟩
    · rintro ⟨⟨c, there, isHashed⟩, other⟩
      obtain ⟨c', now, same⟩ := released.kept table.slots place there other
      exact ⟨c', now, core_type same ▸ isHashed⟩
  refine ⟨?_, by rw [size]; exact table.sized, ?_, freeList_freeSlot table positive place unlinked, ?_⟩
  · exact released.keepsSlots table.slots place positive fun j other unhashed =>
      (links j other).trans (unlinked.symbols j unhashed)
  · rw [size]
    apply unlinked.chains.congr hashed (fun j entry => links j entry.2) (fun _ _ => rfl)
    rintro j ⟨⟨c, there, -⟩, other⟩
    obtain ⟨c', now, same⟩ := released.kept table.slots place there other
    simp [Runtime.bucketAt, there, now, (core_fields same).2.2.2.1]
  · have count : ((rt'.freeSlot i).freeCell p).atomCount = rt.atomCount - 1 := by rw [shape]; rfl
    have live := liveCount_released released place
    have counted := table.counted
    omega

theorem jsFreeAtomStruct_spec (table : Table rt) (positive : 0 < i) (place : rt.ptrAt i = some p) :
    ∃ rt', jsFreeAtomStruct p rt = some rt' ∧ Table rt' ∧ Released i p rt rt' := by
  obtain ⟨c, found, -⟩ := table.slots.cells i p place
  obtain ⟨rt1, unlink, unlinked⟩ := unlinkAtom_atom table positive place found
  have after := table_freeSlot table positive place unlinked
  have nonneg : 0 ≤ ((rt1.freeSlot i).freeCell p).atomCount := by
    rw [after.counted]
    exact Int.natCast_nonneg _
  exact ⟨(rt1.freeSlot i).freeCell p, by simp [jsFreeAtomStruct, found, unlink, nonneg], after,
    released_freeSlot unlinked⟩

end Release

end Atoms
