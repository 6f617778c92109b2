import Partikle.Atom.Free

/-!
Growing the array of slots: the new slots are linked in order, and the first array
also gets the null atom.
-/

namespace Atoms

open Strings HashChain List Option

structure Grown (mem : Memory) (rt rt' : Runtime) : Prop where
  cells : ∀ q c, rt.cell q = some c → rt'.cell q = some c
  back : ∀ q c, rt'.cell q = some c → rt.cell q = some c ∨ rt'.ptrAt 0 = some q
  slots : ∀ j, 0 < j → rt'.ptrAt j = rt.ptrAt j
  null : ∀ q, rt'.ptrAt 0 = some q → rt.ptrAt 0 = some q ∨
    rt.cell q = none ∧ mem.nullAtom = some q
  nullKept : ∀ q, rt.ptrAt 0 = some q → rt'.ptrAt 0 = some q

/-- Room for an atom, whether or not the array had to grow, and where new strings come from. -/
structure GrowthFits (mem : Memory) (rt : Runtime) : Prop where
  size : rt.atomFreeIndex = 0 → rt.atomSize * 3 < 2 ^ 31
  nullAtom : rt.atomSize = 0 → ∀ p, mem.nullAtom = some p → rt.cell p = none

theorem growSize_eq {n : Nat} (small : n * 3 < 2 ^ 31) : growSize n = max 211 (n * 3 / 2) := by
  have signed : (BitVec.ofNat 32 (n * 3)).toInt = ((n * 3 : Nat) : Int) := by
    rw [BitVec.toInt_ofNat', Int.bmod_eq_of_le] <;> omega
  unfold growSize
  rw [signed, Int.tdiv_eq_ediv_of_nonneg (Int.natCast_nonneg _)]
  omega

theorem lt_growSize {n : Nat} (small : n * 3 < 2 ^ 31) : n < growSize n := by
  rw [growSize_eq small]
  omega

theorem follows_freeFrom {rt : Runtime} {newSize start : Nat} (positive : 0 < start)
    (bound : start < newSize) (slots : ∀ j, start ≤ j → rt.atomArray j = freeFrom newSize j) :
    Follows rt.freeNext (link start) (range' start (newSize - start)) := by
  induction remaining : newSize - start generalizing start with
  | zero => omega
  | succ n ih =>
    refine ⟨link_of_ne positive.ne', ?_⟩
    rw [Runtime.freeNext, slots start le_rfl]
    simp only [freeFrom]
    by_cases last : start = newSize - 1
    · have empty : n = 0 := by omega
      subst empty
      simp [last, Follows]
    · rw [if_neg last]
      exact ih (by omega) (by omega) (fun j above => slots j (by omega)) (by omega)

section Grow

variable {rt : Runtime} {mem : Memory}

theorem ptrAt_of_size_zero (empty : rt.atomSize = 0) (j : Nat) : rt.ptrAt j = none := by
  simp [Runtime.ptrAt, empty]

def nullCell : Cell := ⟨1, ⟨false, []⟩, 0, 0, .symbol, 0⟩

def Runtime.firstArray (rt : Runtime) (newSize : Nat) (p : Ptr) : Runtime :=
  { rt.setCell p nullCell with
    atomArray := fun i => if i = 0 then .atom p else freeFrom newSize i
    atomCount := rt.atomCount + 1
    atomSize := newSize
    atomFreeIndex := 1 }

variable {newSize : Nat} {p : Ptr}

theorem ptrAt_firstArray (bound : 1 < newSize) (j : Nat) :
    (rt.firstArray newSize p).ptrAt j = if j = 0 then some p else none := by
  by_cases zero : j = 0
  · simp [Runtime.ptrAt, Runtime.firstArray, zero, Nat.lt_trans Nat.one_pos bound]
  · simp [Runtime.ptrAt, Runtime.firstArray, zero, freeFrom]

theorem table_firstArray (table : Table rt) (empty : rt.atomSize = 0)
    (bound : 1 < newSize) (fresh : rt.cell p = none) : Table (rt.firstArray newSize p) := by
  have places := @ptrAt_firstArray rt newSize p bound
  have self : (rt.firstArray newSize p).cell p = some nullCell := by
    simp [Runtime.firstArray, Runtime.setCell]
  have only : ∀ j q, (rt.firstArray newSize p).ptrAt j = some q → j = 0 ∧ q = p := by
    intro j q place
    rw [places] at place
    by_cases zero : j = 0
    · rw [if_pos zero] at place
      cases place
      exact ⟨zero, rfl⟩
    · simp [if_neg zero] at place
  have there : ∀ j c, (rt.firstArray newSize p).cellAt j = some c → j = 0 ∧ c = nullCell := by
    intro j c found
    obtain ⟨q, place, present⟩ := cellAt_eq_some.mp found
    obtain ⟨zero, rfl⟩ := only j q place
    exact ⟨zero, some.inj (present.symm.trans self)⟩
  have atZero : (rt.firstArray newSize p).cellAt 0 = some nullCell :=
    cellAt_eq_some.mpr ⟨p, by rw [places]; rfl, self⟩
  refine ⟨⟨?_, ?_, ?_, ?_, ?_, ?_, ?_⟩, table.sized, ?_, ?_, ?_⟩
  · intro j q place
    obtain ⟨-, rfl⟩ := only j q place
    exact ⟨nullCell, self, by decide⟩
  · intro j k q first second
    rw [(only j q first).1, (only k q second).1]
  · intro q c found isAtom
    by_cases same : q = p
    · exact ⟨0, by rw [places, same]; rfl⟩
    · simp only [Runtime.firstArray, Runtime.setCell, Function.update_of_ne same] at found
      obtain ⟨i, place⟩ := table.slots.owner q c found isAtom
      simp [ptrAt_of_size_zero empty] at place
  · intro _
    exact ⟨nullCell, atZero, rfl⟩
  · intro j c positive found _
    have zero := (there j c found).1
    omega
  · intro j c found hashed
    rw [(there j c found).2] at hashed
    simp [nullCell, AtomType.hashed] at hashed
  · intro j k c d first second _ _ _
    rw [(there j c first).1, (there k d second).1]
  · have noneOld : ∀ j, ¬rt.isHashed j := by
      rintro j ⟨c, found, -⟩
      obtain ⟨q, place, -⟩ := cellAt_eq_some.mp found
      simp [ptrAt_of_size_zero empty] at place
    refine table.chains.congr ?_ (fun j hashed => absurd hashed (noneOld j)) (fun _ _ => rfl)
      (fun j hashed => absurd hashed (noneOld j))
    intro j
    simp only [noneOld j, iff_false]
    rintro ⟨c, found, hashed⟩
    rw [(there j c found).2] at hashed
    simp [nullCell, AtomType.hashed] at hashed
  · refine ⟨range' 1 (newSize - 1), follows_freeFrom Nat.one_pos bound ?_, ?_⟩
    · intro j above
      have nonzero : j ≠ 0 := Nat.ne_of_gt above
      simp [Runtime.firstArray, nonzero]
    · intro j
      rw [mem_range'_1]
      by_cases zero : j = 0
      · simp [zero]
      · simp only [Runtime.isFree, Runtime.firstArray, zero, if_false, freeFrom, Slot.free.injEq,
          exists_eq', and_true]
        omega
  · have old : rt.atomCount = 0 := by simp [table.counted, Runtime.liveCount, empty]
    have live : (rt.firstArray newSize p).liveCount = (range newSize).countP (fun _ => false) + 1 := by
      refine countP_eq_succ nodup_range (mem_range.mpr (Nat.lt_trans Nat.one_pos bound)) ?_ rfl ?_
      · simp [places]
      · intro j other
        simp [places, other]
    rw [live]
    simp [Runtime.firstArray, old]

def Runtime.longerArray (rt : Runtime) (newSize : Nat) : Runtime :=
  { rt with
    atomArray := fun i => if i < rt.atomSize then rt.atomArray i else freeFrom newSize i
    atomSize := newSize
    atomFreeIndex := rt.atomSize }

theorem ptrAt_longerArray (bound : rt.atomSize < newSize) (j : Nat) :
    (rt.longerArray newSize).ptrAt j = rt.ptrAt j := by
  by_cases inside : j < rt.atomSize
  · simp [Runtime.ptrAt, Runtime.longerArray, inside, Nat.lt_trans inside bound]
  · simp [Runtime.ptrAt, Runtime.longerArray, inside, freeFrom]

theorem table_longerArray (table : Table rt) (nonempty : 0 < rt.atomSize)
    (bound : rt.atomSize < newSize) (full : rt.atomFreeIndex = 0) : Table (rt.longerArray newSize) := by
  have places := ptrAt_longerArray bound
  have cellAts : (rt.longerArray newSize).cellAt = rt.cellAt := by
    funext j
    rw [Runtime.cellAt, places]
    rfl
  have slots := table.slots
  have kept : Slots (rt.longerArray newSize) := by
    refine ⟨?_, ?_, ?_, fun _ => ?_, ?_, ?_, ?_⟩ <;> simp [places, cellAts]
    · exact slots.cells
    · exact slots.inj
    · exact slots.owner
    · exact slots.nullAtom nonempty
    · exact slots.symbolIndex
    · exact slots.hashes
    · exact slots.distinct
  refine ⟨kept, table.sized, ?_, ?_, ?_⟩
  · refine table.chains.congr ?_ ?_ (fun _ _ => rfl) ?_
    · intro j
      simp [Runtime.isHashed, cellAts]
    · intro j _
      simp [Runtime.nextOf, cellAts]
    · intro j _
      simp only [Runtime.bucketAt, cellAts]
      rfl
  · obtain ⟨old, follows, members⟩ := table.free
    have noneOld : old = [] := by
      cases old with
      | nil => rfl
      | cons first rest =>
        have start := follows.1
        simp [full] at start
    subst noneOld
    refine ⟨range' rt.atomSize (newSize - rt.atomSize), follows_freeFrom nonempty bound ?_, ?_⟩
    · intro j above
      have outside : ¬j < rt.atomSize := Nat.not_lt.mpr above
      simp [Runtime.longerArray, outside]
    · intro j
      have wasUsed := members j
      simp only [not_mem_nil, Runtime.isFree, false_iff, not_and] at wasUsed
      rw [mem_range'_1]
      by_cases inside : j < rt.atomSize
      · simp only [Runtime.isFree, Runtime.longerArray, inside, if_true]
        constructor
        · intro range
          omega
        · rintro ⟨positive, -, isFree⟩
          exact absurd isFree (wasUsed positive inside)
      · simp only [Runtime.isFree, Runtime.longerArray, inside, if_false, freeFrom, Slot.free.injEq,
          exists_eq', and_true]
        omega
  · obtain ⟨extra, rfl⟩ := Nat.exists_eq_add_of_lt bound
    have outside : ∀ j, ¬j < rt.atomSize → rt.ptrAt j = none := by
      intro j beyond
      simp [Runtime.ptrAt, beyond]
    have live : (rt.longerArray (rt.atomSize + extra + 1)).liveCount = rt.liveCount := by
      simp only [Runtime.liveCount, places]
      rw [Runtime.longerArray, Nat.add_assoc, range_add, countP_append]
      simp [outside]
    rw [live]
    exact table.counted

theorem growArray_spec {rt' : Runtime} (table : Table rt) (fits : GrowthFits mem rt)
    (grown : growArray mem rt = some rt') : Table rt' ∧ rt'.atomFreeIndex ≠ 0 ∧ Grown mem rt rt' := by
  unfold growArray at grown
  by_cases room : rt.atomFreeIndex ≠ 0
  · rw [if_pos room] at grown
    cases grown
    exact ⟨table, room, fun _ _ found => found, fun _ _ found => .inl found, fun _ _ => rfl,
      fun _ null => .inl null, fun _ null => null⟩
  · rw [if_neg room] at grown
    have full : rt.atomFreeIndex = 0 := not_not.mp room
    have bound := lt_growSize (fits.size full)
    by_cases fails : growSize rt.atomSize > JS_ATOM_MAX ∨ mem.grow = false
    · simp only [if_pos fails] at grown
      cases grown
    simp only [if_neg fails] at grown
    by_cases empty : rt.atomSize = 0
    · rw [if_pos empty] at grown
      cases block : mem.nullAtom with
      | none =>
        simp [block] at grown
      | some p =>
        have fresh := fits.nullAtom empty p block
        have large : 1 < growSize rt.atomSize := by
          rw [empty]
          decide
        rw [block] at grown
        obtain rfl : rt.firstArray (growSize rt.atomSize) p = rt' := some.inj grown
        refine ⟨table_firstArray table empty large fresh, Nat.one_ne_zero, ?_, ?_, ?_, ?_, ?_⟩
        · intro q c found
          have other : q ≠ p := by
            rintro rfl
            simp [fresh] at found
          simpa [Runtime.firstArray, Runtime.setCell, Function.update_of_ne other] using found
        · intro q c found
          by_cases same : q = p
          · rw [ptrAt_firstArray large, same]
            exact .inr rfl
          · simp only [Runtime.firstArray, Runtime.setCell, Function.update_of_ne same] at found
            exact .inl found
        · intro j positive
          rw [ptrAt_firstArray large, if_neg positive.ne', ptrAt_of_size_zero empty]
        · intro q null
          rw [ptrAt_firstArray large, if_pos rfl] at null
          cases null
          exact .inr ⟨fresh, block⟩
        · intro q null
          simp [ptrAt_of_size_zero empty] at null
    · rw [if_neg empty] at grown
      obtain rfl : rt.longerArray (growSize rt.atomSize) = rt' := some.inj grown
      exact ⟨table_longerArray table (Nat.pos_of_ne_zero empty) bound full, empty,
        fun _ _ found => found, fun _ _ found => .inl found, fun j _ => ptrAt_longerArray bound j,
        fun _ null => .inl ((ptrAt_longerArray bound 0).symm.trans null),
        fun _ null => (ptrAt_longerArray bound 0).trans null⟩

end Grow

end Atoms
