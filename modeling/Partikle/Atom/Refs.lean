import Partikle.Atom.Grow
import Partikle.Atom.Install

/-!
Who refers to a string: the values and atoms the program holds, and the table itself
for the predefined atoms. The functions that take and release references keep the
counts and the table.
-/

namespace Atoms

open Strings HashChain Wrap List Option

def atomRefs (atoms : List Nat) (i : Nat) : Nat := if atomIsConst i then 1 else atoms.count i

def Counted (rt : Runtime) (values : List Ptr) (atoms : List Nat) (p : Ptr) : Prop :=
  ∀ c, rt.cell p = some c → (0 < c.refCount ∧ c.refCount < 2 ^ 31) ∧
    (c.atomType = .none → c.refCount = values.count p) ∧
    ∀ i, 0 < i → rt.ptrAt i = some p → c.refCount = values.count p + atomRefs atoms i

/-- The table while the program holds `values` and `atoms`. Nothing holds the string
of the null atom. -/
structure Holds (rt : Runtime) (values : List Ptr) (atoms : List Nat) : Prop where
  table : Table rt
  value : ∀ p ∈ values, rt.ptrAt 0 ≠ some p ∧ ∃ c, rt.cell p = some c
  atom : ∀ i ∈ atoms, 0 < i ∧ ∃ p, rt.ptrAt i = some p
  counted : ∀ p, rt.ptrAt 0 ≠ some p → Counted rt values atoms p

variable {i : Nat} {n : Int}

section Counts

variable {rt rt' : Runtime} {values values' : List Ptr} {atoms atoms' : List Nat} {p : Ptr} {c : Cell}

theorem atomRefs_congr (same : atoms'.count i = atoms.count i) : atomRefs atoms' i = atomRefs atoms i := by
  unfold atomRefs
  rw [same]

theorem Holds.perm (holds : Holds rt values atoms) (perm : values.Perm values')
    (permAtoms : atoms.Perm atoms') : Holds rt values' atoms' := by
  refine ⟨holds.table, ?_, ?_, ?_⟩
  · intro q member
    exact holds.value q (perm.mem_iff.mpr member)
  · intro i member
    exact holds.atom i (permAtoms.mem_iff.mpr member)
  · intro q held d found
    obtain ⟨positive, plain, named⟩ := holds.counted q held d found
    rw [perm.count_eq] at plain
    refine ⟨positive, plain, ?_⟩
    intro i above place
    rw [atomRefs_congr (permAtoms.count_eq i).symm, ← perm.count_eq]
    exact named i above place

theorem Counted.congr (counted : Counted rt values atoms p) (core : rt'.core p = rt.core p)
    (slots : ∀ i, rt'.ptrAt i = some p → rt.ptrAt i = some p) (count : values'.count p = values.count p)
    (countAtoms : ∀ i, rt.ptrAt i = some p → atoms'.count i = atoms.count i) : Counted rt' values' atoms' p := by
  intro d found
  obtain ⟨c, old, same⟩ := cell_eq_of_core core found
  obtain ⟨sameCount, -, -, -, sameType⟩ := core_fields same
  obtain ⟨positive, plain, named⟩ := counted c old
  rw [sameCount, sameType, count]
  refine ⟨positive, plain, ?_⟩
  intro i above place
  have place := slots i place
  rw [atomRefs_congr (countAtoms i place)]
  exact named i above place

theorem Slots.place_of (slots : Slots rt) (held : rt.ptrAt 0 ≠ some p) (found : rt.cell p = some c) :
    c.atomType = .none ∨ ∃ i, 0 < i ∧ rt.ptrAt i = some p := by
  by_cases plain : c.atomType = .none
  · exact .inl plain
  · obtain ⟨i, place⟩ := slots.owner p c found plain
    refine .inr ⟨i, Nat.pos_of_ne_zero ?_, place⟩
    rintro rfl
    exact held place

theorem mem_of_count_eq {l l' : List Nat} {a : Nat} (same : l'.count a = l.count a) (member : a ∈ l') : a ∈ l := by
  rw [← count_pos_iff, ← same]
  exact count_pos_iff.mpr member

section

variable (holds : Holds rt values atoms)

include holds

/-- Whatever happens to `p`, the other strings keep their cells, their slots and their holders. -/
theorem Holds.change (table : Table rt') (core : ∀ q, q ≠ p → rt'.core q = rt.core q)
    (slots : ∀ j q, q ≠ p → (rt'.ptrAt j = some q ↔ rt.ptrAt j = some q))
    (others : ∀ q, q ≠ p → values'.count q = values.count q)
    (otherAtoms : ∀ j, rt.ptrAt j ≠ some p → rt'.ptrAt j ≠ some p → atoms'.count j = atoms.count j)
    (kept : ∀ j ∈ atoms', rt.ptrAt j = some p → rt'.ptrAt j = some p) (held : rt'.ptrAt 0 ≠ some p)
    (value : p ∈ values' → ∃ c, rt'.cell p = some c) (counted : Counted rt' values' atoms' p) :
    Holds rt' values' atoms' := by
  refine ⟨table, ?_, ?_, ?_⟩
  · intro q member
    rcases eq_or_ne q p with rfl | same
    · exact ⟨held, value member⟩
    · obtain ⟨heldQ, d, found⟩ := holds.value q (mem_of_count_eq (others q same) member)
      obtain ⟨d', now, -⟩ := cell_eq_of_core (core q same).symm found
      exact ⟨fun place => heldQ ((slots 0 q same).mp place), d', now⟩
  · intro j member
    by_cases here : rt'.ptrAt j = some p
    · refine ⟨Nat.pos_of_ne_zero ?_, p, here⟩
      rintro rfl
      exact held here
    · have elsewhere : rt.ptrAt j ≠ some p := fun old => here (kept j member old)
      obtain ⟨positive, q, place⟩ := holds.atom j (mem_of_count_eq (otherAtoms j elsewhere here) member)
      have other : q ≠ p := fun same => elsewhere (same ▸ place)
      exact ⟨positive, q, (slots j q other).mpr place⟩
  · intro q heldQ
    rcases eq_or_ne q p with rfl | same
    · exact counted
    · refine (holds.counted q fun old => heldQ ((slots 0 q same).mpr old)).congr (core q same)
        (fun j => (slots j q same).mp) (others q same) ?_
      intro j place
      have now := (slots j q same).mpr place
      exact otherAtoms j (fun again => same (some.inj (place.symm.trans again)))
        fun again => same (some.inj (now.symm.trans again))

theorem Holds.setCount (found : rt.cell p = some c) (held : rt.ptrAt 0 ≠ some p)
    (bounds : 0 < n ∧ n < 2 ^ 31) (others : ∀ q, q ≠ p → values'.count q = values.count q)
    (otherAtoms : ∀ j, rt.ptrAt j ≠ some p → atoms'.count j = atoms.count j)
    (plain : c.atomType = .none → n = values'.count p)
    (named : ∀ i, 0 < i → rt.ptrAt i = some p → n = values'.count p + atomRefs atoms' i) :
    Holds (rt.setCell p { c with refCount := n }) values' atoms' := by
  refine holds.change (holds.table.setCell found ⟨rfl, rfl, rfl, fun _ => rfl⟩) (fun _ => core_setCell_of_ne)
    (fun _ _ _ => .rfl) others (fun j elsewhere _ => otherAtoms j elsewhere) (fun _ _ place => place) held
    (fun _ => ⟨_, cell_setCell_self⟩) ?_
  intro d present
  rw [cell_setCell_self] at present
  cases present
  exact ⟨bounds, plain, named⟩

theorem Holds.setAtomCount (above : 0 < i) (place : rt.ptrAt i = some p) (found : rt.cell p = some c)
    (bounds : 0 < n ∧ n < 2 ^ 31) (others : ∀ q, q ≠ p → values'.count q = values.count q)
    (otherAtoms : ∀ j, j ≠ i → atoms'.count j = atoms.count j) (count : n = values'.count p + atomRefs atoms' i) :
    Holds (rt.setCell p { c with refCount := n }) values' atoms' := by
  have slots := holds.table.slots
  obtain ⟨d, present, isAtom⟩ := slots.cells i p place
  obtain rfl : d = c := some.inj (present.symm.trans found)
  refine holds.setCount found (slots.held above place) bounds others ?_ (fun plain => absurd plain isAtom) ?_
  · exact fun j elsewhere => otherAtoms j fun same => elsewhere (same ▸ place)
  · intro j _ placeJ
    rwa [slots.inj j i p placeJ place]

theorem Holds.recountAtom (above : 0 < i) (place : rt.ptrAt i = some p) (found : rt.cell p = some c)
    (others : ∀ q, q ≠ p → values'.count q = values.count q) (otherAtoms : ∀ j, j ≠ i → atoms'.count j = atoms.count j)
    (count : c.refCount = values'.count p + atomRefs atoms' i) : Holds rt values' atoms' := by
  have bounds := (holds.counted p (holds.table.slots.held above place) c found).1
  have unchanged : rt.setCell p { c with refCount := c.refCount } = rt := by simp [Runtime.setCell, ← found]
  rw [← unchanged]
  exact holds.setAtomCount above place found bounds others otherAtoms count

theorem Holds.count_lt (room : values.length + atoms.length + 2 < 2 ^ 31) (found : rt.cell p = some c)
    (held : rt.ptrAt 0 ≠ some p) : c.refCount + 1 < 2 ^ 31 := by
  obtain ⟨-, plain, named⟩ := holds.counted p held c found
  have below : values.count p ≤ values.length := count_le_length
  rcases holds.table.slots.place_of held found with isPlain | ⟨i, above, place⟩
  · have count := plain isPlain
    omega
  · have count := named i above place
    have atomsBelow : atoms.count i ≤ atoms.length := count_le_length
    unfold atomRefs at count
    split at count <;> omega

theorem jsDupString_eq (room : values.length + atoms.length + 2 < 2 ^ 31) (found : rt.cell p = some c)
    (held : rt.ptrAt 0 ≠ some p) :
    jsDupString p rt = some (rt.setCell p { c with refCount := c.refCount + 1 }) := by
  have bounds := (holds.counted p held c found).1
  have below := holds.count_lt room found held
  simp [jsDupString, found, int32_of_small (n := c.refCount + 1) (by omega) below]

theorem jsDupString_spec (room : values.length + atoms.length + 2 < 2 ^ 31) (found : rt.cell p = some c)
    (held : rt.ptrAt 0 ≠ some p) :
    ∃ rt', jsDupString p rt = some rt' ∧ Holds rt' (p :: values) atoms := by
  obtain ⟨bounds, plain, named⟩ := holds.counted p held c found
  have below := holds.count_lt room found held
  refine ⟨_, jsDupString_eq holds room found held, ?_⟩
  refine holds.setCount found held (by omega) ?_ (fun _ _ => rfl) ?_ ?_
  · intro q other
    simp [other.symm]
  · intro isPlain
    have old := plain isPlain
    simp only [count_cons_self]
    omega
  · intro i above place
    have old := named i above place
    simp only [count_cons_self]
    omega

theorem jsDupAtom_spec (room : values.length + atoms.length + 2 < 2 ^ 31) (positive : 0 < i)
    (place : rt.ptrAt i = some p) :
    ∃ rt', jsDupAtom i rt = some rt' ∧ Holds rt' values (i :: atoms) := by
  obtain ⟨c, found, -⟩ := holds.table.slots.cells i p place
  have others : ∀ j, j ≠ i → (i :: atoms).count j = atoms.count j := fun j other => by simp [other.symm]
  obtain ⟨counted, -, named⟩ := holds.counted p (holds.table.slots.held positive place) c found
  have count := named i positive place
  by_cases const : atomIsConst i = true
  · refine ⟨rt, by simp [jsDupAtom, const], ?_⟩
    apply holds.recountAtom positive place found (fun _ _ => rfl) others
    simpa [atomRefs, const] using count
  · have below := holds.count_lt room found (holds.table.slots.held positive place)
    refine ⟨rt.setCell p { c with refCount := c.refCount + 1 }, ?_, ?_⟩
    · simp [jsDupAtom, const, place, found, int32_of_small (n := c.refCount + 1) (by omega) below]
    apply holds.setAtomCount positive place found (by omega) (fun _ _ => rfl) others
    simp only [atomRefs, const, Bool.false_eq_true, if_false, count_cons_self] at count ⊢
    omega

theorem Holds.release (table : Table rt') (released : Released i p rt rt')
    (place : rt.ptrAt i = some p) (positive : 0 < i) (valueGone : values'.count p = 0) (atomGone : atoms'.count i = 0)
    (others : ∀ q, q ≠ p → values'.count q = values.count q)
    (otherAtoms : ∀ j, j ≠ i → atoms'.count j = atoms.count j) : Holds rt' values' atoms' := by
  have slots := holds.table.slots
  have there {j : Nat} {q : Ptr} := @Released.other j rt rt' i p released slots place q
  refine holds.change table released.core ?_ others ?_ ?_ (fun null => (there null).2.1 rfl) ?_ ?_
  · intro j q other
    refine ⟨fun placeQ => (there placeQ).2.2, fun placeQ => ?_⟩
    rw [released.slots j]
    · exact placeQ
    · rintro rfl
      exact other (some.inj (placeQ.symm.trans place))
  · intro j elsewhere _
    exact otherAtoms j fun same => elsewhere (same ▸ place)
  · intro j member placeJ
    obtain rfl := slots.inj j i p placeJ place
    exact absurd member (count_eq_zero.mp atomGone)
  · intro member
    exact absurd member (count_eq_zero.mp valueGone)
  · intro d present
    simp [released.gone] at present

/-- A plain string that nothing else holds is simply freed. -/
theorem Holds.freeCell (found : rt.cell p = some c) (plain : c.atomType = .none) (gone : values'.count p = 0)
    (others : ∀ q, q ≠ p → values'.count q = values.count q) : Holds (rt.freeCell p) values' atoms := by
  have notSlot : ∀ j, rt.ptrAt j ≠ some p := holds.table.slots.ptrAt_ne found plain
  have keeps : KeepsAtoms rt (Function.update rt.cell p none) := keepsAtoms_update (by simp [found, plain]) nofun
  refine holds.change (keeps.table holds.table) ?_ (fun _ _ _ => .rfl) others (fun _ _ _ => rfl)
    (fun _ _ place => place) (notSlot 0) (fun member => absurd member (count_eq_zero.mp gone)) ?_
  · intro q other
    simp [Runtime.core, Runtime.freeCell, Function.update_of_ne other]
  · intro d present
    simp [Runtime.freeCell] at present

end

structure Freed (p : Ptr) (rt rt' : Runtime) : Prop where
  core : ∀ q, q ≠ p → rt'.core q = rt.core q
  self : ∀ d, rt'.cell p = some d → ∃ d0, rt.cell p = some d0 ∧ d.contents = d0.contents ∧
    d.atomType = d0.atomType
  slots : ∀ j q, rt'.ptrAt j = some q → rt.ptrAt j = some q
  atomSize : rt'.atomSize = rt.atomSize

theorem jsFreeString_spec (holds : Holds rt (p :: values) atoms) :
    ∃ rt', jsFreeString p rt = some rt' ∧ Holds rt' values atoms ∧ Freed p rt rt' := by
  obtain ⟨held, c, found⟩ := holds.value p mem_cons_self
  obtain ⟨bounds, plain, named⟩ := holds.counted p held c found
  have lowered := int32_of_small (n := c.refCount - 1) (by omega) (by omega)
  have others : ∀ q, q ≠ p → values.count q = (p :: values).count q := fun q other => by simp [other.symm]
  let lower := rt.setCell p { c with refCount := c.refCount - 1 }
  have lowerCore : ∀ q, q ≠ p → lower.core q = rt.core q := fun _ => core_setCell_of_ne
  by_cases last : c.refCount - 1 ≤ 0
  · by_cases isPlain : c.atomType = .none
    · have count := plain isPlain
      simp only [count_cons_self] at count
      have freed : lower.freeCell p = rt.freeCell p := by simp [lower, Runtime.freeCell, Runtime.setCell]
      refine ⟨lower.freeCell p, ?_, ?_, ?_, ?_, fun _ _ place => place, rfl⟩
      · simp only [jsFreeString, found, bind_eq_bind, bind_some, lowered]
        rw [if_pos last, if_pos isPlain]
      · rw [freed]
        exact holds.freeCell found isPlain (by omega) others
      · intro q other
        rw [← lowerCore q other]
        simp [Runtime.core, Runtime.freeCell, Function.update_of_ne other]
      · intro d present
        simp [Runtime.freeCell] at present
    · obtain ⟨i, above, place⟩ := (holds.table.slots.place_of held found).resolve_left isPlain
      have count := named i above place
      simp only [count_cons_self] at count
      have table : Table lower := holds.table.setCell found ⟨rfl, rfl, rfl, fun _ => rfl⟩
      obtain ⟨rt', freed, after, released⟩ := jsFreeAtomStruct_spec table above place
      have fromOld : Released i p rt rt' :=
        { released with core := fun q other => (released.core q other).trans (lowerCore q other) }
      refine ⟨rt', ?_, ?_, ?_⟩
      · simp only [jsFreeString, found, bind_eq_bind, bind_some, lowered]
        rwa [if_pos last, if_neg isPlain]
      · refine holds.release after fromOld place above (by omega) ?_ others (fun _ _ => rfl)
        unfold atomRefs at count
        split at count <;> omega
      · refine ⟨fromOld.core, ?_, ?_, fromOld.atomSize⟩
        · intro d present
          simp [fromOld.gone] at present
        · intro j q placeQ
          exact (fromOld.other holds.table.slots place placeQ).2.2
  · refine ⟨lower, ?_, ?_, lowerCore, ?_, fun _ _ place => place, rfl⟩
    · simp only [jsFreeString, found, bind_eq_bind, bind_some, lowered]
      exact if_neg last
    · apply holds.setCount found held (by omega) others (fun _ _ => rfl)
      · intro isPlain
        have count := plain isPlain
        simp only [count_cons_self] at count
        omega
      · intro i above place
        have count := named i above place
        simp only [count_cons_self] at count
        omega
    · intro d present
      rw [cell_setCell_self] at present
      cases present
      exact ⟨c, found, rfl, rfl⟩

theorem jsFreeAtom_spec (holds : Holds rt values (i :: atoms)) :
    ∃ rt', jsFreeAtom i rt = some rt' ∧ Holds rt' values atoms := by
  obtain ⟨positive, p, place⟩ := holds.atom i mem_cons_self
  obtain ⟨c, found, -⟩ := holds.table.slots.cells i p place
  have others : ∀ j, j ≠ i → atoms.count j = (i :: atoms).count j := fun j other => by simp [other.symm]
  obtain ⟨counted, -, named⟩ := holds.counted p (holds.table.slots.held positive place) c found
  have count := named i positive place
  by_cases const : atomIsConst i = true
  · refine ⟨rt, by simp [jsFreeAtom, const], ?_⟩
    apply holds.recountAtom positive place found (fun _ _ => rfl) others
    simpa [atomRefs, const] using count
  simp only [atomRefs, const, Bool.false_eq_true, if_false, count_cons_self] at count
  have lowered := int32_of_small (n := c.refCount - 1) (by omega) (by omega)
  by_cases more : c.refCount - 1 > 0
  · refine ⟨rt.setCell p { c with refCount := c.refCount - 1 }, ?_, ?_⟩
    · simp only [jsFreeAtom, const, Bool.false_eq_true, if_false, place, found, bind_eq_bind, bind_some, lowered,
        more, if_true]
    · apply holds.setAtomCount positive place found (by omega) (fun _ _ => rfl) others
      simp only [atomRefs, const, Bool.false_eq_true, if_false]
      omega
  · have table : Table (rt.setCell p { c with refCount := c.refCount - 1 }) :=
      holds.table.setCell found ⟨rfl, rfl, rfl, fun _ => rfl⟩
    obtain ⟨rt', freed, after, released⟩ := jsFreeAtomStruct_spec table positive place
    refine ⟨rt', ?_, ?_⟩
    · simp only [jsFreeAtom, const, Bool.false_eq_true, if_false, place, found, bind_eq_bind, bind_some, lowered, more]
      exact freed
    · refine holds.release after ⟨released.gone, ?_, released.slot, released.slots,
        released.atomSize⟩ place positive (by omega) (by omega) (fun _ _ => rfl) others
      intro q other
      rw [released.core q other, core_setCell_of_ne other]

end Counts

end Atoms
