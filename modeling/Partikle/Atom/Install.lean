import Partikle.Atom.Free

/-!
Making an atom of a string: it takes the first free slot and, unless it is a symbol,
goes in front of its chain.
-/

namespace Atoms

open Strings HashChain Function Option List

structure Installed (i : Nat) (p : Ptr) (c : Cell) (type : AtomType) (rt rt' : Runtime) : Prop where
  positive : 0 < i
  vacant : rt.ptrAt i = none
  slot : rt'.ptrAt i = some p
  slots : ∀ j, j ≠ i → rt'.ptrAt j = rt.ptrAt j
  core : ∀ q, q ≠ p → rt'.core q = rt.core q
  cell : ∃ c', rt'.cell p = some c' ∧ c'.refCount = c.refCount ∧ c'.contents = c.contents ∧
    c'.atomType = type

/-- No atom of this type has these contents. -/
def Runtime.Unnamed (rt : Runtime) (type : AtomType) (contents : JsString) : Prop :=
  type.hashed = true → ∀ j d, rt.cellAt j = some d → d.atomType = type → d.contents.units ≠ contents.units

def Runtime.place (rt : Runtime) (i next : Nat) (p : Ptr) (c : Cell) (heads : Nat → Nat) : Runtime :=
  { rt.fillSlot i next p with cell := update rt.cell p (some c), atomHash := heads }

variable {j : Nat} {type : AtomType}

section Place

variable {rt : Runtime} {i next : Nat} {p : Ptr} {c c' : Cell} {heads : Nat → Nat}

theorem ptrAt_place_self (inside : i < rt.atomSize) : (rt.place i next p c' heads).ptrAt i = some p := by
  simp [Runtime.ptrAt, Runtime.place, Runtime.fillSlot, inside]

theorem ptrAt_place_of_ne (other : j ≠ i) : (rt.place i next p c' heads).ptrAt j = rt.ptrAt j := by
  simp [Runtime.ptrAt, Runtime.place, Runtime.fillSlot, update_of_ne other]

theorem cell_place_self : (rt.place i next p c' heads).cell p = some c' := by simp [Runtime.place]

theorem cell_place_of_ne {q : Ptr} (other : q ≠ p) : (rt.place i next p c' heads).cell q = rt.cell q := by
  simp [Runtime.place, update_of_ne other]

theorem Slots.ptrAt_ne (slots : Slots rt) (found : rt.cell p = some c) (plain : c.atomType = .none)
    (j : Nat) : rt.ptrAt j ≠ some p := by
  intro place
  obtain ⟨d, present, isAtom⟩ := slots.cells j p place
  rw [found] at present
  cases present
  exact isAtom plain

theorem not_isHashed_of_vacant (vacant : rt.ptrAt i = none) : ¬rt.isHashed i := by
  rintro ⟨d, there, -⟩
  obtain ⟨q, place, -⟩ := cellAt_eq_some.mp there
  simp [vacant] at place

theorem cellAt_place_self (inside : i < rt.atomSize) : (rt.place i next p c' heads).cellAt i = some c' :=
  cellAt_eq_some.mpr ⟨p, ptrAt_place_self inside, cell_place_self⟩

theorem cellAt_place_of_ne (slots : Slots rt) (found : rt.cell p = some c) (plain : c.atomType = .none)
    (other : j ≠ i) : (rt.place i next p c' heads).cellAt j = rt.cellAt j := by
  simp only [Runtime.cellAt, ptrAt_place_of_ne other]
  cases place : rt.ptrAt j with
  | none => rfl
  | some q =>
    have different : q ≠ p := fun same => slots.ptrAt_ne found plain j (same ▸ place)
    exact cell_place_of_ne different

theorem slots_place (slots : Slots rt) (found : rt.cell p = some c) (plain : c.atomType = .none) (positive : 0 < i)
    (inside : i < rt.atomSize) (isAtom : c'.atomType ≠ .none) (vacant : rt.ptrAt i = none)
    (index : c'.atomType = .symbol → c'.hashNext = i)
    (hash : c'.atomType.hashed = true → c'.hash = atomHashOf c'.atomType c'.contents)
    (fresh : rt.Unnamed c'.atomType c'.contents) : Slots (rt.place i next p c' heads) := by
  have self := @cellAt_place_self rt i next p c' heads inside
  have others : ∀ j, j ≠ i → (rt.place i next p c' heads).cellAt j = rt.cellAt j :=
    fun j other => cellAt_place_of_ne slots found plain other
  have cellInv : ∀ {j d}, (rt.place i next p c' heads).cellAt j = some d → j = i ∧ d = c' ∨ rt.cellAt j = some d := by
    intro j d there
    rcases eq_or_ne j i with rfl | same
    · exact .inl ⟨rfl, some.inj (there.symm.trans self)⟩
    · exact .inr ((others j same).symm.trans there)
  have ptrInv : ∀ {j q}, (rt.place i next p c' heads).ptrAt j = some q →
      j = i ∧ q = p ∨ q ≠ p ∧ rt.ptrAt j = some q := by
    intro j q place
    rcases eq_or_ne j i with rfl | same
    · exact .inl ⟨rfl, some.inj (place.symm.trans (ptrAt_place_self inside))⟩
    · rw [ptrAt_place_of_ne same] at place
      exact .inr ⟨fun equal => slots.ptrAt_ne found plain j (equal ▸ place), place⟩
  refine ⟨?_, ?_, ?_, ?_, ?_, ?_, ?_⟩
  · intro j q place
    rcases ptrInv place with ⟨rfl, rfl⟩ | ⟨different, place⟩
    · exact ⟨c', cell_place_self, isAtom⟩
    · rw [cell_place_of_ne different]
      exact slots.cells j q place
  · intro j k q first second
    rcases ptrInv first with ⟨rfl, rfl⟩ | ⟨different, first⟩
    · rcases ptrInv second with ⟨same, -⟩ | ⟨different, -⟩
      · exact same.symm
      · exact absurd rfl different
    · rcases ptrInv second with ⟨-, same⟩ | ⟨-, second⟩
      · exact absurd same different
      · exact slots.inj j k q first second
  · intro q d present atom
    by_cases same : q = p
    · exact ⟨i, by rw [same]; exact ptrAt_place_self inside⟩
    · rw [cell_place_of_ne same] at present
      obtain ⟨j, place⟩ := slots.owner q d present atom
      have other : j ≠ i := by
        rintro rfl
        simp [vacant] at place
      exact ⟨j, (ptrAt_place_of_ne other).trans place⟩
  · intro nonempty
    rw [others 0 (by omega)]
    exact slots.nullAtom nonempty
  · intro j d above there symbol
    rcases cellInv there with ⟨rfl, rfl⟩ | there
    · exact index symbol
    · exact slots.symbolIndex j d above there symbol
  · intro j d there hashed
    rcases cellInv there with ⟨rfl, rfl⟩ | there
    · exact hash hashed
    · exact slots.hashes j d there hashed
  · intro j k d e first second hashed types contents
    rcases cellInv first with ⟨rfl, rfl⟩ | one
    · rcases cellInv second with ⟨same, -⟩ | two
      · exact same.symm
      · exact absurd contents.symm (fresh hashed k e two types.symm)
    · rcases cellInv second with ⟨rfl, rfl⟩ | two
      · exact absurd contents (fresh (types ▸ hashed) j d one types)
      · exact slots.distinct j k d e one two hashed types contents

theorem freeList_place (free : FreeList rt) (slot : rt.atomArray i = .free next)
    (head : rt.atomFreeIndex = i) (positive : 0 < i) : FreeList (rt.place i next p c' heads) := by
  obtain ⟨nodes, follows, members⟩ := free
  cases nodes with
  | nil =>
    have zero := link_eq_none.mp follows
    omega
  | cons first rest =>
    have unique := follows.nodup
    obtain ⟨start, behind⟩ := follows
    obtain ⟨rfl, -⟩ := link_eq_some.mp start
    subst head
    have outside := (nodup_cons.mp unique).1
    have step : rt.freeNext rt.atomFreeIndex = link next := by simp [Runtime.freeNext, slot]
    rw [step] at behind
    refine ⟨rest, ?_, ?_⟩
    · apply behind.congr
      intro j member
      have other : j ≠ rt.atomFreeIndex := fun same => outside (same ▸ member)
      simp [Runtime.freeNext, Runtime.place, Runtime.fillSlot, update_of_ne other]
    · intro j
      rcases eq_or_ne j rt.atomFreeIndex with rfl | same
      · simp [outside, Runtime.isFree, Runtime.place, Runtime.fillSlot]
      · have old := members j
        rw [mem_cons] at old
        simp only [same, false_or] at old
        rw [old]
        simp [Runtime.isFree, Runtime.place, Runtime.fillSlot, update_of_ne same]

theorem liveCount_place (inside : i < rt.atomSize) (vacant : rt.ptrAt i = none) :
    (rt.place i next p c' heads).liveCount = rt.liveCount + 1 := by
  apply countP_eq_succ nodup_range (mem_range.mpr inside)
  · simp [ptrAt_place_self inside]
  · simp [vacant]
  · intro j other
    rw [ptrAt_place_of_ne other]

theorem chains_place (table : Table rt) (found : rt.cell p = some c) (plain : c.atomType = .none)
    (inside : i < rt.atomSize) (positive : 0 < i) (vacant : rt.ptrAt i = none) (hashed : c'.atomType.hashed = true)
    (next' : c'.hashNext = rt.atomHash (bucketIn rt.atomHashSize c'.hash))
    (front : heads = update rt.atomHash (bucketIn rt.atomHashSize c'.hash) i) :
    IsTable (rt.place i next p c' heads).nextOf (rt.place i next p c' heads).headOf rt.atomHashSize
      ((rt.place i next p c' heads).bucketAt rt.atomHashSize) (rt.place i next p c' heads).isHashed := by
  have self := @cellAt_place_self rt i next p c' heads inside
  have fresh := not_isHashed_of_vacant vacant
  have others : ∀ j, rt.isHashed j → (rt.place i next p c' heads).cellAt j = rt.cellAt j :=
    fun j isHashed => cellAt_place_of_ne table.slots found plain fun same => fresh (same ▸ isHashed)
  have bucket := bucketAt_eq rt.atomHashSize self
  have old : IsTable rt.nextOf rt.headOf rt.atomHashSize
      ((rt.place i next p c' heads).bucketAt rt.atomHashSize) rt.isHashed := by
    apply table.chains.congr (fun _ => Iff.rfl) (fun _ _ => rfl) (fun _ _ => rfl)
    intro j isHashed
    simp [Runtime.bucketAt, others j isHashed]
  have pushed : IsTable (rt.place i next p c' heads).nextOf (rt.place i next p c' heads).headOf
      rt.atomHashSize ((rt.place i next p c' heads).bucketAt rt.atomHashSize)
      fun j => rt.isHashed j ∨ j = i := by
    apply old.push fresh
    · rw [bucket]
      exact bucketIn_lt table.positive _
    · rw [bucket, nextOf_eq self, next']
      rfl
    · intro j isHashed
      simp [Runtime.nextOf, others j isHashed]
    · intro b _
      rw [bucket, Runtime.headOf, Runtime.place, front]
      by_cases own : b = bucketIn rt.atomHashSize c'.hash
      · simp [own, link_of_ne positive.ne']
      · simp [own, Runtime.headOf]
  refine pushed.of_iff ?_
  intro j
  rcases eq_or_ne j i with rfl | same
  · simp only [fresh, false_or, iff_true]
    exact ⟨c', self, hashed⟩
  · simp [Runtime.isHashed, cellAt_place_of_ne table.slots found plain same, same]

theorem chains_place_symbol (table : Table rt) (found : rt.cell p = some c) (plain : c.atomType = .none)
    (inside : i < rt.atomSize) (vacant : rt.ptrAt i = none) (unhashed : c'.atomType.hashed = false) :
    IsTable (rt.place i next p c' rt.atomHash).nextOf (rt.place i next p c' rt.atomHash).headOf rt.atomHashSize
      ((rt.place i next p c' rt.atomHash).bucketAt rt.atomHashSize)
      (rt.place i next p c' rt.atomHash).isHashed := by
  have self := @cellAt_place_self rt i next p c' rt.atomHash inside
  have never := not_isHashed_of_vacant vacant
  have fresh : ∀ j, rt.isHashed j → j ≠ i := fun j isHashed same => never (same ▸ isHashed)
  have others : ∀ j, j ≠ i → (rt.place i next p c' rt.atomHash).cellAt j = rt.cellAt j :=
    fun j other => cellAt_place_of_ne table.slots found plain other
  refine table.chains.congr ?_ ?_ (fun _ _ => rfl) ?_
  · intro j
    rcases eq_or_ne j i with rfl | same
    · simp [Runtime.isHashed, self, unhashed] at never ⊢
      exact never
    · simp [Runtime.isHashed, others j same]
  · intro j isHashed
    simp [Runtime.nextOf, others j (fresh j isHashed)]
  · intro j isHashed
    simp [Runtime.bucketAt, others j (fresh j isHashed)]

theorem installed_place (positive : 0 < i) (inside : i < rt.atomSize) (vacant : rt.ptrAt i = none)
    (sameCount : c'.refCount = c.refCount) (sameContents : c'.contents = c.contents) (newType : c'.atomType = type) :
    Installed i p c type rt (rt.place i next p c' heads) :=
  ⟨positive, vacant, ptrAt_place_self inside, fun _ other => ptrAt_place_of_ne other,
    fun _ other => by rw [Runtime.core, cell_place_of_ne other, Runtime.core],
    c', cell_place_self, sameCount, sameContents, newType⟩

theorem Rehashed.ptrAt {rt' : Runtime} (rehashed : Rehashed rt rt') (j : Nat) : rt'.ptrAt j = rt.ptrAt j := by
  simp [Runtime.ptrAt, rehashed.atomArray, rehashed.atomSize]

theorem Installed.rehashed {rt1 rt2 : Runtime} (installed : Installed i p c type rt rt1)
    (rehashed : Rehashed rt1 rt2) : Installed i p c type rt rt2 := by
  obtain ⟨c1, now, count, contents, newType⟩ := installed.cell
  obtain ⟨c2, later, same⟩ := cell_eq_of_core (rehashed.core p).symm now
  obtain ⟨sameCount, sameContents, -, -, sameType⟩ := core_fields same
  refine ⟨installed.positive, installed.vacant, ?_, ?_, ?_, c2, later, ?_, ?_, ?_⟩
  · rw [rehashed.ptrAt]
    exact installed.slot
  · intro j other
    rw [rehashed.ptrAt]
    exact installed.slots j other
  · intro q other
    rw [rehashed.core]
    exact installed.core q other
  · rw [← sameCount, count]
  · rw [← sameContents, contents]
  · rw [← sameType, newType]

theorem FreeList.head (free : FreeList rt) (some' : rt.atomFreeIndex ≠ 0) :
    rt.atomFreeIndex < rt.atomSize ∧ ∃ next, rt.atomArray rt.atomFreeIndex = .free next := by
  obtain ⟨nodes, follows, members⟩ := free
  rw [link_of_ne some'] at follows
  cases nodes with
  | nil => cases follows
  | cons first rest =>
    have same : rt.atomFreeIndex = first := some.inj follows.1
    exact ((members _).mp (by rw [same]; exact .head _)).2

theorem installAtom_hashed {hash : BitVec 30} {resize : Bool} (inside : rt.atomFreeIndex < rt.atomSize)
    (slot : rt.atomArray rt.atomFreeIndex = .free next) (hashed : type.hashed = true) :
    let h1 := bucketIn rt.atomHashSize hash
    let placed := rt.place rt.atomFreeIndex next p
      { c with hash := hash, atomType := type, hashNext := rt.atomHash h1 }
      (update rt.atomHash h1 rt.atomFreeIndex)
    installAtom p c hash type resize rt =
      (if rt.atomCount + 1 ≥ rt.atomCountResize then
        jsResizeAtomHash (rt.atomHashSize * 2) resize placed
      else some placed).map (Prod.mk rt.atomFreeIndex) := by
  simp only [installAtom, inside, slot, hashed, if_true]
  by_cases full : rt.atomCount + 1 ≥ rt.atomCountResize
  · rw [if_pos full, map_eq_bind]
    exact if_pos full
  · rw [if_neg full]
    exact if_neg full

theorem installAtom_spec {d : Cell} {hash : BitVec 30} (resize : Bool) (table : Table rt)
    (some' : rt.atomFreeIndex ≠ 0) (found : rt.cell p = some d) (plain : d.atomType = .none) (isAtom : type ≠ .none)
    (hashes : type.hashed = true → hash = atomHashOf type c.contents) (fresh : rt.Unnamed type c.contents) :
    ∃ rt', installAtom p c hash type resize rt = some (rt.atomFreeIndex, rt') ∧ Table rt' ∧
      Installed rt.atomFreeIndex p c type rt rt' := by
  obtain ⟨inside, next, slot⟩ := table.free.head some'
  have positive : 0 < rt.atomFreeIndex := Nat.pos_of_ne_zero some'
  have vacant : rt.ptrAt rt.atomFreeIndex = none := by simp [Runtime.ptrAt, inside, slot]
  have counted : ∀ c' heads, ((rt.place rt.atomFreeIndex next p c' heads).atomCount : Int) =
      (rt.place rt.atomFreeIndex next p c' heads).liveCount := by
    intro c' heads
    rw [liveCount_place inside vacant]
    have old := table.counted
    simp only [Runtime.place, Runtime.fillSlot]
    omega
  cases hashed : type.hashed with
  | true =>
    let h1 := bucketIn rt.atomHashSize hash
    let c' : Cell := { c with hash := hash, atomType := type, hashNext := rt.atomHash h1 }
    let heads := update rt.atomHash h1 rt.atomFreeIndex
    have placed : Table (rt.place rt.atomFreeIndex next p c' heads) := by
      refine ⟨?_, table.sized, ?_, freeList_place table.free slot rfl positive, counted c' heads⟩
      · refine slots_place table.slots found plain positive inside isAtom vacant ?_
          (fun _ => hashes hashed) (fun _ => fresh hashed)
        exact fun symbol => absurd symbol (ne_symbol_of_hashed hashed)
      · exact chains_place table found plain inside positive vacant hashed rfl rfl
    have installed : Installed rt.atomFreeIndex p c type rt (rt.place rt.atomFreeIndex next p c' heads) :=
      installed_place positive inside vacant rfl rfl rfl
    by_cases full : rt.atomCount + 1 ≥ rt.atomCountResize
    · obtain ⟨k, size⟩ := table.sized
      obtain ⟨rt', resized, after, rehashed⟩ :=
        jsResizeAtomHash_spec placed ⟨k + 1, congrArg (· * 2) size⟩ resize
      refine ⟨rt', ?_, after, installed.rehashed rehashed⟩
      rw [installAtom_hashed inside slot hashed, if_pos full]
      exact congrArg (Option.map (Prod.mk rt.atomFreeIndex)) resized
    · refine ⟨_, ?_, placed, installed⟩
      rw [installAtom_hashed inside slot hashed, if_neg full]
      rfl
  | false =>
    let c' : Cell := { c with hash := hash, atomType := type, hashNext := rt.atomFreeIndex }
    refine ⟨rt.place rt.atomFreeIndex next p c' rt.atomHash, ?_, ?_,
      installed_place positive inside vacant rfl rfl rfl⟩
    · simp only [installAtom, inside, slot, hashed, if_true]
      rfl
    · refine ⟨?_, table.sized, ?_, freeList_place table.free slot rfl positive, counted _ _⟩
      · have unhashed : c'.atomType.hashed ≠ true := by simp [c', hashed]
        exact slots_place table.slots found plain positive inside isAtom vacant (fun _ => rfl)
          (fun yes => absurd yes unhashed) (fun yes => absurd yes unhashed)
      · exact chains_place_symbol table found plain inside vacant hashed

end Place

end Atoms
