import Partikle.Atom.Table

/-!
The loops along the chains of the atom table: searching, moving every chain to a
table of another size, and taking an atom out.
-/

namespace Atoms

open Strings HashChain Function List

variable {node fuel target h : Nat} {c : Cell} {p : Ptr} {before after : List Nat} {rt' : Runtime}

section Walk

variable {rt : Runtime} {i : Nat} {nodes : List Nat}

theorem follows_cons (follows : Follows rt.nextOf (link i) (node :: nodes)) : i = node ∧ node ≠ 0 := by
  obtain ⟨same, nonzero⟩ := link_eq_some.mp follows.1
  exact ⟨same, same ▸ nonzero⟩

theorem nextOf_eq (there : rt.cellAt i = some c) : rt.nextOf i = link c.hashNext := by
  simp [Runtime.nextOf, there]

theorem follows_step (follows : Follows rt.nextOf (link i) (node :: nodes)) (hashed : rt.isHashed node) :
    i = node ∧ i ≠ 0 ∧ ∃ p c, rt.ptrAt i = some p ∧ rt.cell p = some c ∧ Follows rt.nextOf (link c.hashNext) nodes := by
  obtain ⟨rfl, nonzero⟩ := follows_cons follows
  obtain ⟨c, there, -⟩ := hashed
  obtain ⟨p, place, found⟩ := cellAt_eq_some.mp there
  exact ⟨rfl, nonzero, p, c, place, found, nextOf_eq there ▸ follows.2⟩

theorem ptr_ne_of_follows {j : Nat} {q : Ptr} (slots : Slots rt)
    (follows : Follows rt.nextOf (link node) (node :: nodes)) (place : rt.ptrAt node = some q)
    (later : rt.ptrAt j = some p) (member : j ∈ nodes) : q ≠ p := by
  rintro rfl
  obtain rfl := slots.inj node j q place later
  exact (nodup_cons.mp follows.nodup).1 member

theorem chain_length (follows : Follows rt.nextOf (link i) nodes)
    (members : ∀ node ∈ nodes, rt.isHashed node) : nodes.length < rt.chainFuel := by
  have inside : nodes ⊆ range rt.atomSize := by
    intro node member
    obtain ⟨c, there, -⟩ := members node member
    obtain ⟨p, place, -⟩ := cellAt_eq_some.mp there
    exact mem_range.mpr (ptrAt_lt place)
  have bound := (subperm_of_subset follows.nodup inside).length_le
  simp only [length_range] at bound
  unfold Runtime.chainFuel
  omega

theorem findLoop_spec {wanted : Cell → Bool} (follows : Follows rt.nextOf (link i) nodes)
    (members : ∀ node ∈ nodes, rt.isHashed node) (bound : nodes.length < fuel) :
    findLoop rt wanted fuel i = some (nodes.find? fun node => (rt.cellAt node).any wanted) := by
  induction nodes generalizing i fuel with
  | nil =>
    obtain _ | fuel := fuel
    · cases bound
    simp [findLoop, link_eq_none.mp follows]
  | cons node nodes ih =>
    obtain _ | fuel := fuel
    · cases bound
    obtain ⟨rfl, nonzero, p, c, place, found, rest⟩ := follows_step follows (members node (by simp))
    have there := cellAt_eq_some.mpr ⟨p, place, found⟩
    have later := ih rest (fun node member => members node (.tail _ member)) (by simpa using bound)
    cases matched : wanted c with
    | true => simp [findLoop, nonzero, there, matched]
    | false => simp [findLoop, nonzero, there, matched, later]

theorem indexLoop_spec (slots : Slots rt) (place : rt.ptrAt target = some p)
    (follows : Follows rt.nextOf (link i) (before ++ target :: after)) (members : ∀ node ∈ before, rt.isHashed node)
    (bound : before.length < fuel) : indexLoop rt p fuel i = some target := by
  induction before generalizing i fuel with
  | nil =>
    obtain _ | fuel := fuel
    · cases bound
    obtain ⟨rfl, -⟩ := follows_cons follows
    simp [indexLoop, place]
  | cons node before ih =>
    obtain _ | fuel := fuel
    · cases bound
    obtain ⟨rfl, nonzero, q, c, placeQ, found, rest⟩ := follows_step follows (members node (by simp))
    have different := ptr_ne_of_follows slots follows placeQ place (by simp)
    have later := ih rest (fun node member => members node (.tail _ member)) (by simpa using bound)
    simp [indexLoop, placeQ, different, nonzero, found, later]

end Walk

structure Relinked (rt rt' : Runtime) : Prop where
  shape : rt' = { rt with cell := rt'.cell }
  core : ∀ p, rt'.core p = rt.core p

section Relinked

variable {rt : Runtime}

theorem Relinked.refl (rt : Runtime) : Relinked rt rt := ⟨rfl, fun _ => rfl⟩

theorem Relinked.trans {rt'' : Runtime} (first : Relinked rt rt') (second : Relinked rt' rt'') : Relinked rt rt'' := by
  refine ⟨?_, fun p => (second.core p).trans (first.core p)⟩
  have one := first.shape
  have two := second.shape
  rwa [one] at two

section Links

variable (relinked : Relinked rt rt')

include relinked

theorem Relinked.ptrAt (i : Nat) : rt'.ptrAt i = rt.ptrAt i := by
  rw [relinked.shape]
  rfl

theorem Relinked.cellAt {i : Nat} (there : rt'.cellAt i = some c) : ∃ c0, rt.cellAt i = some c0 ∧ c.core = c0.core := by
  obtain ⟨p, place, found⟩ := cellAt_eq_some.mp there
  obtain ⟨c0, present, same⟩ := cell_eq_of_core (relinked.core p) found
  rw [relinked.ptrAt] at place
  exact ⟨c0, cellAt_eq_some.mpr ⟨p, place, present⟩, same⟩

theorem Relinked.symm : Relinked rt' rt := by
  refine ⟨?_, fun p => (relinked.core p).symm⟩
  rw [relinked.shape]

theorem Relinked.isHashed (i : Nat) : rt'.isHashed i ↔ rt.isHashed i := by
  constructor
  · rintro ⟨c, there, hashed⟩
    obtain ⟨c0, old, same⟩ := relinked.cellAt there
    exact ⟨c0, old, core_type same ▸ hashed⟩
  · rintro ⟨c, there, hashed⟩
    obtain ⟨c0, old, same⟩ := relinked.symm.cellAt there
    exact ⟨c0, old, core_type same ▸ hashed⟩

theorem Relinked.bucketAt (size i : Nat) (hashed : rt.isHashed i) : rt'.bucketAt size i = rt.bucketAt size i := by
  obtain ⟨c, there, -⟩ := hashed
  obtain ⟨c0, now, same⟩ := relinked.symm.cellAt there
  simp [Runtime.bucketAt, there, now, (core_fields same).2.2.2.1]

end Links

end Relinked

variable {rt : Runtime} {i size : Nat}

theorem relinked_setCell (inj : ∀ i j p, rt.ptrAt i = some p → rt.ptrAt j = some p → i = j)
    (place : rt.ptrAt i = some p) (found : rt.cell p = some c) (target : Nat) :
    Relinked rt (rt.setCell p { c with hashNext := target }) ∧
      (rt.setCell p { c with hashNext := target }).nextOf i = link target ∧
      ∀ j, j ≠ i → (rt.setCell p { c with hashNext := target }).nextOf j = rt.nextOf j := by
  refine ⟨⟨rfl, ?_⟩, ?_, ?_⟩
  · intro q
    rcases eq_or_ne q p with rfl | same
    · simp [Runtime.core, found, Cell.core]
    · exact core_setCell_of_ne same
  · have there : (rt.setCell p { c with hashNext := target }).cellAt i = some { c with hashNext := target } :=
      cellAt_eq_some.mpr ⟨p, place, cell_setCell_self⟩
    exact nextOf_eq there
  · intro j different
    have same : (rt.setCell p { c with hashNext := target }).cellAt j = rt.cellAt j := by
      have ptr : (rt.setCell p { c with hashNext := target }).ptrAt j = rt.ptrAt j := rfl
      unfold Runtime.cellAt
      rw [ptr]
      cases other : rt.ptrAt j with
      | none => rfl
      | some q =>
        have unequal : q ≠ p := by
          rintro rfl
          exact different (inj j i q other place)
        simp [Runtime.setCell, update_of_ne unequal]
    simp [Runtime.nextOf, same]

section

variable {newHash : Nat → Nat} {moved : Nat → Prop} (inj : ∀ i j p, rt.ptrAt i = some p → rt.ptrAt j = some p → i = j)
  (positive : 0 < size) (movedHashed : ∀ node, moved node → rt.isHashed node)
  (table : IsTable rt.nextOf (fun b => link (newHash b)) size (rt.bucketAt size) moved)

include inj positive movedHashed table

theorem moveChain_spec {nodes : List Nat} (follows : Follows rt.nextOf (link h) nodes)
    (members : ∀ node ∈ nodes, rt.isHashed node) (apart : ∀ node ∈ nodes, ¬moved node) (bound : nodes.length < fuel) :
    ∃ rt' newHash', moveChain size fuel h rt newHash = some (rt', newHash') ∧ Relinked rt rt' ∧
      IsTable rt'.nextOf (fun b => link (newHash' b)) size (rt'.bucketAt size) (fun node => moved node ∨ node ∈ nodes)
      ∧ ∀ node, node ∉ nodes → rt'.nextOf node = rt.nextOf node := by
  induction nodes generalizing rt h fuel newHash moved with
  | nil =>
    obtain _ | fuel := fuel
    · cases bound
    refine ⟨rt, newHash, by simp [moveChain, link_eq_none.mp follows], .refl rt, ?_, fun _ _ => rfl⟩
    simpa using table
  | cons node nodes ih =>
    obtain _ | fuel := fuel
    · cases bound
    obtain ⟨rfl, nonzero⟩ := follows_cons follows
    obtain ⟨c, there, hashed⟩ := members h (by simp)
    obtain ⟨p, place, found⟩ := cellAt_eq_some.mp there
    have bucket := bucketAt_eq size there
    have outside : h ∉ nodes := (nodup_cons.mp follows.nodup).1
    obtain ⟨relinked, link1, others⟩ := relinked_setCell inj place found (newHash (bucketIn size c.hash))
    have pushed : IsTable (rt.setCell p { c with hashNext := newHash (bucketIn size c.hash) }).nextOf
        (fun b => link (update newHash (bucketIn size c.hash) h b)) size
        (rt.bucketAt size) fun old => moved old ∨ old = h := by
      apply table.push (apart h (by simp))
      · rw [bucket]
        exact bucketIn_lt positive _
      · rwa [bucket]
      · intro old isMoved
        exact others old fun same => apart h (by simp) (same ▸ isMoved)
      · intro b _
        rw [bucket]
        by_cases own : b = bucketIn size c.hash
        · subst own
          simp [link_of_ne nonzero]
        · simp [own]
    have step : moveChain size (fuel + 1) h rt newHash = moveChain size fuel c.hashNext
        (rt.setCell p { c with hashNext := newHash (bucketIn size c.hash) })
        (update newHash (bucketIn size c.hash) h) := by
      simp [moveChain, nonzero, place, found]
    generalize rt.setCell p { c with hashNext := newHash (bucketIn size c.hash) } = rt1 at *
    generalize update newHash (bucketIn size c.hash) h = newHash1 at *
    have pushed1 : IsTable rt1.nextOf (fun b => link (newHash1 b)) size (rt1.bucketAt size)
        fun old => moved old ∨ old = h := by
      apply pushed.congr (fun _ => Iff.rfl) (fun _ _ => rfl) (fun _ _ => rfl)
      rintro old (isMoved | same)
      · exact relinked.bucketAt size old (movedHashed old isMoved)
      · exact same ▸ relinked.bucketAt size h ⟨c, there, hashed⟩
    have rest : Follows rt1.nextOf (link c.hashNext) nodes := by
      rw [← nextOf_eq there]
      exact follows.2.congr fun node member => others node fun same => outside (same ▸ member)
    obtain ⟨rt', newHash', looped, relinked', table', kept⟩ := ih
      (by intro i j q; rw [relinked.ptrAt, relinked.ptrAt]; exact inj i j q)
      (by
        rintro node (isMoved | same)
        · exact (relinked.isHashed node).mpr (movedHashed node isMoved)
        · exact (relinked.isHashed node).mpr (same ▸ ⟨c, there, hashed⟩))
      pushed1 rest (fun node member => (relinked.isHashed node).mpr (members node (.tail _ member)))
      (by
        rintro node member (isMoved | same)
        · exact apart node (.tail _ member) isMoved
        · exact outside (same ▸ member))
      (by simpa using bound)
    refine ⟨rt', newHash', step.trans looped, relinked.trans relinked', ?_, ?_⟩
    · refine table'.of_iff ?_
      simp only [mem_cons]
      tauto
    · intro node absent
      simp only [mem_cons, not_or] at absent
      rw [kept node absent.2]
      exact others node absent.1

theorem moveChains_spec {buckets : List Nat} {chain : Nat → List Nat} (unique : (buckets.flatMap chain).Nodup)
    (follows : ∀ b ∈ buckets, Follows rt.nextOf (rt.headOf b) (chain b))
    (members : ∀ node ∈ buckets.flatMap chain, rt.isHashed node) (apart : ∀ node ∈ buckets.flatMap chain, ¬moved node) :
    ∃ rt' newHash', moveChains size buckets rt newHash = some (rt', newHash') ∧ Relinked rt rt' ∧
      IsTable rt'.nextOf (fun b => link (newHash' b)) size (rt'.bucketAt size)
      (fun node => moved node ∨ node ∈ buckets.flatMap chain) ∧
      ∀ node, node ∉ buckets.flatMap chain → rt'.nextOf node = rt.nextOf node := by
  induction buckets generalizing rt newHash moved with
  | nil =>
    refine ⟨rt, newHash, rfl, .refl rt, ?_, fun _ _ => rfl⟩
    simpa using table
  | cons b buckets ih =>
    simp only [flatMap_cons, nodup_append', mem_append, or_imp, forall_and, forall_mem_cons]
      at unique follows members apart
    obtain ⟨-, uniqueRest, disjoint⟩ := unique
    obtain ⟨rt1, newHash1, moved1, relinked, table1, kept1⟩ := moveChain_spec inj positive movedHashed table
      follows.1 members.1 apart.1 (chain_length follows.1 members.1)
    have sameHead : ∀ b', rt1.headOf b' = rt.headOf b' := by
      intro b'
      rw [relinked.shape]
      rfl
    obtain ⟨rt', newHash', looped, relinked', table', kept⟩ := ih
      (by intro i j q; rw [relinked.ptrAt, relinked.ptrAt]; exact inj i j q)
      (fun node before => (relinked.isHashed node).mpr (before.elim (movedHashed node) (members.1 node))) table1
        uniqueRest
      (by
        intro b' member
        rw [sameHead]
        exact (follows.2 b' member).congr fun node inside =>
          kept1 node fun first => disjoint first (mem_flatMap_of_mem member inside))
      (fun node inside => (relinked.isHashed node).mpr (members.2 node inside))
      (fun node inside before => before.elim (apart.2 node inside) fun first => disjoint first inside)
    refine ⟨rt', newHash', by simp [moveChains, moved1, looped], relinked.trans relinked', ?_, ?_⟩
    · refine table'.of_iff ?_
      simp only [flatMap_cons, mem_append, or_assoc, implies_true]
    · intro node absent
      simp only [flatMap_cons, mem_append, not_or] at absent
      rw [kept node absent.2, kept1 node absent.1]

end

theorem hashNext_of_symbol {c' : Cell} (there : rt.cellAt i = some c) (now : rt'.cellAt i = some c')
    (symbol : c.atomType = .symbol) (kept : ¬rt.isHashed i → rt'.nextOf i = rt.nextOf i) :
    c'.hashNext = c.hashNext := by
  have unhashed : ¬rt.isHashed i := by
    rintro ⟨d, again, hashed⟩
    rw [there] at again
    cases again
    exact ne_symbol_of_hashed hashed symbol
  have next := kept unhashed
  rw [nextOf_eq there, nextOf_eq now] at next
  exact link_inj next

theorem Relinked.slots (relinked : Relinked rt rt') (slots : Slots rt)
    (symbols : ∀ i, ¬rt.isHashed i → rt'.nextOf i = rt.nextOf i) : Slots rt' := by
  have places := relinked.ptrAt
  apply slots.carry (fun i p place => (places i).symm.trans place)
  · intro i p c place found _
    obtain ⟨c', now, same⟩ := cell_eq_of_core (relinked.symm.core p) found
    refine ⟨c', now, .of_core same fun symbol => ?_⟩
    have there := cellAt_eq_some.mpr ⟨p, (places i).symm.trans place, found⟩
    exact hashNext_of_symbol there (cellAt_eq_some.mpr ⟨p, place, now⟩) symbol (symbols i)
  · intro p c now isAtom
    obtain ⟨c0, found, same⟩ := cell_eq_of_core (relinked.core p) now
    obtain ⟨i, place⟩ := slots.owner p c0 found (core_type same ▸ isAtom)
    exact ⟨i, (places i).trans place⟩
  · intro positive
    rw [relinked.shape] at positive
    exact ⟨positive, places 0⟩

structure Rehashed (rt rt' : Runtime) : Prop where
  core : ∀ p, rt'.core p = rt.core p
  atomArray : rt'.atomArray = rt.atomArray
  atomSize : rt'.atomSize = rt.atomSize
  atomCount : rt'.atomCount = rt.atomCount
  atomFreeIndex : rt'.atomFreeIndex = rt.atomFreeIndex

theorem jsResizeAtomHash_spec (table : Table rt) (sized : ∃ k, size = 2 ^ k) (allocated : Bool) :
    ∃ rt', jsResizeAtomHash size allocated rt = some rt' ∧ Table rt' ∧ Rehashed rt rt' := by
  have positive : 0 < size := by
    obtain ⟨k, rfl⟩ := sized
    exact Nat.two_pow_pos k
  have power : size &&& (size - 1) = 0 := by
    obtain ⟨k, rfl⟩ := sized
    simp
  cases allocated with
  | false => exact ⟨rt, by simp [jsResizeAtomHash, power], table, fun _ => rfl, rfl, rfl, rfl, rfl⟩
  | true =>
    obtain ⟨chain, follows, -, unique, everything⟩ := table.chains.exists_chains
    obtain ⟨rt1, newHash, moved, relinked, table1, kept⟩ := moveChains_spec table.slots.inj positive
      (fun _ impossible => impossible.elim) (isTable_empty fun _ _ => link_eq_none.mpr rfl) unique
      (fun b member => follows b (mem_range.mp member)) (fun node => (everything node).mp)
      (fun _ _ impossible => impossible)
    have slots1 : Slots rt1 :=
      relinked.slots table.slots fun i unhashed => kept i fun inside => unhashed ((everything i).mp inside)
    have shape := relinked.shape
    refine ⟨{ rt1 with atomHash := newHash, atomHashSize := size, atomCountResize := size * 2 },
      by simp [jsResizeAtomHash, power, moved], ⟨?_, sized, ?_, ?_, ?_⟩, relinked.core, ?_, ?_, ?_, ?_⟩
    · exact { slots1 with }
    · refine table1.of_iff (fun node => ?_)
      rw [everything, false_or]
      exact relinked.isHashed node
    · rw [shape]
      exact table.free
    · rw [shape]
      exact table.counted
    all_goals rw [shape]

structure Unlinked (i : Nat) (rt rt' : Runtime) : Prop where
  shape : rt' = { rt with cell := rt'.cell, atomHash := rt'.atomHash }
  core : ∀ p, rt'.core p = rt.core p
  symbols : ∀ j, ¬rt.isHashed j → rt'.nextOf j = rt.nextOf j
  chains : IsTable rt'.nextOf rt'.headOf rt.atomHashSize (rt.bucketAt rt.atomHashSize)
    fun j => rt.isHashed j ∧ j ≠ i

theorem head_ne {first : Nat} {more : List Nat} (slots : Slots rt)
    (place : rt.ptrAt i = some p) (follows : Follows rt.nextOf (link h) (first :: more)) (member : i ∈ more)
    (isHashed : rt.isHashed first) : ∃ q, rt.ptrAt h = some q ∧ q ≠ p := by
  obtain ⟨rfl, -, q, -, headPlace, -⟩ := follows_step follows isHashed
  exact ⟨q, headPlace, ptr_ne_of_follows slots follows headPlace place member⟩

theorem unlinkLoop_spec {p0 : Ptr} {c0 : Cell} {pred start : Nat}
    (slots : Slots rt) (place : rt.ptrAt i = some p) (predPlace : rt.ptrAt pred = some p0)
    (predFound : rt.cell p0 = some c0) (follows : Follows rt.nextOf (link start) (before ++ pred :: i :: after))
    (members : ∀ node ∈ before ++ pred :: i :: after, rt.isHashed node) (bound : before.length < fuel) :
    unlinkLoop p target rt fuel start = some (i, rt.setCell p0 { c0 with hashNext := target }) := by
  induction before generalizing start fuel with
  | nil =>
    obtain _ | fuel := fuel
    · cases bound
    obtain ⟨rfl, nonzero⟩ := follows_cons follows
    have there : rt.cellAt start = some c0 := cellAt_eq_some.mpr ⟨p0, predPlace, predFound⟩
    have rest := follows.2
    rw [nextOf_eq there] at rest
    obtain ⟨next, -⟩ := follows_cons rest
    simp [unlinkLoop, nonzero, predPlace, predFound, next, place]
  | cons node before ih =>
    obtain _ | fuel := fuel
    · cases bound
    obtain ⟨rfl, nonzero, q, c, placeQ, found, rest⟩ := follows_step follows (members node (by simp))
    have later := ih rest (fun node member => members node (.tail _ member)) (by simpa using bound)
    -- the next node is not the one looked for, because that comes after `pred`
    obtain ⟨q1, placeNext, differs⟩ : ∃ q1, rt.ptrAt c.hashNext = some q1 ∧ q1 ≠ p := by
      cases before with
      | nil => exact head_ne slots place rest (by simp) (members pred (by simp))
      | cons second before => exact head_ne slots place rest (by simp) (members second (by simp))
    simp [unlinkLoop, nonzero, placeQ, found, placeNext, differs, later]

theorem Table.chain_of (table : Table rt) (there : rt.cellAt i = some c) (hashed : c.atomType.hashed = true) :
    ∃ before after, Follows rt.nextOf (link (rt.atomHash (bucketIn rt.atomHashSize c.hash))) (before ++ i :: after) ∧
      ∀ node ∈ before ++ i :: after, rt.isHashed node ∧
      rt.bucketAt rt.atomHashSize node = bucketIn rt.atomHashSize c.hash := by
  obtain ⟨nodes, follows, members⟩ := table.chains.chains _ (bucketIn_lt table.positive c.hash)
  obtain ⟨before, after, rfl⟩ := append_of_mem ((members i).mpr ⟨⟨c, there, hashed⟩, bucketAt_eq _ there⟩)
  exact ⟨before, after, follows, fun node member => (members node).mp member⟩

theorem jsGetAtomIndex_spec (table : Table rt) (place : rt.ptrAt i = some p) (found : rt.cell p = some c)
    (hashed : c.atomType.hashed = true) : jsGetAtomIndex rt p = some i := by
  have notSymbol := ne_symbol_of_hashed hashed
  obtain ⟨before, after, follows, members⟩ := table.chain_of (cellAt_eq_some.mpr ⟨p, place, found⟩) hashed
  have length := chain_length follows fun node member => (members node member).1
  have short : before.length < rt.chainFuel := by
    simp only [length_append, length_cons] at length
    omega
  have walked := indexLoop_spec table.slots place follows
    (fun node member => (members node (mem_append_left _ member)).1) short
  simp [jsGetAtomIndex, found, notSymbol, walked]

theorem unlinkAtom_spec (table : Table rt) (place : rt.ptrAt i = some p) (found : rt.cell p = some c)
    (hashed : c.atomType.hashed = true) : ∃ rt', unlinkAtom p c rt = some (i, rt') ∧ Unlinked i rt rt' := by
  have notSymbol := ne_symbol_of_hashed hashed
  have there : rt.cellAt i = some c := cellAt_eq_some.mpr ⟨p, place, found⟩
  obtain ⟨before, after, follows, members⟩ := table.chain_of there hashed
  have length := chain_length follows fun node member => (members node member).1
  have bucket := bucketAt_eq rt.atomHashSize there
  unfold unlinkAtom
  simp only [notSymbol, if_false]
  generalize bucketIn rt.atomHashSize c.hash = h0 at follows members bucket
  cases before with
  | nil =>
    obtain ⟨head, nonzero⟩ := follows_cons follows
    have rest := follows.2
    rw [nextOf_eq there] at rest
    refine ⟨{ rt with atomHash := update rt.atomHash h0 c.hashNext }, ?_, rfl,
      fun _ => rfl, fun _ _ => rfl, ?_⟩
    · simp [head, place]
    · refine table.chains.remove (by rwa [bucket]) ?_ (fun _ _ _ => rfl) ?_
      · rw [bucket]
        simp only [Runtime.headOf, update_self]
        exact rest
      · intro b _ other
        rw [bucket] at other
        simp [Runtime.headOf, update_of_ne other]
  | cons first more =>
    obtain ⟨q, headPlace, differs⟩ := head_ne table.slots place follows (by simp) (members first (by simp)).1
    obtain ⟨front, pred, shape⟩ : ∃ front pred, first :: more = front ++ [pred] :=
      ⟨_, _, (dropLast_append_getLast (cons_ne_nil first more)).symm⟩
    rw [shape] at follows members length
    have chain := follows
    simp only [append_assoc, singleton_append] at chain members length
    obtain ⟨⟨c0, predThere, -⟩, predBucket⟩ := members pred (by simp)
    obtain ⟨p0, predPlace, predFound⟩ := cellAt_eq_some.mp predThere
    have short : front.length < rt.chainFuel := by
      simp only [length_append, length_cons] at length
      omega
    have walked : unlinkLoop p c.hashNext rt rt.chainFuel (rt.atomHash h0) = _ :=
      unlinkLoop_spec table.slots place predPlace predFound chain (fun node member => (members node member).1) short
    obtain ⟨relinked, linkPred, others⟩ := relinked_setCell table.slots.inj predPlace predFound c.hashNext
    refine ⟨rt.setCell p0 { c0 with hashNext := c.hashNext }, ?_, rfl, relinked.core, ?_, ?_⟩
    · simp [headPlace, differs, walked]
    · intro j unhashed
      apply others
      rintro rfl
      exact unhashed (members j (by simp)).1
    · refine table.chains.remove (by rwa [bucket]) ?_ ?_ (fun _ _ _ => rfl)
      · rw [bucket, append_assoc, singleton_append]
        apply (Follows.unlink chain).congr
        intro node member
        rcases eq_or_ne node pred with rfl | same
        · rw [update_self, linkPred, nextOf_eq there]
        · rw [update_of_ne same, others node same]
      · intro old isHashed elsewhere
        apply others
        rintro rfl
        exact elsewhere (predBucket.trans bucket.symm)

end Atoms
