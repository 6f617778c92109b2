import Partikle.Atom.Refs

/-!
`__JS_NewAtom` and the functions around it: whatever the allocator answers, they give a
result, and they keep the table and the reference counts.
-/

namespace Atoms

open Strings HashChain Wrap List Option

variable {d : Cell} {i usableSize : Nat}

section Holds

variable {rt rt' : Runtime} {values : List Ptr} {atoms : List Nat} {p : Ptr} {c : Cell}

theorem Holds.grown (holds : Holds rt values atoms) {mem : Memory} (table : Table rt')
    (grown : Grown mem rt rt') : Holds rt' values atoms := by
  refine ⟨table, ?_, ?_, ?_⟩
  · intro q member
    obtain ⟨held, d, found⟩ := holds.value q member
    refine ⟨?_, d, grown.cells q d found⟩
    intro null
    rcases grown.null q null with old | ⟨fresh, -⟩
    · exact held old
    · simp [fresh] at found
  · intro i member
    obtain ⟨positive, q, place⟩ := holds.atom i member
    exact ⟨positive, q, (grown.slots i positive).trans place⟩
  · intro q held d found
    have old : rt.ptrAt 0 ≠ some q := fun null => held (grown.nullKept q null)
    have present := (grown.back q d found).resolve_right held
    obtain ⟨positive, plain, named⟩ := holds.counted q old d present
    refine ⟨positive, plain, ?_⟩
    intro i above place
    exact named i above ((grown.slots i above).symm.trans place)

theorem Holds.alloc (holds : Holds rt values atoms) (fresh : rt.cell p = none) (plain : c.atomType = .none)
    (one : c.refCount = 1) : Holds (rt.setCell p c) (p :: values) atoms := by
  have unheld : p ∉ values := by
    intro member
    obtain ⟨-, d, found⟩ := holds.value p member
    simp [fresh] at found
  have notNull : ∀ i, rt.ptrAt i ≠ some p := by
    intro i place
    obtain ⟨d, found, -⟩ := holds.table.slots.cells i p place
    simp [fresh] at found
  have keeps : KeepsAtoms rt (rt.setCell p c).cell := keepsAtoms_update (by simp [fresh]) (by simp [plain])
  refine holds.change (keeps.table holds.table) (fun _ => core_setCell_of_ne) (fun _ _ _ => Iff.rfl) ?_
    (fun _ _ _ => rfl) (fun _ _ place => place) (notNull 0) (fun _ => ⟨c, cell_setCell_self⟩) ?_
  · intro q other
    simp [other.symm]
  · intro d found
    rw [cell_setCell_self] at found
    cases found
    have none' := count_eq_zero.mpr unheld
    refine ⟨by omega, fun _ => ?_, fun i _ place => absurd place (notNull i)⟩
    rw [count_cons_self, none', one]
    rfl

theorem Holds.install {type : AtomType} (holds : Holds rt (p :: values) atoms) (table : Table rt')
    (found : rt.cell p = some d) (plain : d.atomType = .none) (sameCount : c.refCount = d.refCount)
    (installed : Installed i p c type rt rt') : Holds rt' values (i :: atoms) := by
  have vacant := installed.vacant
  have unheld : atoms.count i = 0 := by
    apply count_eq_zero.mpr
    intro member
    obtain ⟨-, q, place⟩ := holds.atom i member
    simp [vacant] at place
  have absent := holds.table.slots.ptrAt_ne found plain
  have only : ∀ j, rt'.ptrAt j = some p → j = i := by
    intro j place
    by_contra other
    rw [installed.slots j other] at place
    exact absent j place
  obtain ⟨c', now, count, -, -⟩ := installed.cell
  obtain ⟨held, -⟩ := holds.value p mem_cons_self
  have counted := (holds.counted p held d found)
  have old := counted.2.1 plain
  rw [count_cons_self] at old
  refine holds.change table installed.core ?_ ?_ ?_ (fun j _ place => absurd place (absent j)) ?_
    (fun _ => ⟨c', now⟩) ?_
  · intro j q other
    by_cases own : j = i
    · simp [own, installed.slot, vacant, other.symm]
    · rw [installed.slots j own]
  · intro q other
    simp [other.symm]
  · intro j _ elsewhere
    have other : i ≠ j := fun same => elsewhere (same ▸ installed.slot)
    simp [other]
  · intro null
    exact Nat.ne_of_lt installed.positive (only 0 null)
  · intro e present
    rw [now] at present
    cases present
    refine ⟨by rw [count, sameCount]; exact counted.1, ?_, ?_⟩
    · intro nowPlain
      exact absurd installed.slot (table.slots.ptrAt_ne now nowPlain i)
    · intro j above place
      obtain rfl := only j place
      rw [count, sameCount, old, atomRefs, count_cons_self, unheld]
      simp

end Holds

structure Fits (mem : Memory) (rt : Runtime) : Prop where
  growth : GrowthFits mem rt
  block : ∀ p usableSize, mem.block = some (p, usableSize) → rt.cell p = none
  apart : ∀ p usableSize, mem.block = some (p, usableSize) → mem.nullAtom ≠ some p

section Create

variable {rt rt' : Runtime} {values : List Ptr} {atoms : List Nat} {p q : Ptr} {c : Cell} {mem : Memory}

theorem Grown.block (grown : Grown mem rt rt') (slots : Slots rt) (fits : Fits mem rt)
    (block : mem.block = some (p, usableSize)) : rt'.cell p = none := by
  have fresh := fits.block p usableSize block
  by_contra present
  obtain ⟨d, found⟩ := ne_none_iff_exists'.mp present
  rcases grown.back p d found with old | null
  · simp [fresh] at old
  · rcases grown.null p null with old | ⟨-, same⟩
    · obtain ⟨e, there, -⟩ := slots.cells 0 p old
      simp [fresh] at there
    · exact fits.apart p usableSize block same

variable {j : Nat} {type : AtomType}

theorem Grown.cellAt (grown : Grown mem rt rt') (slots : Slots rt')
    (there : rt'.cellAt j = some d) (hashed : d.atomType.hashed = true) : rt.cellAt j = some d := by
  obtain ⟨q, place, found⟩ := cellAt_eq_some.mp there
  have positive := slots.pos_of_hashed there hashed
  have old := (grown.back q d found).resolve_right fun null => by
    have zero := slots.inj 0 j q null place
    omega
  exact cellAt_eq_some.mpr ⟨q, (grown.slots j positive).symm.trans place, old⟩

theorem Freed.cellAt (freed : Freed q rt rt') (there : rt'.cellAt j = some d) :
    ∃ d0, rt.cellAt j = some d0 ∧ d.contents = d0.contents ∧ d.atomType = d0.atomType := by
  obtain ⟨p, place, found⟩ := cellAt_eq_some.mp there
  have place := freed.slots j p place
  rcases eq_or_ne p q with rfl | same
  · obtain ⟨d0, old, contents, type⟩ := freed.self d found
    exact ⟨d0, cellAt_eq_some.mpr ⟨p, place, old⟩, contents, type⟩
  · obtain ⟨d0, old, core⟩ := cell_eq_of_core (freed.core p same) found
    obtain ⟨-, contents, -, -, type⟩ := core_fields core
    exact ⟨d0, cellAt_eq_some.mpr ⟨p, place, old⟩, contents, type⟩

theorem FreeList.index_ne_zero (free : FreeList rt) (positive : 0 < j)
    (inside : j < rt.atomSize) (vacant : rt.ptrAt j = none) : rt.atomFreeIndex ≠ 0 := by
  obtain ⟨nodes, follows, members⟩ := free
  have isFree : rt.isFree j := by
    refine ⟨inside, ?_⟩
    cases slot : rt.atomArray j with
    | atom p => simp [Runtime.ptrAt, inside, slot] at vacant
    | free next => exact ⟨next, rfl⟩
  have member := (members j).mpr ⟨positive, isFree⟩
  intro zero
  rw [zero, link_zero] at follows
  cases nodes with
  | nil => cases member
  | cons first rest => cases follows.1

theorem Freed.index_ne_zero (freed : Freed q rt rt') (table : Table rt) (table' : Table rt')
    (room : rt.atomFreeIndex ≠ 0) : rt'.atomFreeIndex ≠ 0 := by
  obtain ⟨inside, next, slot⟩ := table.free.head room
  apply table'.free.index_ne_zero (Nat.pos_of_ne_zero room) (by rwa [freed.atomSize])
  by_contra present
  obtain ⟨p, place⟩ := ne_none_iff_exists'.mp present
  have old := freed.slots _ p place
  simp [Runtime.ptrAt, inside, slot] at old

theorem finishWith_spec (holds : Holds rt (p :: values) atoms) :
    ∃ rt', finishWith i (some p) rt = some (i, rt') ∧ Holds rt' values atoms := by
  obtain ⟨rt', freed, after, -⟩ := jsFreeString_spec holds
  exact ⟨rt', by simp [finishWith, freed], after⟩

theorem keepAtoms_of_pos (positive : i ≠ 0) : keepAtoms i atoms = i :: atoms := by
  simp [keepAtoms, positive]

section

variable {hash : BitVec 30} (holds : Holds rt (q :: values) atoms) (found : rt.cell q = some c)
  (isAtom : type ≠ .none) (hashes : type.hashed = true → hash = atomHashOf type c.contents)
  (fresh : rt.Unnamed type c.contents)

include holds found isAtom hashes fresh

theorem install_copy (resize : Bool) (usableSize : Nat) (room : rt.atomFreeIndex ≠ 0) (vacant : rt.cell p = none) :
    let copy : Cell := ⟨1, c.contents, usableSize, 0, .none, 0⟩
    ∃ i rt1 rt', jsFreeString q (rt.setCell p copy) = some rt1 ∧
      installAtom p copy hash type resize rt1 = some (i, rt') ∧ i ≠ 0 ∧
      Holds rt' values (i :: atoms) := by
  intro copy
  have different : q ≠ p := by
    rintro rfl
    simp [vacant] at found
  have both := (holds.alloc vacant (c := copy) rfl rfl).perm (Perm.swap q p values) .rfl
  obtain ⟨rt1, freed, after, frame⟩ := jsFreeString_spec both
  have copied : (rt.setCell p copy).cell p = some copy := by simp [Runtime.setCell]
  obtain ⟨d, now, core⟩ := cell_eq_of_core (frame.core p different.symm).symm copied
  obtain ⟨sameCount, sameContents, -, -, sameType⟩ := core_fields core
  have stillRoom : rt1.atomFreeIndex ≠ 0 := frame.index_ne_zero both.table after.table room
  have stillFresh : rt1.Unnamed type copy.contents := by
    intro hashed j e there types
    obtain ⟨e0, old, contents, sameTypes⟩ := frame.cellAt there
    have oldThere : rt.cellAt j = some e0 := by
      obtain ⟨r, place, present⟩ := cellAt_eq_some.mp old
      have other : r ≠ p := by
        rintro rfl
        obtain ⟨e1, again, -⟩ := holds.table.slots.cells j r place
        simp [vacant] at again
      refine cellAt_eq_some.mpr ⟨r, place, ?_⟩
      simpa [Runtime.setCell, Function.update_of_ne other] using present
    rw [contents]
    exact fresh hashed j e0 oldThere (sameTypes ▸ types)
  obtain ⟨rt', installs, table, installed⟩ := installAtom_spec (c := copy) resize after.table
    stillRoom now sameType.symm isAtom hashes stillFresh
  exact ⟨_, rt1, rt', freed, installs, stillRoom, after.install table now sameType.symm sameCount installed⟩

theorem createAtom_spec (fits : Fits mem rt) :
    ∃ i rt', createAtom (some q) hash type mem rt = some (i, rt') ∧ Holds rt' values (keepAtoms i atoms) := by
  unfold createAtom
  cases grows : growArray mem rt with
  | none =>
    obtain ⟨rt', finished, after⟩ := finishWith_spec (i := 0) holds
    exact ⟨0, rt', finished, after⟩
  | some rt1 =>
    obtain ⟨table, room, grown⟩ := growArray_spec holds.table fits.growth grows
    have holds1 := holds.grown table grown
    have found1 := grown.cells q c found
    have fresh1 : rt1.Unnamed type c.contents := by
      intro hashed j d there types
      exact fresh hashed j d (grown.cellAt table.slots there (types ▸ hashed)) types
    simp only [found1, bind_eq_bind, bind_some]
    by_cases plain : c.atomType = .none
    · rw [if_pos plain]
      obtain ⟨rt', installs, after, installed⟩ :=
        installAtom_spec mem.resize table room found1 plain isAtom hashes fresh1
      refine ⟨_, rt', installs, ?_⟩
      rw [keepAtoms_of_pos room]
      exact holds1.install after found1 plain rfl installed
    · rw [if_neg plain]
      cases block : mem.block with
      | none =>
        obtain ⟨rt', finished, after⟩ := finishWith_spec (i := 0) holds1
        exact ⟨0, rt', finished, after⟩
      | some answer =>
        obtain ⟨p, usableSize⟩ := answer
        have vacant := grown.block holds.table.slots fits block
        obtain ⟨i, rt2, rt', freed, installs, positive, after⟩ :=
          install_copy holds1 found1 isAtom hashes fresh1 mem.resize usableSize room vacant
        refine ⟨i, rt', ?_, by rwa [keepAtoms_of_pos positive]⟩
        simp only [freed, bind_some, installs]

end

theorem createAtom_none_spec (hash : BitVec 30) (holds : Holds rt values atoms) (fits : Fits mem rt) :
    ∃ i rt', createAtom none hash .symbol mem rt = some (i, rt') ∧ Holds rt' values (keepAtoms i atoms) := by
  unfold createAtom
  cases grows : growArray mem rt with
  | none => exact ⟨0, rt, rfl, holds⟩
  | some rt1 =>
    obtain ⟨table, room, grown⟩ := growArray_spec holds.table fits.growth grows
    have holds1 := holds.grown table grown
    cases block : mem.block with
    | none => exact ⟨0, rt1, rfl, holds1⟩
    | some answer =>
      obtain ⟨p, usableSize⟩ := answer
      have vacant := grown.block holds.table.slots fits block
      have holds2 := holds1.alloc vacant (c := emptySymbol usableSize) rfl rfl
      have found : (rt1.setCell p (emptySymbol usableSize)).cell p =
          some (emptySymbol usableSize) := by simp [Runtime.setCell]
      obtain ⟨rt', installs, after, installed⟩ := @installAtom_spec .symbol _ p
        (emptySymbol usableSize) (emptySymbol usableSize) hash mem.resize holds2.table room found rfl (by decide)
        (fun hashed => by cases hashed) (fun hashed => by cases hashed)
      refine ⟨rt1.atomFreeIndex, rt', installs, ?_⟩
      rw [keepAtoms_of_pos room]
      exact holds2.install after found rfl rfl installed

theorem findLoop_table (table : Table rt) (wanted : Cell → Bool) (hash : BitVec 30) :
    ∃ found, findLoop rt wanted rt.chainFuel (rt.atomHash (bucketIn rt.atomHashSize hash)) = some found ∧
      (∀ i, found = some i → 0 < i ∧ ∃ p, rt.ptrAt i = some p) ∧ (found = none → ∀ j d, rt.cellAt j = some d →
      d.atomType.hashed = true → d.hash = hash → wanted d = false) := by
  obtain ⟨nodes, follows, members⟩ := table.chains.chains _ (bucketIn_lt table.positive hash)
  have inChain : ∀ node ∈ nodes, rt.isHashed node := fun node member => ((members node).mp member).1
  refine ⟨_, findLoop_spec follows inChain (chain_length follows inChain), ?_, ?_⟩
  · intro i found
    obtain ⟨d, there, hashed⟩ := inChain i (mem_of_find?_eq_some found)
    obtain ⟨p, place, -⟩ := cellAt_eq_some.mp there
    exact ⟨table.slots.pos_of_hashed there hashed, p, place⟩
  · intro absent j d there hashed sameHash
    have member : j ∈ nodes := by
      refine (members j).mpr ⟨⟨d, there, hashed⟩, ?_⟩
      simp [Runtime.bucketAt, there, sameHash]
    have unwanted := find?_eq_none.mp absent j member
    simpa [there] using unwanted

theorem atomHashOf_congr {left right : JsString} (same : left.units = right.units) :
    atomHashOf type left = atomHashOf type right := by
  simp only [atomHashOf, hashString, same]

theorem newHashedAtom_again (holds : Holds rt (p :: values) atoms)
    (found : rt.cell p = some c) (same : c.atomType = type) (hashed : type.hashed = true) :
    ∃ i rt', newHashedAtom p type mem rt = some (i, rt') ∧ Holds rt' values (keepAtoms i atoms) := by
  obtain ⟨held, -⟩ := holds.value p mem_cons_self
  have isAtom : c.atomType ≠ .none := by
    intro plain
    rw [← same, plain] at hashed
    cases hashed
  obtain ⟨i, above, place⟩ := (holds.table.slots.place_of held found).resolve_left isAtom
  have index := jsGetAtomIndex_spec holds.table place found (same ▸ hashed)
  obtain ⟨bounds, -, named⟩ := holds.counted p held c found
  have count := named i above place
  rw [count_cons_self] at count
  have others : ∀ q, q ≠ p → values.count q = (p :: values).count q := fun q other => by simp [other.symm]
  have otherAtoms : ∀ j, j ≠ i → (i :: atoms).count j = atoms.count j := fun j other => by simp [other.symm]
  by_cases const : atomIsConst i = true
  · refine ⟨i, rt.setCell p { c with refCount := c.refCount - 1 }, ?_, ?_⟩
    · simp [newHashedAtom, found, same, index, const, int32_of_small (n := c.refCount - 1) (by omega) (by omega)]
    · rw [keepAtoms_of_pos above.ne']
      simp only [atomRefs, const, if_true] at count
      apply holds.setAtomCount above place found (by omega) others otherAtoms
      simp only [atomRefs, const, if_true]
      omega
  · refine ⟨i, rt, by simp [newHashedAtom, found, same, index, const], ?_⟩
    rw [keepAtoms_of_pos above.ne']
    simp only [atomRefs, const, Bool.false_eq_true, if_false] at count
    apply holds.recountAtom above place found others otherAtoms
    simp only [atomRefs, const, Bool.false_eq_true, if_false, count_cons_self]
    omega

theorem newHashedAtom_spec (holds : Holds rt (p :: values) atoms) (room : values.length + atoms.length + 3 < 2 ^ 31)
    (fits : Fits mem rt) (hashed : type.hashed = true) :
    ∃ i rt', newHashedAtom p type mem rt = some (i, rt') ∧ Holds rt' values (keepAtoms i atoms) := by
  obtain ⟨held, c, present⟩ := holds.value p mem_cons_self
  by_cases same : c.atomType = type
  · exact newHashedAtom_again holds present same hashed
  have isAtom : type ≠ .none := by
    rintro rfl
    cases hashed
  obtain ⟨found, search, hit, miss⟩ := findLoop_table holds.table
    (sameAtom (atomHashOf type c.contents) type c.contents) (atomHashOf type c.contents)
  simp only [newHashedAtom, present, same, search, bind_eq_bind, bind_some, if_false]
  cases found with
  | some i =>
    obtain ⟨positive, q, place⟩ := hit i rfl
    obtain ⟨rt1, dup, holds1⟩ := jsDupAtom_spec holds (by simp only [length_cons]; omega) positive place
    obtain ⟨rt', finished, after⟩ := finishWith_spec (i := i) holds1
    refine ⟨i, rt', by simp [dup, finished], ?_⟩
    rwa [keepAtoms_of_pos positive.ne']
  | none =>
    refine createAtom_spec holds present isAtom (fun _ => rfl) ?_ fits
    intro _ j d there types contents
    have stored := holds.table.slots.hashes j d there (types ▸ hashed)
    rw [types, atomHashOf_congr contents] at stored
    have differs := miss rfl j d there (types ▸ hashed) stored
    simp [sameAtom, stored, types, contents] at differs

theorem jsNewAtom_spec (type : NewType) (holds : Holds rt (p :: values) atoms)
    (room : values.length + atoms.length + 3 < 2 ^ 31) (fits : Fits mem rt) :
    ∃ i rt', jsNewAtom (some p) type mem rt = some (i, rt') ∧ Holds rt' values (keepAtoms i atoms) := by
  obtain ⟨-, c, present⟩ := holds.value p mem_cons_self
  have symbol : ∀ hash, ∃ i rt', createAtom (some p) hash .symbol mem rt = some (i, rt') ∧
      Holds rt' values (keepAtoms i atoms) := fun hash =>
    createAtom_spec holds present (by decide) (fun hashed => by cases hashed)
      (fun hashed => by cases hashed) fits
  cases type with
  | string | globalSymbol => exact newHashedAtom_spec holds room fits rfl
  | symbol => exact symbol 0
  | privateName => exact symbol 1

theorem jsNewAtomStr_spec (holds : Holds rt (p :: values) atoms) (room : values.length + atoms.length + 3 < 2 ^ 31)
    (fits : Fits mem rt) :
    ∃ i rt', jsNewAtomStr p mem rt = some (i, rt') ∧ Holds rt' values (keepAtoms i atoms) := by
  obtain ⟨-, c, present⟩ := holds.value p mem_cons_self
  by_cases number : isNumString c.contents = true
  · obtain ⟨rt', finished, after⟩ := finishWith_spec (i := 0) holds
    exact ⟨0, rt', by simp [jsNewAtomStr, present, number, finished], after⟩
  · obtain ⟨i, rt', made, after⟩ := jsNewAtom_spec .string holds room fits
    exact ⟨i, rt', by simp [jsNewAtomStr, present, number, made], after⟩

theorem jsFindAtom_spec (bytes : List (BitVec 8)) (holds : Holds rt values atoms)
    (room : values.length + atoms.length + 2 < 2 ^ 31) :
    ∃ i rt', jsFindAtom bytes rt = some (i, rt') ∧ Holds rt' values (keepAtoms i atoms) ∧ (i = 0 → rt' = rt) := by
  let contents : JsString := ⟨false, bytes.map (BitVec.setWidth 16)⟩
  obtain ⟨found, search, hit, -⟩ := findLoop_table holds.table (fun c =>
    sameAtom (atomHashOf .string contents) .string contents c && !c.contents.isWideChar)
    (atomHashOf .string contents)
  unfold jsFindAtom
  simp only [contents] at search
  simp only [search, bind_eq_bind, bind_some]
  cases found with
  | none => exact ⟨0, rt, rfl, holds, fun _ => rfl⟩
  | some i =>
    obtain ⟨positive, q, place⟩ := hit i rfl
    obtain ⟨rt1, dup, holds1⟩ := jsDupAtom_spec holds room positive place
    refine ⟨i, rt1, by simp [dup], ?_, fun zero => by omega⟩
    rwa [keepAtoms_of_pos positive.ne']

/-- The blocks of `JS_NewAtomLen`, which allocates the string before the atom. -/
structure LenFits (block : Option (Ptr × Nat)) (mem : Memory) (rt : Runtime) : Prop where
  string : ∀ p usableSize, block = some (p, usableSize) → rt.cell p = none ∧
    mem.nullAtom ≠ some p ∧ ∀ size, mem.block ≠ some (p, size)
  memory : Fits mem rt

theorem LenFits.alloc {contents : JsString} (fits : LenFits (some (p, usableSize)) mem rt) :
    Fits mem (allocString contents (p, usableSize) rt) := by
  obtain ⟨-, notNull, notBlock⟩ := fits.string p usableSize rfl
  refine ⟨⟨fits.memory.growth.size, ?_⟩, ?_, fits.memory.apart⟩
  · intro empty q null
    have other : q ≠ p := fun same => notNull (same ▸ null)
    simp [allocString, Runtime.setCell, Function.update_of_ne other, fits.memory.growth.nullAtom empty q null]
  · intro q size block
    have other : q ≠ p := fun same => notBlock size (same ▸ block)
    simp [allocString, Runtime.setCell, Function.update_of_ne other, fits.memory.block q size block]

theorem jsNewAtomLen_spec (bytes : List (BitVec 8)) (decoded : JsString) {block : Option (Ptr × Nat)}
    (holds : Holds rt values atoms) (room : values.length + atoms.length + 3 < 2 ^ 31) (fits : LenFits block mem rt) :
    ∃ i rt', jsNewAtomLen bytes decoded block mem rt = some (i, rt') ∧ Holds rt' values (keepAtoms i atoms) := by
  have fallback : ∃ i rt', (block.elim (some (0, rt)) fun block =>
      jsNewAtomStr block.1 mem (allocString decoded block rt)) = some (i, rt') ∧
        Holds rt' values (keepAtoms i atoms) := by
    cases block with
    | none => exact ⟨0, rt, rfl, holds⟩
    | some answer =>
      obtain ⟨p, usableSize⟩ := answer
      have vacant := (fits.string p usableSize rfl).1
      exact jsNewAtomStr_spec (holds.alloc vacant rfl rfl) room fits.alloc
  unfold jsNewAtomLen
  by_cases digit : startsWithDigit bytes = true
  · simp only [digit, if_true]
    cases block <;> exact fallback
  · simp only [digit]
    obtain ⟨i, rt1, search, after, missed⟩ := jsFindAtom_spec bytes holds (by omega)
    simp only [search, bind_eq_bind, bind_some]
    by_cases zero : i = 0
    · rw [if_neg (not_not.mpr zero), missed zero]
      cases block <;> exact fallback
    · rw [if_pos zero]
      exact ⟨i, rt1, rfl, after⟩

end Create

end Atoms
