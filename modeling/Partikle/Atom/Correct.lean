import Partikle.Atom.Program

/-!
The atom table over whole runs, and the run in which `+=` breaks it.
-/

namespace Atoms

open Strings HashChain List

def Runtime.chain (rt : Runtime) (b : Nat) : Option (List Nat) := walk rt.nextOf rt.chainFuel (rt.headOf b)

def Runtime.freeChain (rt : Runtime) : Option (List Nat) :=
  walk rt.freeNext rt.chainFuel (link rt.atomFreeIndex)

structure TableOk (rt : Runtime) : Prop where
  chained : ∀ i c, rt.cellAt i = some c → c.atomType.hashed = true → ∀ b < rt.atomHashSize,
    ∃ nodes, rt.chain b = some nodes ∧ nodes.count i =
      if b = bucketIn rt.atomHashSize (atomHashOf c.atomType c.contents) then 1 else 0
  distinct : ∀ i j c d, rt.cellAt i = some c → rt.cellAt j = some d → c.atomType.hashed = true →
    c.atomType = d.atomType → c.contents.units = d.contents.units → i = j
  free : ∃ nodes, rt.freeChain = some nodes ∧ nodes.Nodup ∧
    ∀ i, i ∈ nodes ↔ i < rt.atomSize ∧ rt.ptrAt i = none
  counted : rt.atomCount = (range rt.atomSize).countP fun i => (rt.ptrAt i).isSome

section Ok

variable {rt : Runtime}

theorem Table.chain_eq (table : Table rt) {b : Nat} (small : b < rt.atomHashSize) :
    ∃ nodes, rt.chain b = some nodes ∧ nodes.Nodup ∧ ∀ i, i ∈ nodes ↔ rt.isHashed i ∧
      rt.bucketAt rt.atomHashSize i = b := by
  obtain ⟨nodes, follows, members⟩ := table.chains.chains b small
  have length := chain_length follows fun node member => ((members node).mp member).1
  exact ⟨nodes, follows.walk_eq length, follows.nodup, members⟩

theorem isFree_iff {i : Nat} : rt.isFree i ↔ i < rt.atomSize ∧ rt.ptrAt i = none := by
  unfold Runtime.isFree Runtime.ptrAt
  by_cases inside : i < rt.atomSize
  · cases slot : rt.atomArray i <;> simp [inside]
  · simp [inside]

theorem Table.freeChain_eq (table : Table rt) :
    ∃ nodes, rt.freeChain = some nodes ∧ nodes.Nodup ∧ ∀ i, i ∈ nodes ↔ i < rt.atomSize ∧ rt.ptrAt i = none := by
  obtain ⟨nodes, follows, members⟩ := table.free
  have inside : nodes ⊆ range rt.atomSize := by
    intro node member
    exact mem_range.mpr ((members node).mp member).2.1
  have length := (subperm_of_subset follows.nodup inside).length_le
  rw [length_range] at length
  refine ⟨nodes, follows.walk_eq (Nat.lt_succ_of_le length), follows.nodup, ?_⟩
  intro i
  rw [members i, isFree_iff]
  refine ⟨And.right, fun vacant => ⟨Nat.pos_of_ne_zero ?_, vacant⟩⟩
  rintro rfl
  obtain ⟨c, there, -⟩ := table.slots.nullAtom vacant.1
  obtain ⟨p, place, -⟩ := cellAt_eq_some.mp there
  simp [vacant.2] at place

theorem Table.ok (table : Table rt) : TableOk rt := by
  refine ⟨?_, table.slots.distinct, table.freeChain_eq, table.counted⟩
  intro i c there hashed b small
  obtain ⟨nodes, walks, unique, members⟩ := table.chain_eq small
  refine ⟨nodes, walks, ?_⟩
  have bucket := bucketAt_eq rt.atomHashSize there
  rw [← table.slots.hashes i c there hashed]
  split
  · rename_i own
    exact count_eq_one_of_mem unique ((members i).mpr ⟨⟨c, there, hashed⟩, bucket.trans own.symm⟩)
  · rename_i other
    apply count_eq_zero.mpr
    intro member
    exact other (((members i).mp member).2.symm.trans bucket)

end Ok

/-- As long as no chained atom is extended in place, the table is right after every run. -/
theorem run_keeps_table (ops : List Op) (allowed : RunAllowed ops emptyProgram) :
    ∃ prog, run ops emptyProgram = some prog ∧ TableOk prog.rt := by
  obtain ⟨prog, runs, ok⟩ := run_spec emptyProgram_ok allowed
  exact ⟨prog, runs, ok.table.ok⟩

def extendThenIntern : List Op :=
  [.newString (ofString "a") (1, 40), .newString (ofString "b") (2, 40), .concat 1 0 none,
    .newAtomStr 0 ampleMemory]

theorem run_keeps_table_extendThenIntern :
    RunAllowed extendThenIntern emptyProgram ∧ ∃ prog, run extendThenIntern emptyProgram = some prog ∧
      TableOk prog.rt := by
  have allowed : RunAllowed extendThenIntern emptyProgram := by
    refine ⟨by decide, rfl, ?_⟩
    intro prog1 step1
    cases step1
    refine ⟨by decide, rfl, ?_⟩
    intro prog2 step2
    cases step2
    refine ⟨by decide, ⟨nofun, ?_⟩, ?_⟩
    · intro p1 p2 first second c1 c2 found1 found2 _ _
      cases first
      cases found1
      rfl
    · intro prog3 step3
      cases step3
      refine ⟨by decide, ⟨⟨fun _ => by decide, ?_⟩, nofun, nofun⟩, fun _ _ => trivial⟩
      intro _ p null
      cases null
      rfl
  exact ⟨allowed, run_keeps_table extendThenIntern allowed⟩

/-- The string `ab` is looked up as a property key, the property is let go, and `c` is
added to the variable that holds the string. -/
def keyThenAddLoc : List Op :=
  jsInitAtoms ++
    [.newString (ofString "ab") (1000, 40), .dupValue 0, .newAtomStr 0 ampleMemory, .freeAtom 0,
      .newString (ofString "c") (1001, 40), .addLoc 0 0 none]

def misplaced (prog : Program) : Bool :=
  match prog.rt.cellAt JS_ATOM_END with
  | none => false
  | some c => c.atomType == .string && c.contents.units == (ofString "abc").units &&
      decide (bucketIn prog.rt.atomHashSize (atomHashOf .string c.contents) < prog.rt.atomHashSize) &&
      (prog.rt.chain (bucketIn prog.rt.atomHashSize (atomHashOf .string c.contents))).any
        fun nodes => nodes.count JS_ATOM_END == 0

theorem not_tableOk_of_misplaced {prog : Program} (wrong : misplaced prog = true) : ¬TableOk prog.rt := by
  intro ok
  unfold misplaced at wrong
  cases there : prog.rt.cellAt JS_ATOM_END with
  | none => simp [there] at wrong
  | some c =>
    simp only [there, Bool.and_eq_true, beq_iff_eq, decide_eq_true_eq] at wrong
    obtain ⟨⟨⟨type, -⟩, small⟩, absent⟩ := wrong
    obtain ⟨nodes, walks, count⟩ := ok.chained JS_ATOM_END c there (by rw [type]; rfl) _ small
    rw [walks] at absent
    rw [type, if_pos rfl] at count
    simp [count] at absent

theorem addLoc_misplaces_atom : ∃ prog, run keyThenAddLoc emptyProgram = some prog ∧ ¬TableOk prog.rt := by
  have evaluated : (run keyThenAddLoc emptyProgram).any misplaced = true := by decide +kernel
  cases result : run keyThenAddLoc emptyProgram with
  | none => simp [result] at evaluated
  | some prog =>
    rw [result] at evaluated
    exact ⟨prog, rfl, not_tableOk_of_misplaced evaluated⟩

end Atoms
