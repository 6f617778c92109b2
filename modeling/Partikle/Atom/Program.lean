import Partikle.Atom.Create
import Mathlib.Data.List.Perm.Basic

/-!
Concatenation and whole programs: in a run that never extends a chained atom in
place, every step has a result and keeps the table.
-/

namespace Atoms

open Strings HashChain Option List

/-- `JS_ConcatStringInPlace` does not extend a string that the table chains. -/
def AppendKeeps (p1 p2 : Ptr) (rt : Runtime) : Prop :=
  ∀ c1 c2, rt.cell p1 = some c1 → rt.cell p2 = some c2 → c2.contents.len ≠ 0 →
    appendsInPlace c1 c2 = true → c1.atomType.hashed = false

def BlockFits (block : Option (Ptr × Nat)) (rt : Runtime) : Prop :=
  ∀ p usableSize, block = some (p, usableSize) → rt.cell p = none

section Concat

variable {rt rt' : Runtime} {values : List Ptr} {atoms : List Nat} {p p1 p2 : Ptr} {c c1 c2 : Cell}
  {block : Option (Ptr × Nat)}

theorem Holds.setContents (holds : Holds rt values atoms) (found : rt.cell p = some c) (held : rt.ptrAt 0 ≠ some p)
    (unhashed : c.atomType.hashed = false) (contents : JsString) :
    Holds (rt.setCell p { c with contents := contents }) values atoms := by
  have same : SameAtom c { c with contents := contents } :=
    ⟨rfl, rfl, rfl, fun hashed => by rw [unhashed] at hashed; cases hashed⟩
  refine holds.change (holds.table.setCell found same) (fun _ => core_setCell_of_ne) (fun _ _ _ => .rfl)
    (fun _ _ => rfl) (fun _ _ _ => rfl) (fun _ _ place => place) held (fun _ => ⟨_, cell_setCell_self⟩) ?_
  intro d present
  rw [cell_setCell_self] at present
  cases present
  exact holds.counted p held c found

theorem jsConcatStringInPlace_spec (holds : Holds rt values atoms) (found1 : rt.cell p1 = some c1)
    (held : rt.ptrAt 0 ≠ some p1) (found2 : rt.cell p2 = some c2) (keeps : AppendKeeps p1 p2 rt) :
    ∃ done rt', jsConcatStringInPlace p1 p2 rt = some (done, rt') ∧ Holds rt' values atoms ∧
      (done = false → rt' = rt ∧ c2.contents.len ≠ 0) := by
  by_cases empty : c2.contents.len = 0
  · exact ⟨true, rt, by simp [jsConcatStringInPlace, found1, found2, empty], holds, nofun⟩
  · by_cases appends : appendsInPlace c1 c2 = true
    · let contents : JsString := ⟨c1.contents.isWideChar, c1.contents.units ++ c2.contents.units⟩
      refine ⟨true, rt.setCell p1 { c1 with contents := contents }, ?_,
        holds.setContents found1 held (keeps c1 c2 found1 found2 empty appends) contents, nofun⟩
      simp [jsConcatStringInPlace, found1, found2, empty, appends, contents]
    · exact ⟨false, rt, by simp [jsConcatStringInPlace, found1, found2, empty, appends], holds,
        fun _ => ⟨rfl, empty⟩⟩

theorem jsConcatString1_spec (c1 c2 : Cell) (holds : Holds rt values atoms) (fits : BlockFits block rt) :
    ∃ result rt', jsConcatString1 c1 c2 block rt = (result, rt') ∧ Holds rt' (result.toList ++ values) atoms := by
  unfold jsConcatString1
  by_cases long : c1.contents.len + c2.contents.len > JS_STRING_LEN_MAX
  · exact ⟨none, rt, by rw [if_pos long], holds⟩
  · rw [if_neg long]
    cases block with
    | none => exact ⟨none, rt, rfl, holds⟩
    | some answer =>
      obtain ⟨p, usableSize⟩ := answer
      exact ⟨some p, _, rfl, holds.alloc (fits p usableSize rfl) rfl rfl⟩

theorem jsConcatString_spec (holds : Holds rt (p1 :: p2 :: values) atoms) (fits : BlockFits block rt)
    (keeps : AppendKeeps p1 p2 rt) :
    ∃ result rt', jsConcatString p1 p2 block rt = some (result, rt') ∧ Holds rt' (result.toList ++ values) atoms := by
  obtain ⟨held, c1, found1⟩ := holds.value p1 (by simp)
  obtain ⟨-, c2, found2⟩ := holds.value p2 (by simp)
  obtain ⟨done, rt1, inPlace, holds1, unchanged⟩ := jsConcatStringInPlace_spec holds found1 held found2 keeps
  unfold jsConcatString
  simp only [inPlace, bind_eq_bind, bind_some]
  cases done with
  | true =>
    obtain ⟨rt', freed, after, -⟩ :=
      jsFreeString_spec (holds1.perm (Perm.swap p2 p1 values) .rfl)
    exact ⟨some p1, rt', by simp [freed], after⟩
  | false =>
    obtain ⟨rfl, -⟩ := unchanged rfl
    simp only [Bool.false_eq_true, if_false, found1, found2, bind_some]
    obtain ⟨result, rt2, made, holds2⟩ := jsConcatString1_spec c1 c2 holds fits
    have first : Holds rt2 (p1 :: (result.toList ++ p2 :: values)) atoms :=
      holds2.perm perm_middle .rfl
    obtain ⟨rt3, freed1, holds3, -⟩ := jsFreeString_spec first
    have second : Holds rt3 (p2 :: (result.toList ++ values)) atoms :=
      holds3.perm perm_middle .rfl
    obtain ⟨rt4, freed2, holds4, -⟩ := jsFreeString_spec second
    exact ⟨result, rt4, by simp [made, freed1, freed2], holds4⟩

theorem addLoc_spec (holds : Holds rt (p1 :: p2 :: values) atoms) (room : values.length + atoms.length + 4 < 2 ^ 31)
    (fits : BlockFits block rt) (keeps : AppendKeeps p1 p2 rt) :
    ∃ result rt', addLoc p1 p2 block rt = some (result, rt') ∧ Holds rt' (result.getD p1 :: values) atoms := by
  obtain ⟨held, c1, found1⟩ := holds.value p1 (by simp)
  obtain ⟨-, c2, found2⟩ := holds.value p2 (by simp)
  obtain ⟨done, rt1, inPlace, holds1, unchanged⟩ := jsConcatStringInPlace_spec holds found1 held found2 keeps
  unfold addLoc
  simp only [inPlace, bind_eq_bind, bind_some]
  cases done with
  | true =>
    obtain ⟨rt', freed, after, -⟩ :=
      jsFreeString_spec (holds1.perm (Perm.swap p2 p1 values) (Perm.refl _))
    exact ⟨some p1, rt', by simp [freed], after⟩
  | false =>
    obtain ⟨rfl, -⟩ := unchanged rfl
    have room : (p1 :: p2 :: values).length + atoms.length + 2 < 2 ^ 31 := by
      simp only [length_cons]
      omega
    obtain ⟨rt2, dup, holds2⟩ := jsDupString_spec holds room found1 held
    have raised : rt2 = rt1.setCell p1 { c1 with refCount := c1.refCount + 1 } :=
      some.inj (dup.symm.trans (jsDupString_eq holds room found1 held))
    have positive := (holds.counted p1 held c1 found1).1
    have shared : AppendKeeps p1 p2 rt2 := by
      have now : rt2.cell p1 = some { c1 with refCount := c1.refCount + 1 } := by
        simp [raised, Runtime.setCell]
      intro d1 d2 present1 _ _ appends
      rw [now] at present1
      cases present1
      have shared : c1.refCount + 1 ≠ 1 := by omega
      simp [appendsInPlace, shared] at appends
    have vacant : BlockFits block rt2 := by
      intro q usableSize same
      have fresh := fits q usableSize same
      have other : q ≠ p1 := by
        rintro rfl
        simp [found1] at fresh
      simp [raised, Runtime.setCell, Function.update_of_ne other, fresh]
    have order : Holds rt2 (p1 :: p2 :: p1 :: values) atoms :=
      holds2.perm (Perm.cons p1 (Perm.swap p2 p1 values)) .rfl
    obtain ⟨result, rt3, concat, holds3⟩ := jsConcatString_spec order vacant shared
    simp only [dup, concat, bind_some]
    cases result with
    | none => exact ⟨none, rt3, rfl, holds3⟩
    | some new =>
      obtain ⟨rt4, freed, holds4, -⟩ :=
        jsFreeString_spec (holds3.perm (Perm.swap p1 new values) .rfl)
      exact ⟨some new, rt4, by simp [freed], holds4⟩

end Concat

/-- The memory an operation is given is free, the array does not grow beyond what `int`
arithmetic allows, the hash table gets a size that its function accepts, and no chained
atom is extended. -/
def Allowed (op : Op) (prog : Program) : Prop :=
  match op with
  | .newString _ block => prog.rt.cell block.1 = none
  | .newAtomStr _ mem => Fits mem prog.rt
  | .newSymbol _ _ mem => Fits mem prog.rt
  | .newNamelessSymbol _ mem => Fits mem prog.rt
  | .newAtomLen _ _ block mem => LenFits block mem prog.rt
  | .resizeHash size _ => ∃ k, size = 2 ^ k
  | .concat k1 k2 block => BlockFits block prog.rt ∧ ∀ p1 p2, prog.values[k1]? = some p1 →
      (prog.takeValue k1).values[k2]? = some p2 → AppendKeeps p1 p2 prog.rt
  | .addLoc k1 k2 block => BlockFits block prog.rt ∧ ∀ p1 p2, prog.values[k2]? = some p2 →
      (prog.takeValue k2).values[k1]? = some p1 → AppendKeeps p1 p2 prog.rt
  | _ => True

/-- Every operation is allowed, and before it fewer than 2^31 references are held, with those that a call takes. -/
def RunAllowed : List Op → Program → Prop
  | [], _ => True
  | op :: ops, prog => prog.values.length + prog.atoms.length + 3 < 2 ^ 31 ∧ Allowed op prog ∧
      ∀ prog', step op prog = some prog' → RunAllowed ops prog'

def Program.Ok (prog : Program) : Prop := Holds prog.rt prog.values prog.atoms

variable {k : Nat} {values : List Ptr} {atoms : List Nat} {rt : Runtime} {op : Op}

section Steps

variable {prog : Program}

theorem perm_eraseIdx {l : List Nat} {a : Nat} (found : l[k]? = some a) : l.Perm (a :: l.eraseIdx k) := by
  obtain ⟨inside, rfl⟩ := List.getElem?_eq_some_iff.mp found
  exact (getElem_cons_eraseIdx_perm inside).symm

theorem Program.Ok.take {p : Ptr} (ok : prog.Ok) (found : prog.values[k]? = some p) :
    Holds prog.rt (p :: (prog.takeValue k).values) prog.atoms :=
  Holds.perm ok (perm_eraseIdx found) (Perm.refl _)

theorem Program.Ok.takeTwo {k1 k2 : Nat} {p1 p2 : Ptr} (ok : prog.Ok)
    (first : prog.values[k1]? = some p1) (second : (prog.takeValue k1).values[k2]? = some p2) :
    Holds prog.rt (p1 :: p2 :: ((prog.takeValue k1).takeValue k2).values) prog.atoms :=
  (ok.take first).perm (Perm.cons p1 (perm_eraseIdx second)) (Perm.refl _)

theorem Holds.rehashed {rt' : Runtime} (holds : Holds rt values atoms)
    (table : Table rt') (rehashed : Rehashed rt rt') : Holds rt' values atoms := by
  refine ⟨table, ?_, ?_, ?_⟩
  · intro p member
    obtain ⟨held, c, found⟩ := holds.value p member
    obtain ⟨d, now, -⟩ := cell_eq_of_core (rehashed.core p).symm found
    exact ⟨by rwa [rehashed.ptrAt], d, now⟩
  · intro i member
    rw [rehashed.ptrAt]
    exact holds.atom i member
  · intro p held
    rw [rehashed.ptrAt] at held
    refine (holds.counted p held).congr (rehashed.core p) ?_ rfl (fun _ _ => rfl)
    intro i place
    rwa [← rehashed.ptrAt]

theorem step_ok (steps : step op prog = some ⟨rt, values, atoms⟩) (holds : Holds rt values atoms) :
    ∃ prog', step op prog = some prog' ∧ prog'.Ok := ⟨_, steps, holds⟩

theorem length_takeValue {p : Ptr} (found : prog.values[k]? = some p) :
    (prog.takeValue k).values.length + 1 = prog.values.length := by
  have same := (perm_eraseIdx found).length_eq
  simpa [Program.takeValue] using same.symm

theorem step_spec (ok : prog.Ok) (room : prog.values.length + prog.atoms.length + 3 < 2 ^ 31)
    (allowed : Allowed op prog) : ∃ prog', step op prog = some prog' ∧ prog'.Ok := by
  cases op with
  | newString contents block => exact step_ok rfl (Holds.alloc ok allowed rfl rfl)
  | dupValue k =>
    cases found : prog.values[k]? with
    | none => exact ⟨prog, by simp [step, found], ok⟩
    | some p =>
      obtain ⟨held, c, present⟩ := ok.value p (mem_of_getElem? found)
      obtain ⟨rt', dup, after⟩ := jsDupString_spec ok (by omega) present held
      exact step_ok (by simp only [step, found, dup]; rfl) after
  | freeValue k =>
    cases found : prog.values[k]? with
    | none => exact ⟨prog, by simp [step, found], ok⟩
    | some p =>
      obtain ⟨rt', freed, after, -⟩ := jsFreeString_spec (ok.take found)
      exact step_ok (by simp only [step, found, freed]; rfl) after
  | newAtomStr k mem =>
    cases found : prog.values[k]? with
    | none => exact ⟨prog, by simp [step, found], ok⟩
    | some p =>
      obtain ⟨i, rt', made, after⟩ :=
        jsNewAtomStr_spec (ok.take found) (by have := length_takeValue found; omega) allowed
      exact step_ok (by simp only [step, found, made]; rfl) after
  | newSymbol k type mem =>
    cases found : prog.values[k]? with
    | none => exact ⟨prog, by simp [step, found], ok⟩
    | some p =>
      obtain ⟨i, rt', made, after⟩ :=
        jsNewAtom_spec type (ok.take found) (by have := length_takeValue found; omega) allowed
      exact step_ok (by simp only [step, found, made]; rfl) after
  | newNamelessSymbol type mem =>
    cases type with
    | string | globalSymbol => exact ⟨prog, rfl, ok⟩
    | symbol =>
      obtain ⟨i, rt', made, after⟩ := createAtom_none_spec 0 ok allowed
      exact step_ok (by simp only [step, jsNewAtom, made]; rfl) after
    | privateName =>
      obtain ⟨i, rt', made, after⟩ := createAtom_none_spec 1 ok allowed
      exact step_ok (by simp only [step, jsNewAtom, made]; rfl) after
  | newAtomLen bytes decoded block mem =>
    obtain ⟨i, rt', made, after⟩ := jsNewAtomLen_spec bytes decoded ok room allowed
    exact step_ok (by simp only [step, made]; rfl) after
  | atomToString k =>
    cases found : prog.atoms[k]? with
    | none => exact ⟨prog, by simp [step, found], ok⟩
    | some i =>
      obtain ⟨positive, p, place⟩ := ok.atom i (mem_of_getElem? found)
      obtain ⟨c, present, -⟩ := ok.table.slots.cells i p place
      obtain ⟨rt', dup, after⟩ := jsDupString_spec ok (by omega) present (ok.table.slots.held positive place)
      refine step_ok ?_ after
      simp [step, found, place, dup]
  | dupAtom k =>
    cases found : prog.atoms[k]? with
    | none => exact ⟨prog, by simp [step, found], ok⟩
    | some i =>
      obtain ⟨positive, p, place⟩ := ok.atom i (mem_of_getElem? found)
      obtain ⟨rt', dup, after⟩ := jsDupAtom_spec ok (by omega) positive place
      exact step_ok (by simp only [step, found, dup]; rfl) after
  | freeAtom k =>
    cases found : prog.atoms[k]? with
    | none => exact ⟨prog, by simp [step, found], ok⟩
    | some i =>
      have order : Holds prog.rt prog.values (i :: prog.atoms.eraseIdx k) :=
        Holds.perm ok .rfl (perm_eraseIdx found)
      obtain ⟨rt', freed, after⟩ := jsFreeAtom_spec order
      exact step_ok (by simp only [step, found, freed]; rfl) after
  | resizeHash size allocated =>
    obtain ⟨rt', resized, table, rehashed⟩ := jsResizeAtomHash_spec ok.table allowed allocated
    exact step_ok (by simp only [step, resized]; rfl) (Holds.rehashed ok table rehashed)
  | concat k1 k2 block =>
    cases found1 : prog.values[k1]? with
    | none => exact ⟨prog, by simp [step, found1], ok⟩
    | some p1 =>
      cases found2 : (prog.takeValue k1).values[k2]? with
      | none => exact ⟨prog, by simp [step, found1, found2], ok⟩
      | some p2 =>
        obtain ⟨result, rt', made, after⟩ := jsConcatString_spec
          (ok.takeTwo found1 found2) allowed.1 (allowed.2 p1 p2 found1 found2)
        exact step_ok (by simp only [step, found1, found2, made]; rfl) after
  | addLoc k1 k2 block =>
    cases found2 : prog.values[k2]? with
    | none => exact ⟨prog, by simp [step, found2], ok⟩
    | some p2 =>
      cases found1 : (prog.takeValue k2).values[k1]? with
      | none => exact ⟨prog, by simp [step, found1, found2], ok⟩
      | some p1 =>
        have order : Holds prog.rt (p1 :: p2 :: ((prog.takeValue k2).takeValue k1).values) prog.atoms :=
          (ok.takeTwo found2 found1).perm (Perm.swap p1 p2 _) .rfl
        have length2 := length_takeValue found2
        have length1 := length_takeValue found1
        obtain ⟨result, rt', made, after⟩ := addLoc_spec order (by omega) allowed.1 (allowed.2 p1 p2 found2 found1)
        cases result with
        | none =>
          apply step_ok (by simp only [step, found1, found2, made]; rfl)
          exact after.perm (perm_eraseIdx found1).symm .rfl
        | some new => exact step_ok (by simp only [step, found1, found2, made]; rfl) after

theorem run_spec {ops : List Op} (ok : prog.Ok) (allowed : RunAllowed ops prog) :
    ∃ prog', run ops prog = some prog' ∧ prog'.Ok := by
  induction ops generalizing prog with
  | nil => exact ⟨prog, rfl, ok⟩
  | cons op ops ih =>
    obtain ⟨room, first, rest⟩ := allowed
    obtain ⟨prog1, steps, ok1⟩ := step_spec ok room first
    obtain ⟨prog', runs, ok'⟩ := ih ok1 (rest prog1 steps)
    exact ⟨prog', by simp [run, steps, runs], ok'⟩

theorem emptyProgram_ok : emptyProgram.Ok := by
  have noSlot : ∀ i, emptyProgram.rt.ptrAt i = none := ptrAt_of_size_zero rfl
  have noCell : ∀ i, emptyProgram.rt.cellAt i = none := fun i => by simp [Runtime.cellAt, noSlot]
  refine ⟨⟨⟨?_, ?_, ?_, ?_, ?_, ?_, ?_⟩, ⟨8, rfl⟩, ?_, ?_, rfl⟩, ?_, ?_, ?_⟩
  · simp [noSlot]
  · simp [noSlot]
  · intro p c found
    cases found
  · intro nonempty
    cases nonempty
  · simp [noCell]
  · simp [noCell]
  · simp [noCell]
  · have empty : IsTable emptyProgram.rt.nextOf emptyProgram.rt.headOf emptyProgram.rt.atomHashSize
        (emptyProgram.rt.bucketAt emptyProgram.rt.atomHashSize) fun _ => False :=
      isTable_empty fun _ _ => rfl
    refine empty.of_iff ?_
    simp [Runtime.isHashed, noCell]
  · refine ⟨[], rfl, ?_⟩
    simp [Runtime.isFree, emptyProgram]
  · intro p member
    cases member
  · intro i member
    cases member
  · intro p _ c found
    cases found

end Steps

end Atoms
