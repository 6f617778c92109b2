import Partikle.Lib.Greedy
import Partikle.Regexp.Exec

/-!
The atoms of the simple quantifier: what they do to the place in the text, and where `PREV_CHAR` undoes it.
-/

namespace Regexp

open Text Function Option

variable (ctx : ExecContext)

def charEnd (cptr : Nat) : Nat := if pairAt ctx cptr ctx.cbuf.length then cptr + 2 else cptr + 1

def MidPair (cptr : Nat) : Prop :=
  ctx.cbufType = 2 ∧ 0 < cptr ∧ cptr < ctx.cbuf.length ∧ isHiSurrogate (ctx.cbuf.getD (cptr - 1) 0) = true ∧
    isLoSurrogate (ctx.cbuf.getD cptr 0) = true

instance (cptr : Nat) : Decidable (MidPair ctx cptr) := inferInstanceAs (Decidable (_ ∧ _))

variable {ctx}

variable {cptr : Nat}

section Characters

theorem not_hi_and_lo {c : Nat} (hi : isHiSurrogate c = true) (lo : isLoSurrogate c = true) : False := by
  rw [isHiSurrogate_iff] at hi
  rw [isLoSurrogate_iff] at lo
  omega

theorem pairAt_iff {index stop : Nat} :
    pairAt ctx index stop = true ↔ ctx.cbufType = 2 ∧ isHiSurrogate (ctx.cbuf.getD index 0) = true ∧
      index + 1 < stop ∧ isLoSurrogate (ctx.cbuf.getD (index + 1) 0) = true := by
  simp only [pairAt, Bool.and_eq_true, decide_eq_true_eq, and_assoc]

theorem getChar_eq (bound : cptr < ctx.cbuf.length) :
    ∃ c, getChar ctx ctx.cbuf.length cptr = some (c, charEnd ctx cptr) := by
  simp only [getChar, charEnd, List.getElem?_eq_getElem bound]
  split
  · exact ⟨_, rfl⟩
  · exact ⟨_, rfl⟩

theorem lt_charEnd (cptr : Nat) : cptr < charEnd ctx cptr := by
  unfold charEnd
  split <;> omega

theorem charEnd_le (bound : cptr < ctx.cbuf.length) : charEnd ctx cptr ≤ ctx.cbuf.length := by
  unfold charEnd
  split
  · rename_i pair
    have := (pairAt_iff.mp pair).2.2.1
    omega
  · omega

theorem charEnd_not_midPair (cptr : Nat) : ¬MidPair ctx (charEnd ctx cptr) := by
  rintro ⟨utf16, -, bound, hi, lo⟩
  unfold charEnd at bound hi lo
  split at bound
  · rename_i pair
    rw [if_pos pair] at hi
    exact not_hi_and_lo hi (pairAt_iff.mp pair).2.2.2
  · rename_i single
    rw [if_neg single] at hi lo
    exact single (pairAt_iff.mpr ⟨utf16, hi, bound, lo⟩)

theorem pairBefore_iff :
    pairBefore ctx 0 cptr = true ↔ ctx.cbufType = 2 ∧ isLoSurrogate (ctx.cbuf.getD (cptr - 1) 0) = true ∧
      0 < cptr - 1 ∧ isHiSurrogate (ctx.cbuf.getD (cptr - 2) 0) = true := by
  simp only [pairBefore, Bool.and_eq_true, decide_eq_true_eq, and_assoc]

theorem prevChar_eq (positive : 0 < cptr) (bound : cptr ≤ ctx.cbuf.length) :
    prevChar ctx cptr = some (if pairBefore ctx 0 cptr then cptr - 2 else cptr - 1) := by
  have inside : cptr - 1 < ctx.cbuf.length := by omega
  simp only [prevChar, getPrevChar, if_neg positive.ne', List.getElem?_eq_getElem inside]
  split
  · rfl
  · rfl

/-- `PREV_CHAR` undoes `GET_CHAR`, except between the halves of a pair. -/
theorem prevChar_charEnd (bound : cptr < ctx.cbuf.length) :
    prevChar ctx (charEnd ctx cptr) = some (if MidPair ctx cptr then cptr - 1 else cptr) := by
  rw [prevChar_eq ((Nat.zero_le _).trans_lt (lt_charEnd cptr)) (charEnd_le bound)]
  by_cases pair : pairAt ctx cptr ctx.cbuf.length = true
  · obtain ⟨utf16, hi, -, lo⟩ := pairAt_iff.mp pair
    have before : pairBefore ctx 0 (cptr + 2) = true := pairBefore_iff.mpr ⟨utf16, lo, by omega, hi⟩
    have notMid : ¬MidPair ctx cptr := fun mid => not_hi_and_lo hi mid.2.2.2.2
    rw [charEnd, if_pos pair, if_pos before, if_neg notMid, Nat.add_sub_cancel]
  · rw [charEnd, if_neg pair]
    have same : pairBefore ctx 0 (cptr + 1) = true ↔ MidPair ctx cptr := by
      rw [pairBefore_iff]
      constructor
      · rintro ⟨utf16, lo, positive, hi⟩
        exact ⟨utf16, positive, bound, hi, lo⟩
      · rintro ⟨utf16, positive, -, hi, lo⟩
        exact ⟨utf16, lo, positive, hi⟩
    simp only [same]
    split <;> simp

end Characters

section Examine

def REOp.isSimple (op : REOp) : Bool := op.readsChar || op.asserts

variable {cptr' : Nat} {op : REOp}

theorem testChar_goes {test : Nat → Bool} (goes : testChar ctx test cptr = some (.goes cptr')) :
    cptr < ctx.cbuf.length ∧ cptr' = charEnd ctx cptr := by
  unfold testChar at goes
  split at goes
  · cases goes
  · have bound : cptr < ctx.cbuf.length := by omega
    obtain ⟨c, read⟩ := getChar_eq bound
    rw [read] at goes
    simp only [map_some, some.injEq] at goes
    split at goes
    · cases goes
      exact ⟨bound, rfl⟩
    · cases goes

theorem peekChar_total (bound : cptr < ctx.cbuf.length) : ∃ c, peekChar ctx cptr = some c := by
  obtain ⟨c, read⟩ := getChar_eq bound
  exact ⟨c, by rw [peekChar, read]; rfl⟩

theorem peekPrevChar_total (positive : 0 < cptr) (bound : cptr ≤ ctx.cbuf.length) :
    ∃ c, peekPrevChar ctx cptr = some c := by
  obtain ⟨r, read, -⟩ := map_eq_some_iff.mp (prevChar_eq positive bound)
  exact ⟨r.1, by rw [peekPrevChar, read]; rfl⟩

theorem atWordBoundary_total (bound : cptr ≤ ctx.cbuf.length) : ∃ b, atWordBoundary ctx cptr = some b := by
  have before : ∃ b, wordBefore ctx cptr = some b := by
    unfold wordBefore
    split
    · exact ⟨_, rfl⟩
    · obtain ⟨c, read⟩ := peekPrevChar_total (show 0 < cptr by omega) bound
      exact ⟨_, by rw [read]; rfl⟩
  have behind : ∃ b, wordBehind ctx cptr = some b := by
    unfold wordBehind
    split
    · exact ⟨_, rfl⟩
    · obtain ⟨c, read⟩ := peekChar_total (show cptr < ctx.cbuf.length by omega)
      exact ⟨_, by rw [read]; rfl⟩
  obtain ⟨b, first⟩ := before
  obtain ⟨b', second⟩ := behind
  exact ⟨b ^^ b', by rw [atWordBoundary, first, second]; rfl⟩

theorem examine_readsChar (reads : op.readsChar = true) (cptr : Nat) :
    examine ctx op cptr = testChar ctx (charTest ctx op) cptr := by
  cases op <;> first | rfl | exact Bool.noConfusion reads

theorem examine_total (simple : op.isSimple = true) (bound : cptr ≤ ctx.cbuf.length) :
    ∃ v, examine ctx op cptr = some v := by
  by_cases reads : op.readsChar = true
  · rw [examine_readsChar reads, testChar]
    split
    · exact ⟨_, rfl⟩
    · obtain ⟨c, read⟩ := getChar_eq (show cptr < ctx.cbuf.length by omega)
      exact ⟨_, by rw [read]; rfl⟩
  have asserts : op.asserts = true := by simpa [REOp.isSimple, reads] using simple
  cases op <;> first | exact Bool.noConfusion asserts | skip
  case lineStart =>
    simp only [examine]
    split
    · exact ⟨_, rfl⟩
    · split
      · exact ⟨_, rfl⟩
      · obtain ⟨c, read⟩ := peekPrevChar_total (show 0 < cptr by omega) bound
        exact ⟨_, by rw [read]; rfl⟩
  case lineEnd =>
    simp only [examine]
    split
    · exact ⟨_, rfl⟩
    · split
      · exact ⟨_, rfl⟩
      · obtain ⟨c, read⟩ := peekChar_total (show cptr < ctx.cbuf.length by omega)
        exact ⟨_, by rw [read]; rfl⟩
  case wordBoundary | notWordBoundary =>
    obtain ⟨b, found⟩ := atWordBoundary_total bound
    exact ⟨_, by rw [examine, found]; rfl⟩

theorem examine_reads (reads : op.readsChar = true)
    (goes : examine ctx op cptr = some (.goes cptr')) : cptr < ctx.cbuf.length ∧ cptr' = charEnd ctx cptr := by
  rw [examine_readsChar reads] at goes
  exact testChar_goes goes

theorem verdict_goes {holds : Bool} (goes : verdict holds cptr = .goes cptr') : cptr' = cptr := by
  cases holds
  · cases goes
  · cases goes
    rfl

theorem examine_asserts (asserts : op.asserts = true)
    (goes : examine ctx op cptr = some (.goes cptr')) : cptr' = cptr := by
  cases op <;> first | exact Bool.noConfusion asserts | skip
  all_goals simp only [examine] at goes
  case lineStart | lineEnd =>
    split at goes
    · cases goes
      rfl
    · split at goes
      · cases goes
      · obtain ⟨c, -, same⟩ := map_eq_some_iff.mp goes
        exact verdict_goes same
  case wordBoundary | notWordBoundary =>
    obtain ⟨b, -, same⟩ := map_eq_some_iff.mp goes
    exact verdict_goes same

theorem examine_goes_le (simple : op.isSimple = true) (bound : cptr ≤ ctx.cbuf.length)
    (goes : examine ctx op cptr = some (.goes cptr')) : cptr' ≤ ctx.cbuf.length := by
  by_cases reads : op.readsChar = true
  · obtain ⟨inside, rfl⟩ := examine_reads reads goes
    exact charEnd_le inside
  · have asserts : op.asserts = true := by simpa [REOp.isSimple, reads] using simple
    rwa [examine_asserts asserts goes]

end Examine

section Atoms

variable (ctx) in
def atomEnd : List REOp → Nat → Option Nat
  | [], cptr => some cptr
  | op :: atom, cptr =>
    match examine ctx op cptr with
    | some (.goes cptr') => atomEnd atom cptr'
    | _ => none

/-- A simple atom of `count` characters. -/
def Simple (atom : List REOp) (count : Nat) : Prop := reIsSimpleQuantifier atom = some count

variable {atom : List REOp} {count : Nat}

theorem Simple.cons {op : REOp} (simple : Simple (op :: atom) count) :
    op.isSimple = true ∧ ∃ count', Simple atom count' ∧ count = count' + (if op.readsChar then 1 else 0) := by
  unfold Simple reIsSimpleQuantifier at simple
  split at simple
  · rename_i reads
    obtain ⟨count', rest, rfl⟩ := map_eq_some_iff.mp simple
    exact ⟨by simp [REOp.isSimple, reads], count', rest, by simp [reads]⟩
  · rename_i still
    split at simple
    · rename_i asserts
      exact ⟨by simp [REOp.isSimple, asserts], count, simple, by simp [still]⟩
    · cases simple

variable {cptr' : Nat}

theorem Simple.atomEnd_eq (simple : Simple atom count) (ends : atomEnd ctx atom cptr = some cptr') :
    cptr' = (charEnd ctx)^[count] cptr ∧ ∀ i < count, (charEnd ctx)^[i] cptr < ctx.cbuf.length := by
  induction atom generalizing count cptr with
  | nil =>
    cases simple
    cases ends
    exact ⟨rfl, fun i bound => absurd bound (Nat.not_lt_zero i)⟩
  | cons op atom ih =>
    obtain ⟨isSimple, count', rest, counted⟩ := simple.cons
    unfold atomEnd at ends
    split at ends
    · rename_i next goes
      obtain ⟨ended, inside⟩ := ih rest ends
      by_cases reads : op.readsChar = true
      · obtain ⟨bound, rfl⟩ := examine_reads reads goes
        rw [if_pos reads] at counted
        subst counted
        refine ⟨ended, fun i below => ?_⟩
        cases i with
        | zero => exact bound
        | succ i => exact inside i (by omega)
      · have asserts : op.asserts = true := by simpa [REOp.isSimple, reads] using isSimple
        rw [if_neg reads] at counted
        rw [examine_asserts asserts goes] at ended inside
        subst counted
        exact ⟨ended, inside⟩
    · cases ends

theorem le_charEnd_iterate (count cptr : Nat) : cptr + count ≤ (charEnd ctx)^[count] cptr := by
  induction count generalizing cptr with
  | zero => exact le_rfl
  | succ count ih =>
    have first : cptr < charEnd ctx cptr := lt_charEnd cptr
    have rest := ih (charEnd ctx cptr)
    rw [iterate_succ_apply]
    omega

theorem goBackward_charEnd {count : Nat} (inside : ∀ i < count + 1, (charEnd ctx)^[i] cptr < ctx.cbuf.length) :
    goBackward ctx (count + 1) ((charEnd ctx)^[count + 1] cptr) =
      some (if MidPair ctx cptr then cptr - 1 else cptr) := by
  induction count with
  | zero =>
    rw [goBackward, iterate_succ_apply', prevChar_charEnd (inside 0 (Nat.zero_lt_one))]
    rfl
  | succ count ih =>
    have notMid : ¬MidPair ctx ((charEnd ctx)^[count + 1] cptr) := by
      rw [iterate_succ_apply']
      exact charEnd_not_midPair _
    rw [goBackward, iterate_succ_apply', prevChar_charEnd (inside (count + 1) (Nat.lt_succ_self _)),
      if_neg notMid, bind_some, ih fun i below => inside i (by omega)]

variable (ctx) in
def atomStart (count cptr : Nat) : Nat := (goBackward ctx count cptr).getD 0

section Back

variable (simple : Simple atom count)

include simple

theorem Simple.goBackward_atomEnd (chars : 0 < count) (ends : atomEnd ctx atom cptr = some cptr') :
    goBackward ctx count cptr' = some (if MidPair ctx cptr then cptr - 1 else cptr) := by
  obtain ⟨rfl, inside⟩ := simple.atomEnd_eq ends
  obtain ⟨count, rfl⟩ : ∃ k, count = k + 1 := ⟨count - 1, by omega⟩
  exact goBackward_charEnd inside

theorem Simple.lt_atomEnd (chars : 0 < count) (ends : atomEnd ctx atom cptr = some cptr') : cptr < cptr' := by
  obtain ⟨rfl, -⟩ := simple.atomEnd_eq ends
  have : cptr + count ≤ (charEnd ctx)^[count] cptr := le_charEnd_iterate count cptr
  omega

theorem Simple.atomEnd_le (bound : cptr ≤ ctx.cbuf.length)
    (ends : atomEnd ctx atom cptr = some cptr') : cptr' ≤ ctx.cbuf.length := by
  obtain ⟨rfl, inside⟩ := simple.atomEnd_eq ends
  cases count with
  | zero => exact bound
  | succ count =>
    rw [iterate_succ_apply']
    exact charEnd_le (inside count (Nat.lt_succ_self count))

theorem Simple.atomEnd_not_midPair (chars : 0 < count)
    (ends : atomEnd ctx atom cptr = some cptr') : ¬MidPair ctx cptr' := by
  obtain ⟨rfl, -⟩ := simple.atomEnd_eq ends
  obtain ⟨count, rfl⟩ : ∃ k, count = k + 1 := ⟨count - 1, by omega⟩
  rw [iterate_succ_apply']
  exact charEnd_not_midPair _

theorem Simple.undoes (chars : 0 < count) : Greedy.Undoes (atomEnd ctx atom) (atomStart ctx count) (· ≤ ctx.cbuf.length)
      (fun cptr => cptr ≤ ctx.cbuf.length ∧ ¬MidPair ctx cptr) where
  weaken := fun _ good => good.1
  closed := fun _ _ bound ends => ⟨simple.atomEnd_le bound ends, simple.atomEnd_not_midPair chars ends⟩
  undo := fun cptr cptr' good ends => by
    rw [atomStart, simple.goBackward_atomEnd chars ends, if_neg good.2, getD_some]

end Back

end Atoms

end Regexp
