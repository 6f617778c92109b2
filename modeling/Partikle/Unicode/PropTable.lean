import Partikle.Lib.Boundary
import Mathlib.Data.Nat.Bitwise

/-!
`lre_is_in_table`, which finds a code point in a run-length encoded table with the help of an index, and
`unicode_prop1`, which decodes the table from its start. Code points are sums of lengths that stay far below `2 ^ 32`.
-/

namespace Unicode

open Boundary List

/-- The lengths that the next bytes encode, and the bytes behind them. -/
def token : List Nat → Option (List Nat × List Nat)
  | [] => none
  | b :: p =>
    if b < 64 then some ([(b >>> 3) + 1, (b &&& 7) + 1], p)
    else if 0x80 ≤ b then some ([b - 0x80 + 1], p)
    else if b < 0x60 then p.head?.map fun x => ([((b - 0x40) <<< 8 ||| x) + 1], p.tail)
    else
      match p with
      | x :: y :: p => some ([((b - 0x60) <<< 16 ||| x <<< 8 ||| y) + 1], p)
      | _ => none

/-- One run: the code point is in it, and its bit is the answer, or the next run has the other bit. -/
def probe (c : Nat) (run : Nat × Bool) (len : Nat) : Except Bool (Nat × Bool) :=
  if c < run.1 + len then .error run.2 else .ok (run.1 + len, !run.2)

theorem token_shorter {p lens rest : List Nat} (read : token p = some (lens, rest)) : rest.length < p.length := by
  unfold token at read
  repeat' split at read
  all_goals simp_all
  all_goals grind

def isInTableLoop (c : Nat) (p : List Nat) (run : Nat × Bool) : Option Bool :=
  match _ : token p with
  | none => none
  | some (lens, p) =>
    match lens.foldlM (probe c) run with
    | .error bit => some bit
    | .ok run => isInTableLoop c p run
termination_by p.length
decreasing_by exact token_shorter ‹_›

def crAddInterval (cr : List Nat) (c1 c2 : Nat) : List Nat := cr ++ [c1, c2]

/-- The intervals so far, and what follows them. -/
abbrev Decoding := List Nat × Nat × Bool

def addRun (s : Decoding) (len : Nat) : Decoding :=
  (if s.2.2 then crAddInterval s.1 s.2.1 (s.2.1 + len) else s.1, s.2.1 + len, !s.2.2)

def prop1Loop (p : List Nat) (s : Decoding) : Option (List Nat) :=
  if p = [] then some s.1
  else
    match _ : token p with
    | none => none
    | some (lens, p) => prop1Loop p (lens.foldl addRun s)
termination_by p.length
decreasing_by exact token_shorter ‹_›

def unicodeProp1 (table : List Nat) : Option (List Nat) := prop1Loop table ([], 0, false)

section Index

variable (c : Nat) (index : List Nat)

/-- The entry `i` of the index. -/
def getLe24 (i : Nat) : Nat :=
  index.getD (i * 3) 0 ||| index.getD (i * 3 + 1) 0 <<< 8 ||| index.getD (i * 3 + 2) 0 <<< 16

def codeAt (i : Nat) : Nat := getLe24 index i &&& (1 <<< 21 - 1)

def posAt (i : Nat) : Nat := (i + 1) * 32 + getLe24 index i >>> 21

def searchIndex (idxMin idxMax : Nat) : Nat :=
  if 1 < idxMax - idxMin then
    let idx := (idxMax + idxMin) / 2
    if c < codeAt index idx then searchIndex idxMin idx else searchIndex idx idxMax
  else idxMin
termination_by idxMax - idxMin

/-- The code point and the position from which the table is read. -/
def getIndexPos (len : Nat) : Option (Nat × Nat) :=
  if c < codeAt index 0 then some (0, 0)
  else if getLe24 index (len - 1) ≤ c then none
  else
    let i := searchIndex c index 0 (len - 1)
    some (codeAt index i, posAt index i)

def lreIsInTable (table : List Nat) (len : Nat) : Option Bool :=
  match getIndexPos c index len with
  | none => some false
  | some (code, pos) => isInTableLoop c (table.drop pos) (code, false)

end Index

inductive Encodes : List Nat → List Nat → Prop
  | nil : Encodes [] []
  | cons {p rest lens more : List Nat} : token p = some (lens, rest) → Encodes rest more → Encodes p (lens ++ more)

/-- The table encodes the lengths, the last entry of the index is their sum, and each other entry is a place between
two codes with an even number of lengths before it. -/
structure WellFormed (table index : List Nat) (len : Nat) (lens : List Nat) : Prop where
  nonempty : 0 < len
  indexed : len * 3 ≤ index.length
  encodes : Encodes table lens
  last : getLe24 index (len - 1) = lens.sum
  small : lens.sum ≤ 0x110000
  resumes : ∀ i < len - 1, ∃ before after, lens = before ++ after ∧ oddLength before = false ∧
    before.sum = codeAt index i ∧ Encodes (table.drop (posAt index i)) after

variable {c : Nat} {p lens : List Nat}

theorem Encodes.prop1Loop (encodes : Encodes p lens) (s : Decoding) : prop1Loop p s = some (lens.foldl addRun s).1 := by
  induction encodes generalizing s with
  | nil => rw [Unicode.prop1Loop, if_pos rfl, foldl_nil]
  | cons read _ ih =>
    have more : ¬_ = [] := ne_nil_of_length_pos (Nat.zero_lt_of_lt (token_shorter read))
    rw [Unicode.prop1Loop, if_neg more, foldl_append, ← ih]
    grind

variable {run : Nat × Bool} {s : Decoding}

theorem Encodes.isInTableLoop (encodes : Encodes p lens) {bit : Bool}
    (found : lens.foldlM (probe c) run = .error bit) : isInTableLoop c p run = some bit := by
  induction encodes generalizing run with
  | nil => cases found
  | cons read _ ih =>
    rw [foldlM_append] at found
    rw [Unicode.isInTableLoop]
    split
    · next none' => simp [read] at none'
    · next lens' rest' read' =>
        cases read.symm.trans read'
        cases first : foldlM (probe c) run _ with
        | error bit' =>
          rw [first] at found
          cases found
          rfl
        | ok run' =>
          rw [first] at found
          exact ih found

theorem foldlM_probe_ok (behind : run.1 + lens.sum ≤ c) :
    lens.foldlM (probe c) run = .ok (run.1 + lens.sum, run.2 ^^ oddLength lens) := by
  induction lens generalizing run with
  | nil => simp; rfl
  | cons len lens ih =>
    simp only [sum_cons] at behind
    rw [foldlM_cons, probe, if_neg (by omega)]
    refine (ih (by simp only; omega)).trans ?_
    simp [Nat.add_assoc]

theorem foldlM_probe_error (start : run.1 ≤ c) (inside : c < run.1 + lens.sum) :
    ∃ bit, lens.foldlM (probe c) run = .error bit := by
  induction lens generalizing run with
  | nil => simp at inside; omega
  | cons len lens ih =>
    simp only [sum_cons] at inside
    rw [foldlM_cons, probe]
    split
    · exact ⟨_, rfl⟩
    · exact ih (by simp only; omega) (by simp only; omega)

theorem inside_addRun (even : oddLength s.1 = false) (len : Nat) : oddLength (addRun s len).1 = false ∧
    (Inside (addRun s len).1 c ↔ Inside s.1 c ∨ s.2.2 = true ∧ s.2.1 ≤ c ∧ c < s.2.1 + len) := by
  unfold addRun
  split <;> simp_all [crAddInterval, inside_append]

theorem inside_foldl (even : oddLength s.1 = false) : Inside (lens.foldl addRun s).1 c ↔
    Inside s.1 c ∨ s.2.1 ≤ c ∧ lens.foldlM (probe c) s.2 = .error true := by
  induction lens generalizing s with
  | nil => simp [pure, Except.pure]
  | cons len lens ih =>
    obtain ⟨even', more⟩ := inside_addRun even len
    rw [foldl_cons, ih even', more, foldlM_cons, probe, or_assoc]
    refine or_congr_right ?_
    simp only [addRun]
    split
    · simp only [bind, Except.bind, Except.error.injEq]
      grind
    · change _ ∨ _ ∧ _ ↔ _ ∧ foldlM _ (_, _) _ = _
      grind

theorem inside_start :
    Inside (lens.foldl addRun ([], 0, false)).1 c ↔ lens.foldlM (probe c) (0, false) = .error true := by
  rw [inside_foldl rfl]
  simp

theorem searchIndex_spec {index : List Nat} {idxMin idxMax : Nat} (low : codeAt index idxMin ≤ c)
    (apart : idxMin < idxMax) :
    codeAt index (searchIndex c index idxMin idxMax) ≤ c ∧ searchIndex c index idxMin idxMax < idxMax := by
  fun_induction searchIndex c index idxMin idxMax with
  | case1 idxMin idxMax wide idx less ih =>
    obtain ⟨le, lt⟩ := ih low (by omega)
    exact ⟨le, by omega⟩
  | case2 idxMin idxMax wide idx less ih => exact ih (by omega) (by omega)
  | case3 => exact ⟨low, apart⟩

theorem isInTableLoop_eq (before : List Nat) {after : List Nat} (even : oddLength before = false)
    (start : before.sum ≤ c)
    (inside : c < (before ++ after).sum) (encodes : Encodes p after) : isInTableLoop c p (before.sum, false) =
      some (decide (Inside ((before ++ after).foldl addRun ([], 0, false)).1 c)) := by
  have passed : before.foldlM (probe c) (0, false) = .ok (before.sum, false) := by
    rw [foldlM_probe_ok (by simpa using start)]
    simp [even]
  rw [sum_append] at inside
  obtain ⟨bit, found⟩ : ∃ bit, after.foldlM (probe c) (before.sum, false) = .error bit :=
    foldlM_probe_error start inside
  rw [encodes.isInTableLoop found]
  refine congrArg some (Bool.eq_iff_iff.mpr ?_)
  rw [decide_eq_true_iff, inside_start, foldlM_append, passed]
  change _ ↔ foldlM (probe c) (before.sum, false) after = _
  simp [found]

theorem lreIsInTable_eq {table index : List Nat} {len : Nat} (formed : WellFormed table index len lens) (c : Nat) :
    ∃ ranges, unicodeProp1 table = some ranges ∧
      lreIsInTable c index table len = some (decide (Inside ranges c)) := by
  refine ⟨_, formed.encodes.prop1Loop _, ?_⟩
  have last := formed.last
  have single (one : len - 1 = 0) : codeAt index 0 = lens.sum := by
    rw [one] at last
    rw [codeAt, last, Nat.one_shiftLeft, Nat.and_two_pow_sub_one_of_lt_two_pow]
    exact formed.small.trans_lt (by decide)
  unfold lreIsInTable getIndexPos
  by_cases below : c < codeAt index 0
  · have inside : c < lens.sum := by
      by_cases one : len - 1 = 0
      · omega
      · obtain ⟨before, after, rfl, -, sum, -⟩ := formed.resumes 0 (by omega)
        rw [sum_append]
        omega
    rw [if_pos below]
    exact isInTableLoop_eq [] rfl (Nat.zero_le c) inside formed.encodes
  rw [if_neg below]
  by_cases beyond : getLe24 index (len - 1) ≤ c
  · have outside : ¬Inside (lens.foldl addRun ([], 0, false)).1 c := by
      rw [inside_start, foldlM_probe_ok (by simp only; omega)]
      simp
    rw [if_pos beyond, decide_eq_false outside]
  · rw [if_neg beyond]
    obtain ⟨low, resumed⟩ := searchIndex_spec (not_lt.mp below) (show 0 < len - 1 by omega)
    obtain ⟨before, after, rfl, even, sum, encodes⟩ := formed.resumes _ resumed
    rw [← sum] at low
    simp only [← sum]
    exact isInTableLoop_eq before even low (by omega) encodes

theorem encodes_replicate (n : Nat) : Encodes (replicate n 0) (replicate (2 * n) 1) := by
  induction n with
  | zero => exact .nil
  | succ n ih =>
    have read : token (0 :: replicate n 0) = some ([1, 1], replicate n 0) := rfl
    exact .cons read ih

theorem lreIsInTable_eq_pairs : ∃ ranges, unicodeProp1 (replicate 33 0) = some ranges ∧
    lreIsInTable 65 [64, 0, 0, 66, 0, 0] (replicate 33 0) 2 = some (decide (Inside ranges 65)) := by
  refine lreIsInTable_eq ⟨by decide, by decide, encodes_replicate 33, by decide, by decide, fun i first => ?_⟩ 65
  obtain rfl : i = 0 := by omega
  exact ⟨replicate 64 1, replicate 2 1, rfl, by decide, by decide, encodes_replicate 1⟩

end Unicode
