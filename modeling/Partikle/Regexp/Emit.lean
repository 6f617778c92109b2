import Partikle.Regexp.Atom
import Partikle.Unicode.CharRange

/-!
The instruction that `re_emit_range` emits for a character range, and the search among its intervals.
-/

namespace Regexp

open Boundary Unicode List

def range16 (p : Nat × Nat) : Nat × Nat :=
  let high := (p.2 + uint32Max) % 2 ^ 32
  (p.1 % 2 ^ 16, (if high = uint32Max - 1 then 0xffff else high) % 2 ^ 16)

def range32 (p : Nat × Nat) : Nat × Nat := (p.1, (p.2 + uint32Max) % 2 ^ 32)

def reEmitRange (cr : List Nat) : Except String REOp :=
  let len := cr.length / 2
  if len ≥ 65535 then .error "too many ranges"
  else if len = 0 then .ok (.char32 uint32Max)
  else
    let high := cr.getD (cr.length - 1) 0
    let high := if high = uint32Max then cr.getD (cr.length - 2) 0 else high
    if high ≤ 0xffff then .ok (.range ((pairs cr).map range16)) else .ok (.range32 ((pairs cr).map range32))

variable {idxMin idxMax fuel high low : Nat} {f : Nat × Nat → Nat × Nat} {ranges : List (Nat × Nat)}
  {init : List Nat}

section Search

variable {c : Nat}

structure Separated (ranges : List (Nat × Nat)) : Prop where
  apart : ranges.Pairwise fun p q => p.2 < q.1
  valid : ∀ p ∈ ranges, p.1 ≤ p.2

def Covers (ranges : List (Nat × Nat)) (c : Nat) : Prop := ∃ p ∈ ranges, p.1 ≤ c ∧ c ≤ p.2

theorem Separated.mono (separated : Separated ranges) {i j : Nat} (le : i ≤ j) (inside : j < ranges.length) :
    (ranges.getD i (0, 0)).1 ≤ (ranges.getD j (0, 0)).1 ∧ (ranges.getD i (0, 0)).2 ≤ (ranges.getD j (0, 0)).2 := by
  rcases le.eq_or_lt with rfl | less
  · exact ⟨le_refl _, le_refl _⟩
  · rw [getD_eq_getElem _ _ inside, getD_eq_getElem _ _ (less.trans inside)]
    have apart := pairwise_iff_getElem.mp separated.apart i j (less.trans inside) inside less
    have valid := separated.valid _ (getElem_mem (less.trans inside))
    have valid' := separated.valid _ (getElem_mem inside)
    omega

/-- The search without the unsigned indices of the source. -/
def searchRange (ranges : List (Nat × Nat)) (c : Nat) : Nat → Nat → Nat → Bool
  | 0, _, _ => false
  | fuel + 1, idxMin, idxMax =>
    if idxMin ≤ idxMax then
      let idx := (idxMin + idxMax) / 2
      let low := (ranges.getD idx (0, 0)).1
      let high := (ranges.getD idx (0, 0)).2
      if c < low then searchRange ranges c fuel idxMin (idx - 1)
      else if c > high then searchRange ranges c fuel (idx + 1) idxMax
      else true
    else false

theorem searchRange_iff (separated : Separated ranges) (first : (ranges.getD 0 (0, 0)).1 ≤ c)
    (enough : idxMax + 1 < fuel + idxMin) (inside : idxMax < ranges.length) :
    searchRange ranges c fuel idxMin idxMax = true ↔ ∃ i, idxMin ≤ i ∧ i ≤ idxMax ∧ (ranges.getD i (0, 0)).1 ≤ c ∧
      c ≤ (ranges.getD i (0, 0)).2 := by
  induction fuel generalizing idxMin idxMax with
  | zero =>
    simp only [searchRange, Bool.false_eq_true, false_iff]
    omega
  | succ fuel ih =>
    simp only [searchRange]
    split
    · generalize middle : (idxMin + idxMax) / 2 = idx
      have least : idxMin ≤ idx := by omega
      have most : idx ≤ idxMax := by omega
      split
      · rename_i below
        have positive : 0 < idx := Nat.pos_of_ne_zero fun zero => absurd first (by rw [zero] at below; omega)
        rw [ih (by omega) (by omega)]
        refine exists_congr fun i => and_congr_right fun lower => ⟨fun found => ⟨by omega, found.2⟩, fun found => ?_⟩
        have before : i < idx := lt_of_not_ge fun behind => by
          have := (separated.mono behind (by omega)).1
          omega
        exact ⟨by omega, found.2⟩
      · split
        · rw [ih (by omega) inside]
          refine exists_congr fun i => ⟨fun found => ⟨by omega, found.2⟩, fun found => ?_⟩
          have behind : idx < i := lt_of_not_ge fun before => by
            have := (separated.mono before (by omega)).2
            omega
          exact ⟨by omega, found.2⟩
        · simp only [true_iff]
          exact ⟨idx, least, most, by omega, by omega⟩
    · simp only [Bool.false_eq_true, false_iff]
      omega

/-- No index wraps and none is beyond the ranges, since the first range does not start behind `c`. -/
theorem searchUnsigned_eq (few : ranges.length < 65535) (first : (ranges.getD 0 (0, 0)).1 ≤ c)
    (positive : 0 < fuel) (enough : idxMax + 1 < fuel + idxMin) (inside : idxMax < ranges.length) :
    searchUnsigned ranges c fuel idxMin idxMax = some (searchRange ranges c fuel idxMin idxMax) := by
  induction fuel generalizing idxMin idxMax with
  | zero => cases positive
  | succ fuel ih =>
    simp only [searchUnsigned, searchRange]
    split
    · have whole : (idxMin + idxMax) % 2 ^ 32 = idxMin + idxMax := Nat.mod_eq_of_lt (by omega)
      rw [whole]
      generalize middle : (idxMin + idxMax) / 2 = idx
      have there : idx < ranges.length := by omega
      rw [getElem?_eq_getElem there, getD_eq_getElem _ _ there]
      simp only
      split
      · rename_i below
        have later : 0 < idx := Nat.pos_of_ne_zero fun zero => by
          subst zero
          rw [getD_eq_getElem _ _ there] at first
          omega
        have wraps : (idx + (2 ^ 32 - 1)) % 2 ^ 32 = idx - 1 := by omega
        rw [wraps]
        exact ih (by omega) (by omega) (by omega)
      · split
        · rw [Nat.mod_eq_of_lt (by omega)]
          exact ih (by omega) (by omega) inside
        · rfl
    · rfl

theorem covers_iff_getD :
    Covers ranges c ↔ ∃ i, i < ranges.length ∧ (ranges.getD i (0, 0)).1 ≤ c ∧ c ≤ (ranges.getD i (0, 0)).2 := by
  constructor
  · rintro ⟨p, mem, within⟩
    obtain ⟨i, inside, rfl⟩ := mem_iff_getElem.mp mem
    exact ⟨i, inside, by rwa [getD_eq_getElem _ _ inside]⟩
  · rintro ⟨i, inside, within⟩
    rw [getD_eq_getElem _ _ inside] at within
    exact ⟨_, getElem_mem inside, within⟩

section Ranges

variable (separated : Separated ranges)

include separated

theorem search_covers (positive : 0 < ranges.length) (few : ranges.length < 65535)
    (first : (ranges.getD 0 (0, 0)).1 ≤ c) : searchRanges ranges c (ranges.length - 1) = true ↔ Covers ranges c := by
  rw [searchRanges, searchUnsigned_eq few first (by omega) (by omega) (by omega), Option.getD_some,
    searchRange_iff separated first (by omega) (by omega), covers_iff_getD]
  refine exists_congr fun i => ⟨fun found => ⟨by omega, found.2.2⟩, fun found => ⟨by omega, by omega, found.2⟩⟩

theorem not_covers_of_lt (before : c < (ranges.getD 0 (0, 0)).1) : ¬Covers ranges c := by
  rw [covers_iff_getD]
  rintro ⟨i, inside, low, -⟩
  have := (separated.mono (Nat.zero_le i) inside).1
  omega

theorem not_covers_of_gt (behind : (ranges.getD (ranges.length - 1) (0, 0)).2 < c) : ¬Covers ranges c := by
  rw [covers_iff_getD]
  rintro ⟨i, inside, -, high⟩
  have := (separated.mono (show i ≤ ranges.length - 1 by omega) (by omega)).2
  omega

theorem inRange32_iff (positive : 0 < ranges.length) (few : ranges.length < 65535) :
    inRange32 ranges c = true ↔ Covers ranges c := by
  unfold inRange32
  simp only
  split
  · rename_i before
    simp [not_covers_of_lt separated before]
  · rename_i first
    split
    · rename_i behind
      simp [not_covers_of_gt separated behind]
    · exact search_covers separated positive few (not_lt.mp first)

/-- Below 0xffff the ranges of 16 bits are as they are. -/
theorem inRange_iff (positive : 0 < ranges.length) (few : ranges.length < 65535) :
    inRange ranges c = true ↔ (0xffff ≤ c ∧ (ranges.getD (ranges.length - 1) (0, 0)).2 = 0xffff ∧
      (ranges.getD 0 (0, 0)).1 ≤ c) ∨ Covers ranges c := by
  unfold inRange
  simp only
  split
  · rename_i before
    simp only [not_covers_of_lt separated before, not_le.mpr before, and_false, or_false, Bool.false_eq_true]
  · rename_i first
    split
    · rename_i infinite
      exact iff_of_true rfl (.inl ⟨infinite.1, infinite.2, not_lt.mp first⟩)
    · rename_i finite
      have plain : ¬(0xffff ≤ c ∧ (ranges.getD (ranges.length - 1) (0, 0)).2 = 0xffff ∧
          (ranges.getD 0 (0, 0)).1 ≤ c) := fun all => finite ⟨all.1, all.2.1⟩
      rw [or_iff_right plain]
      split
      · rename_i behind
        simp [not_covers_of_gt separated behind]
      · exact search_covers separated positive few (not_lt.mp first)

end Ranges

end Search

section Emit

variable {points : List Nat} {op : REOp} {c : Nat}

theorem pairs_separated (strict : points.Pairwise (· < ·)) :
    (pairs points).Pairwise (fun p q => p.2 < q.1) ∧ (∀ p ∈ pairs points, p.1 < p.2) ∧ ∀ p ∈ pairs points,
      p.1 ∈ points ∧ p.2 ∈ points := by
  induction points using pairs.induct with
  | case1 | case2 => simp [pairs]
  | case3 low high rest ih =>
    simp only [pairwise_cons, mem_cons, forall_eq_or_imp] at strict
    obtain ⟨⟨less, -⟩, behind, strict⟩ := strict
    obtain ⟨apart, valid, members⟩ := ih strict
    simp only [pairs, pairwise_cons, mem_cons, forall_eq_or_imp]
    refine ⟨⟨fun p mem => behind p.1 (members p mem).1, apart⟩, ⟨less, valid⟩, by simp, fun p mem => ?_⟩
    exact ⟨.inr (.inr (members p mem).1), .inr (.inr (members p mem).2)⟩

theorem last_interval (even : points.length % 2 = 0) (some : points ≠ []) :
    ∃ init low high, points = init ++ [low, high] ∧ pairs points = pairs init ++ [(low, high)] := by
  induction points using pairs.induct with
  | case1 => exact absurd rfl some
  | case2 => simp at even
  | case3 low high rest ih =>
    rcases eq_or_ne rest [] with rfl | last
    · exact ⟨[], low, high, rfl, rfl⟩
    · obtain ⟨init, low', high', shape, ends⟩ := ih (by simp only [length_cons] at even; omega) last
      exact ⟨low :: high :: init, low', high', by rw [shape]; rfl, by rw [pairs, ends]; rfl⟩

theorem separated_map (strict : points.Pairwise (· < ·))
    (kept : ∀ p ∈ pairs points, (f p).1 = p.1 ∧ p.1 ≤ (f p).2 ∧ (f p).2 < p.2) : Separated ((pairs points).map f) := by
  obtain ⟨apart, -, -⟩ := pairs_separated strict
  refine ⟨pairwise_map.mpr (apart.imp_of_mem fun {p q} mem mem' less => ?_), fun p mem => ?_⟩
  · have first := kept p mem
    have second := kept q mem'
    omega
  · obtain ⟨q, there, rfl⟩ := mem_map.mp mem
    have first := kept q there
    omega

theorem covers_map : Covers (ranges.map f) c ↔ ∃ p ∈ ranges, (f p).1 ≤ c ∧ c ≤ (f p).2 := by
  constructor
  · rintro ⟨q, mem, within⟩
    obtain ⟨p, there, rfl⟩ := mem_map.mp mem
    exact ⟨p, there, within⟩
  · rintro ⟨p, there, within⟩
    exact ⟨f p, mem_map_of_mem there, within⟩

theorem range32_covers (canonical : Canonical points) :
    Separated ((pairs points).map range32) ∧ (Covers ((pairs points).map range32) c ↔ Inside points c) := by
  obtain ⟨-, valid, members⟩ := pairs_separated canonical.strict
  have shape : ∀ p ∈ pairs points, range32 p = (p.1, p.2 - 1) := by
    intro p mem
    have less := valid p mem
    have word := canonical.word p.2 (members p mem).2
    rw [range32, Prod.mk.injEq]
    unfold uint32Max at *
    exact ⟨rfl, by omega⟩
  refine ⟨separated_map canonical.strict fun p mem => ?_, ?_⟩
  · have less := valid p mem
    rw [shape p mem]
    exact ⟨rfl, Nat.le_sub_one_of_lt less, Nat.sub_one_lt_of_lt less⟩
  · rw [covers_map]
    refine exists_congr fun p => and_congr_right fun mem => ?_
    rw [shape p mem]
    exact and_congr_right fun _ => Nat.le_sub_one_iff_lt (Nat.zero_lt_of_lt (valid p mem))

/-- Only the last interval of a range with ends of 16 bits may be infinite. -/
structure Narrow (points init : List Nat) (low high : Nat) : Prop where
  ends : pairs points = pairs init ++ [(low, high)]
  starts : ∀ p ∈ pairs points, p.1 ≤ 0xffff
  finite : ∀ p ∈ pairs init, p.2 ≤ 0xffff
  last : high ≤ 0xffff ∨ high = uint32Max

theorem range16_eq {p : Nat × Nat} (less : p.1 < p.2) (start : p.1 ≤ 0xffff) (stop : p.2 ≤ 0xffff ∨ p.2 = uint32Max) :
    range16 p = (p.1, if p.2 = uint32Max then 0xffff else p.2 - 1) := by
  unfold range16
  simp only [Prod.mk.injEq]
  refine ⟨by omega, ?_⟩
  rcases stop with stop | stop
  · have wraps : (p.2 + uint32Max) % 2 ^ 32 = p.2 - 1 := by
      unfold uint32Max
      omega
    rw [wraps, if_neg (by unfold uint32Max; omega), if_neg (by unfold uint32Max; omega)]
    omega
  · rw [stop]
    rfl

theorem narrow_of_high (canonical : Canonical points) (ends : pairs points = pairs init ++ [(low, high)])
    (small : (if high = uint32Max then low else high) ≤ 0xffff) : Narrow points init low high := by
  obtain ⟨apart, valid, -⟩ := pairs_separated canonical.strict
  rw [ends, pairwise_append] at apart
  have before : ∀ p ∈ pairs init, p.2 < low := fun p mem => apart.2.2 p mem (low, high) (by simp)
  have less : low < high := valid (low, high) (by simp [ends])
  have start : low ≤ 0xffff := by split at small <;> omega
  refine ⟨ends, fun p mem => ?_, fun p mem => (before p mem).le.trans start, ?_⟩
  · have valid' := valid p mem
    rw [ends, mem_append, mem_singleton] at mem
    rcases mem with mem | rfl
    · exact valid'.le.trans ((before p mem).le.trans start)
    · exact start
  · split at small
    · exact .inr ‹_›
    · exact .inl small

theorem range16_inside (canonical : Canonical points) (narrow : Narrow points init low high) (code : c ≤ 0x10FFFF)
    (few : 0 < ((pairs points).map range16).length ∧ ((pairs points).map range16).length < 65535) :
    inRange ((pairs points).map range16) c = true ↔ Inside points c := by
  obtain ⟨-, valid, -⟩ := pairs_separated canonical.strict
  have stops : ∀ p ∈ pairs points, p.2 ≤ 0xffff ∨ p.2 = uint32Max := by
    intro p mem
    rw [narrow.ends, mem_append, mem_singleton] at mem
    rcases mem with mem | rfl
    · exact .inl (narrow.finite p mem)
    · exact narrow.last
  have shape : ∀ p ∈ pairs points, range16 p = (p.1, if p.2 = uint32Max then 0xffff else p.2 - 1) :=
    fun p mem => range16_eq (valid p mem) (narrow.starts p mem) (stops p mem)
  have separated : Separated ((pairs points).map range16) := separated_map canonical.strict fun p mem => by
    have start := narrow.starts p mem
    rw [shape p mem]
    unfold uint32Max
    grind
  have lastEnd : (((pairs points).map range16).getD (((pairs points).map range16).length - 1) (0, 0)).2 =
      if high = uint32Max then 0xffff else high - 1 := by
    rw [narrow.ends, map_append, map_singleton, shape (low, high) (by simp [narrow.ends])]
    simp
  have firstStart : (((pairs points).map range16).getD 0 (0, 0)).1 ≤ 0xffff := by
    cases all : pairs points with
    | nil => simp
    | cons p rest =>
      rw [map_cons, getD_cons_zero, shape p (by simp [all])]
      exact narrow.starts p (by simp [all])
  rw [inRange_iff separated few.1 few.2, lastEnd, covers_map]
  constructor
  · rintro (⟨large, infinite, -⟩ | ⟨p, mem, from_, upTo⟩)
    · have unbounded : high = uint32Max := by
        have last := narrow.last
        by_contra finite
        rw [if_neg finite] at infinite
        omega
      have start := narrow.starts (low, high) (by simp [narrow.ends])
      refine ⟨(low, high), by simp [narrow.ends], le_trans start large, ?_⟩
      unfold uint32Max at unbounded
      omega
    · rw [shape p mem] at from_ upTo
      refine ⟨p, mem, from_, ?_⟩
      unfold uint32Max at upTo
      grind
  · rintro ⟨p, mem, from_, before⟩
    by_cases finite : p.2 ≠ uint32Max ∨ c ≤ 0xffff
    · refine .inr ⟨p, mem, ?_⟩
      rw [shape p mem]
      split <;> omega
    · rw [not_or, not_not, not_le] at finite
      have last : high = uint32Max := by
        rw [narrow.ends, mem_append, mem_singleton] at mem
        rcases mem with mem | rfl
        · have small := narrow.finite p mem
          omega
        · exact finite.1
      exact .inl ⟨finite.2.le, if_pos last, firstStart.trans finite.2.le⟩

theorem pairs_length (points : List Nat) : (pairs points).length = points.length / 2 := by
  fun_induction pairs points with
  | case1 => rfl
  | case2 => simp
  | case3 low high rest ih =>
    simp only [length_cons, ih]
    omega

theorem reEmitRange_operand (emitted : reEmitRange points = .ok op)
    (operand : op = .range ranges ∨ op = .range32 ranges) : 0 < ranges.length ∧ ranges.length < 65535 := by
  have count := pairs_length points
  unfold reEmitRange at emitted
  simp only at emitted
  split at emitted
  · cases emitted
  · split at emitted
    · cases emitted
      rcases operand with operand | operand <;> cases operand
    · generalize (if points.getD (points.length - 1) 0 = uint32Max then _ else _) = high at emitted
      have mapped : ranges = (pairs points).map range16 ∨ ranges = (pairs points).map range32 := by
        split at emitted
        · cases emitted
          rcases operand with operand | operand <;> cases operand
          exact .inl rfl
        · cases emitted
          rcases operand with operand | operand <;> cases operand
          exact .inr rfl
      rcases mapped with rfl | rfl <;>
        · rw [length_map]
          omega

variable {ctx : ExecContext} {cptr next : Nat}

theorem reEmitRange_charTest (canonical : Canonical points) (emitted : reEmitRange points = .ok op)
    (code : canonicalize ctx c ≤ 0x10FFFF) :
    op.readsChar = true ∧ (charTest ctx op c = true ↔ Inside points (canonicalize ctx c)) := by
  have few {ranges} (operand : op = .range ranges ∨ op = .range32 ranges) := reEmitRange_operand emitted operand
  unfold reEmitRange at emitted
  simp only at emitted
  split at emitted
  · cases emitted
  · split at emitted
    · have empty : points = [] := eq_nil_of_length_eq_zero (by have := canonical.even; omega)
      cases emitted
      subst empty
      simp only [REOp.readsChar, charTest, Inside, pairs, decide_eq_true_eq]
      simp [uint32Max]
      omega
    · rename_i some
      have nonempty : points ≠ [] := by
        rintro rfl
        exact some rfl
      obtain ⟨init, low, high, shape, ends⟩ := last_interval canonical.even nonempty
      have last : points.getD (points.length - 1) 0 = high := by
        rw [shape]
        simp
      have start : points.getD (points.length - 2) 0 = low := by
        rw [shape]
        simp
      rw [last, start] at emitted
      by_cases small : (if high = uint32Max then low else high) ≤ 0xffff
      · rw [if_pos small] at emitted
        cases emitted
        exact ⟨rfl, range16_inside canonical (narrow_of_high canonical ends small) code (few (.inl rfl))⟩
      · rw [if_neg small] at emitted
        cases emitted
        obtain ⟨separated, same⟩ := range32_covers (c := canonicalize ctx c) canonical
        exact ⟨rfl, (inRange32_iff separated (few (.inr rfl)).1 (few (.inr rfl)).2).trans same⟩

end Emit

end Regexp
