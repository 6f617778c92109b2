import Partikle.Lib.Boundary
import Mathlib.Data.Nat.Basic

/-!
The set operations on character ranges. The points of a `CharRange` are in turns the first character of an interval and
the first one behind it, with `UINT32_MAX` for infinity; allocations succeed.
-/

namespace Unicode

open Boundary List

def uint32Max : Nat := 0xffffffff

inductive CrOp where
  | union
  | inter
  | xor
deriving DecidableEq, Repr

def CrOp.isIn : CrOp → Bool → Bool → Bool
  | .union, a, b => a || b
  | .inter, a, b => a && b
  | .xor, a, b => a ^^ b

def crAbsorb (high : Nat) : List Nat → Nat × List Nat
  | [] => (high, [])
  | [low] => (high, [low])
  | low :: high' :: rest => if high = low then crAbsorb high' rest else (high, low :: high' :: rest)

theorem crAbsorb_length (high : Nat) (rest : List Nat) : (crAbsorb high rest).2.length ≤ rest.length := by
  fun_induction crAbsorb high rest with
  | case1 => exact le_refl _
  | case2 => exact le_refl _
  | case3 high' rest shorter =>
    simp only [length_cons]
    omega
  | case4 => exact le_refl _

/-- Merges consecutive intervals and removes empty ones. A point is never written behind the place that is read. -/
def crCompress : List Nat → List Nat
  | [] | [_] => []
  | low :: high :: rest =>
    if low = high then crCompress rest
    else low :: (crAbsorb high rest).1 :: crCompress (crAbsorb high rest).2
termination_by points => points.length
decreasing_by
  all_goals
    have := crAbsorb_length high rest
    simp only [length_cons]
    omega

def crAddPoint (isIn : Bool) (v : Nat) (cr : List Nat) : List Nat := if isIn ≠ oddLength cr then cr ++ [v] else cr

def crOpLoop (op : CrOp) (aOdd bOdd : Bool) (cr : List Nat) : List Nat → List Nat → List Nat
  | [], [] => cr
  | v :: a, [] => crOpLoop op (!aOdd) bOdd (crAddPoint (op.isIn (!aOdd) bOdd) v cr) a []
  | [], w :: b => crOpLoop op aOdd (!bOdd) (crAddPoint (op.isIn aOdd (!bOdd)) w cr) [] b
  | v :: a, w :: b =>
    if v < w then crOpLoop op (!aOdd) bOdd (crAddPoint (op.isIn (!aOdd) bOdd) v cr) a (w :: b)
    else if v = w then crOpLoop op (!aOdd) (!bOdd) (crAddPoint (op.isIn (!aOdd) (!bOdd)) v cr) a b
    else crOpLoop op aOdd (!bOdd) (crAddPoint (op.isIn aOdd (!bOdd)) w cr) (v :: a) b
termination_by a b => a.length + b.length

/-- For a `cr` without points. -/
def crOp (a b : List Nat) (op : CrOp) : List Nat := crCompress (crOpLoop op false false [] a b)

def crUnion1 (cr b : List Nat) : List Nat := crOp cr b .union

def crInvert (cr : List Nat) : List Nat := crCompress (0 :: cr ++ [uint32Max])

/-- The points are of the type `uint32_t` and in order, two for each interval. -/
structure Ordered (points : List Nat) : Prop where
  ordered : points.Pairwise (· ≤ ·)
  even : points.length % 2 = 0
  word : ∀ p ∈ points, p ≤ uint32Max

structure Canonical (points : List Nat) : Prop extends Ordered points where
  strict : points.Pairwise (· < ·)

section Compress

variable {points rest : List Nat} {low high : Nat}

theorem oddLength_eq_false : oddLength points = false ↔ points.length % 2 = 0 := by simp [oddLength]

theorem crAbsorb_spec (ordered : (high :: rest).Pairwise (· ≤ ·)) :
    high ≤ (crAbsorb high rest).1 ∧ (crAbsorb high rest).1 ∈ high :: rest ∧ (crAbsorb high rest).2 <:+ rest ∧
      oddLength (crAbsorb high rest).2 = oddLength rest ∧ (oddLength rest = false → ∀ p ∈ (crAbsorb high rest).2,
      (crAbsorb high rest).1 < p) ∧ ∀ x,
      crossed ((crAbsorb high rest).1 :: (crAbsorb high rest).2) x = crossed (high :: rest) x := by
  fun_induction crAbsorb high rest with
  | case1 high => exact ⟨le_refl _, by simp, suffix_refl _, rfl, nofun, fun x => rfl⟩
  | case2 high low => exact ⟨le_refl _, by simp, suffix_refl _, rfl, fun even => by simp at even, fun x => rfl⟩
  | case3 low high' rest ih =>
    simp only [pairwise_cons, mem_cons, forall_eq_or_imp] at ordered
    obtain ⟨-, ⟨valid, -⟩, behind, ordered⟩ := ordered
    obtain ⟨le, mem, suffix, parity, strict, same⟩ := ih (pairwise_cons.mpr ⟨behind, ordered⟩)
    refine ⟨valid.trans le, .tail _ (.tail _ mem), ?_, by simpa using parity, ?_, ?_⟩
    · exact suffix.trans ((suffix_cons _ _).trans (suffix_cons _ _))
    · exact fun even => strict (by simpa using even)
    · intro x
      rw [same]
      simp [crossed]
  | case4 high low high' rest apart =>
    refine ⟨le_refl _, by simp, suffix_refl _, rfl, fun _ p mem => ?_, fun x => rfl⟩
    have next := (pairwise_cons.mp ordered).1 low (by simp)
    have behind : low ≤ p := by
      rcases mem_cons.mp mem with rfl | mem
      · exact le_refl _
      · exact (pairwise_cons.mp ordered.of_cons).1 p mem
    exact lt_of_lt_of_le (lt_of_le_of_ne next apart) behind

theorem crCompress_spec (ordered : points.Pairwise (· ≤ ·)) (even : oddLength points = false) :
    crCompress points ⊆ points ∧ oddLength (crCompress points) = false ∧ (crCompress points).Pairwise (· < ·) ∧
      ∀ x, crossed (crCompress points) x = crossed points x := by
  fun_induction crCompress points with
  | case1 => simp [crossed]
  | case2 => simp at even
  | case3 high rest ih =>
    simp only [pairwise_cons] at ordered
    obtain ⟨subset, parity, strict, same⟩ := ih ordered.2.2 (by simpa using even)
    refine ⟨subset_cons_of_subset _ (subset_cons_of_subset _ subset), parity, strict, fun x => ?_⟩
    simp [crossed, same]
  | case4 low high rest apart ih =>
    have inner := (pairwise_cons.mp ordered).2
    have even' : oddLength rest = false := by simpa using even
    obtain ⟨le, mem, suffix, parity, behind, crosses⟩ := crAbsorb_spec inner
    obtain ⟨subset, parity', strict, same⟩ := ih (inner.of_cons.sublist suffix.sublist) (parity.trans even')
    have valid : low < high := lt_of_le_of_ne ((pairwise_cons.mp ordered).1 high (by simp)) apart
    have above : ∀ p ∈ crCompress (crAbsorb high rest).2, (crAbsorb high rest).1 < p :=
      fun p mem => behind even' p (subset mem)
    refine ⟨?_, by simpa using parity', ?_, fun x => ?_⟩
    · simp only [cons_subset]
      exact ⟨by simp, .tail _ mem,
        fun p mem => .tail _ (.tail _ (suffix.subset (subset mem)))⟩
    · simp only [pairwise_cons, mem_cons, forall_eq_or_imp]
      exact ⟨⟨valid.trans_le le, fun p mem => (valid.trans_le le).trans (above p mem)⟩, above, strict⟩
    · have rest_same := crosses x
      rw [crossed] at rest_same
      rw [crossed, crossed, same, rest_same]
      rfl

theorem crCompress_canonical (valid : Ordered points) :
    Canonical (crCompress points) ∧ ∀ x, crossed (crCompress points) x = crossed points x := by
  obtain ⟨subset, parity, strict, same⟩ := crCompress_spec valid.ordered (oddLength_eq_false.mpr valid.even)
  refine ⟨⟨⟨strict.imp le_of_lt, oddLength_eq_false.mp parity, fun p mem => valid.word p (subset mem)⟩, strict⟩, same⟩

end Compress

section Merge

variable {op : CrOp} {aOdd bOdd aOdd' bOdd' odd odd' : Bool} {v : Nat} {cr a b a' b' l l' r : List Nat}

theorem crAddPoint_sublist (isIn : Bool) : (crAddPoint isIn v cr).Sublist (cr ++ [v]) := by
  unfold crAddPoint
  split
  · exact Sublist.refl _
  · exact sublist_append_left _ _

@[simp] theorem oddLength_crAddPoint (isIn : Bool) : oddLength (crAddPoint isIn v cr) = isIn := by
  unfold crAddPoint
  split <;> grind [oddLength_append, oddLength_cons, oddLength_nil]

theorem crossed_crAddPoint (isIn : Bool) (x : Nat) :
    crossed (crAddPoint isIn v cr) x = (crossed cr x ^^ ((isIn ^^ oddLength cr) && decide (v ≤ x))) := by
  unfold crAddPoint
  split <;> grind [crossed_append, crossed]

inductive Advance (v : Nat) : Bool → List Nat → Bool → List Nat → Prop where
  | stay {odd : Bool} {l : List Nat} (behind : ∀ p ∈ l, v ≤ p) : Advance v odd l odd l
  | take {odd : Bool} {l : List Nat} : Advance v odd (v :: l) (!odd) l

namespace Advance

section Step

variable (step : Advance v odd l odd' l')

include step

theorem parity : (odd' ^^ oddLength l') = (odd ^^ oddLength l) := by
  cases step with
  | stay => rfl
  | take => simp

theorem crosses {x : Nat} (reached : v ≤ x) : (odd' ^^ crossed l' x) = (odd ^^ crossed l x) := by
  cases step with
  | stay => rfl
  | take => simp [crossed, reached]

theorem subset : l' ⊆ l := by
  cases step with
  | stay => exact List.Subset.refl _
  | take => exact subset_cons_self _ _

theorem above (ordered : (cr ++ l).Pairwise (· ≤ ·)) : ∀ p ∈ l, v ≤ p := by
  cases step with
  | stay behind => exact behind
  | take =>
    simp only [mem_cons, forall_eq_or_imp]
    exact ⟨le_refl _, (pairwise_cons.mp (pairwise_append.mp ordered).2.1).1⟩

theorem ordered (isIn : Bool) (upTo : ∀ p ∈ cr, p ≤ v)
    (ordered : (cr ++ l).Pairwise (· ≤ ·)) : (crAddPoint isIn v cr ++ l').Pairwise (· ≤ ·) := by
  obtain ⟨early, late, -⟩ := pairwise_append.mp ordered
  have behind := step.above ordered
  have sorted : (l').Pairwise (· ≤ ·) := by
    cases step with
    | stay => exact late
    | take => exact late.of_cons
  apply Pairwise.sublist ((crAddPoint_sublist isIn).append_right l')
  simp only [pairwise_append, mem_append, mem_singleton, pairwise_cons]
  refine ⟨⟨early, by simp, fun p mem q same => same ▸ upTo p mem⟩, sorted, fun p mem q mem' => ?_⟩
  have le : p ≤ v := mem.elim (upTo p) (fun same => same.le)
  exact le.trans (behind q (step.subset mem'))

end Step

end Advance

/-- Between two steps of the loop; the points of `cr` are not behind those that are left. -/
structure Merging (op : CrOp) (aOdd bOdd : Bool) (cr a b : List Nat) : Prop where
  first : (cr ++ a).Pairwise (· ≤ ·)
  second : (cr ++ b).Pairwise (· ≤ ·)
  status : oddLength cr = op.isIn aOdd bOdd

structure Merged (op : CrOp) (aOdd bOdd : Bool) (cr a b r : List Nat) : Prop where
  ordered : r.Pairwise (· ≤ ·)
  subset : r ⊆ cr ++ (a ++ b)
  parity : oddLength r = op.isIn (aOdd ^^ oddLength a) (bOdd ^^ oddLength b)
  crosses : ∀ x, crossed r x =
    (crossed cr x ^^ (op.isIn aOdd bOdd ^^ op.isIn (aOdd ^^ crossed a x) (bOdd ^^ crossed b x)))

theorem Merging.step (state : Merging op aOdd bOdd cr a b) (first : Advance v aOdd a aOdd' a')
    (second : Advance v bOdd b bOdd' b') (mem : v ∈ a ++ b) :
    Merging op aOdd' bOdd' (crAddPoint (op.isIn aOdd' bOdd') v cr) a' b' := by
  have upTo : ∀ p ∈ cr, p ≤ v := by
    intro p there
    rcases mem_append.mp mem with mem | mem
    · exact (pairwise_append.mp state.first).2.2 p there v mem
    · exact (pairwise_append.mp state.second).2.2 p there v mem
  exact ⟨first.ordered _ upTo state.first, second.ordered _ upTo state.second, oddLength_crAddPoint _⟩

theorem Merging.merged (state : Merging op aOdd bOdd cr a b) (first : Advance v aOdd a aOdd' a')
    (second : Advance v bOdd b bOdd' b') (mem : v ∈ a ++ b)
    (next : Merging op aOdd' bOdd' (crAddPoint (op.isIn aOdd' bOdd') v cr) a' b' →
      Merged op aOdd' bOdd' (crAddPoint (op.isIn aOdd' bOdd') v cr) a' b' r) :
    Merged op aOdd bOdd cr a b r := by
  have merged := next (state.step first second mem)
  refine ⟨merged.ordered, fun p there => ?_, ?_, fun x => ?_⟩
  · have there := merged.subset there
    have added : p ∈ crAddPoint (op.isIn aOdd' bOdd') v cr → p ∈ cr ++ [v] := fun there =>
      (crAddPoint_sublist _).subset there
    have left := first.subset (a := p)
    have right := second.subset (a := p)
    grind
  · rw [merged.parity, first.parity, second.parity]
  · rw [merged.crosses, crossed_crAddPoint, state.status]
    by_cases reached : v ≤ x
    · have cancel : ∀ p s t u : Bool, (p ^^ ((s ^^ t) && true) ^^ (s ^^ u)) = (p ^^ (t ^^ u)) := by decide
      rw [first.crosses reached, second.crosses reached, decide_eq_true reached, cancel]
    · have none : ∀ {l l' : List Nat}, l' ⊆ l → (∀ p ∈ l, v ≤ p) → crossed l' x = false := by
        intro l l' subset above
        exact crossed_of_lt fun p mem => lt_of_lt_of_le (not_le.mp reached) (above p (subset mem))
      have aboveA := first.above state.first
      have aboveB := second.above state.second
      rw [none (List.Subset.refl a) aboveA, none (List.Subset.refl b) aboveB, none first.subset aboveA,
        none second.subset aboveB]
      simp [reached]

theorem crOpLoop_merged (state : Merging op aOdd bOdd cr a b) :
    Merged op aOdd bOdd cr a b (crOpLoop op aOdd bOdd cr a b) := by
  fun_induction crOpLoop op aOdd bOdd cr a b with
  | case1 aOdd bOdd cr => exact ⟨by simpa using state.first, by simp, by simpa using state.status, by simp [crossed]⟩
  | case2 aOdd bOdd cr v a ih => exact state.merged .take (.stay (by simp)) (by simp) ih
  | case3 aOdd bOdd cr w b ih => exact state.merged (.stay (by simp)) .take (by simp) ih
  | case4 aOdd bOdd cr v a w b less ih =>
    have behind := (show Advance w bOdd (w :: b) (!bOdd) b from .take).above state.second
    exact state.merged .take (.stay fun p mem => less.le.trans (behind p mem)) (by simp) ih
  | case5 aOdd bOdd cr a v b _ ih => exact state.merged .take .take (by simp) ih
  | case6 aOdd bOdd cr v a w b notLess apart ih =>
    have behind := (show Advance v aOdd (v :: a) (!aOdd) a from .take).above state.first
    exact state.merged (.stay fun p mem => (not_lt.mp notLess).trans (behind p mem)) .take (by simp) ih

end Merge

section Operations

variable {a b : List Nat}

theorem Ordered.inside (valid : Ordered a) (x : Nat) : Inside a x ↔ crossed a x = true :=
  inside_iff_crossed valid.ordered (oddLength_eq_false.mpr valid.even)

theorem crOp_correct (first : Ordered a) (second : Ordered b) (op : CrOp) :
    Canonical (crOp a b op) ∧ ∀ x, Inside (crOp a b op) x ↔ op.isIn (Inside a x) (Inside b x) = true := by
  have start : Merging op false false [] a b := ⟨first.ordered, second.ordered, by cases op <;> rfl⟩
  have none : op.isIn false false = false := by cases op <;> rfl
  have merged := crOpLoop_merged start
  have valid : Ordered (crOpLoop op false false [] a b) := by
    refine ⟨merged.ordered, oddLength_eq_false.mp ?_, fun p mem => ?_⟩
    · rwa [merged.parity, oddLength_eq_false.mpr first.even, oddLength_eq_false.mpr second.even]
    · have there : p ∈ a ++ b := merged.subset mem
      exact (mem_append.mp there).elim (first.word p) (second.word p)
  obtain ⟨canonical, same⟩ := crCompress_canonical valid
  refine ⟨canonical, fun x => ?_⟩
  have left : decide (Inside a x) = crossed a x := by simp [first.inside]
  have right : decide (Inside b x) = crossed b x := by simp [second.inside]
  rw [crOp, canonical.inside, same, merged.crosses, none, left, right]
  simp [crossed]

theorem crInvert_correct (valid : Ordered a) :
    Canonical (crInvert a) ∧ ∀ x < uint32Max, crossed (crInvert a) x = !crossed a x := by
  have whole : Ordered (0 :: a ++ [uint32Max]) := by
    refine ⟨?_, ?_, ?_⟩
    · simp only [cons_append, pairwise_cons, pairwise_append, mem_singleton]
      exact ⟨by simp, valid.ordered, by simp, fun p mem q same => same ▸ valid.word p mem⟩
    · have even := valid.even
      simp only [cons_append, length_cons, length_append, length_nil]
      omega
    · have word := valid.word
      grind
  obtain ⟨canonical, same⟩ := crCompress_canonical whole
  refine ⟨canonical, fun x below => ?_⟩
  rw [crInvert, same, crossed_append]
  simp [crossed, not_le.mpr below]

theorem crInvert_crInvert (canonical : Canonical a) : crInvert (crInvert a) = a := by
  obtain ⟨once, flipped⟩ := crInvert_correct canonical.toOrdered
  obtain ⟨twice, back⟩ := crInvert_correct once.toOrdered
  refine eq_of_crossed twice.strict canonical.strict fun x => ?_
  rcases lt_or_ge x uint32Max with below | beyond
  · rw [back x below, flipped x below, Bool.not_not]
  · rw [crossed_of_le fun p mem => (twice.word p mem).trans beyond,
      crossed_of_le fun p mem => (canonical.word p mem).trans beyond, oddLength_eq_false.mpr twice.even,
      oddLength_eq_false.mpr canonical.even]

/-- The operations on sets of characters: `cr_op` is the operation asked for, `cr_invert` the complement, and the
results are canonical. -/
theorem charRange_operations (first : Ordered a) (second : Ordered b) :
    (∀ op, Canonical (crOp a b op) ∧ ∀ x, Inside (crOp a b op) x ↔ op.isIn (Inside a x) (Inside b x) = true) ∧
      (∀ x, Inside (crUnion1 a b) x ↔ Inside a x ∨ Inside b x) ∧
      (∀ x < uint32Max, Inside (crInvert a) x ↔ ¬Inside a x) ∧ (Canonical a → crInvert (crInvert a) = a) := by
  refine ⟨crOp_correct first second, fun x => ?_, fun x below => ?_, crInvert_crInvert⟩
  · rw [crUnion1, (crOp_correct first second .union).2 x]
    simp [CrOp.isIn]
  · obtain ⟨canonical, flipped⟩ := crInvert_correct first
    rw [canonical.inside, flipped x below, first.inside, Bool.not_eq_true', Bool.not_eq_true]

theorem charRange_operations_adjacent :
    Canonical (crOp [1, 3, 3, 5, 9, 9] [2, 7] .xor) ∧ crOp [1, 3, 3, 5, 9, 9] [2, 7] .xor = [1, 2, 5, 7] ∧
      crInvert (crInvert [2, 7]) = [2, 7] := by
  have first : Ordered [1, 3, 3, 5, 9, 9] := ⟨by decide, by decide, by decide⟩
  have second : Canonical [2, 7] := ⟨⟨by decide, by decide, by decide⟩, by decide⟩
  exact ⟨((charRange_operations first second.toOrdered).1 .xor).1, by decide +kernel,
    (charRange_operations second.toOrdered first).2.2.2 second⟩

end Operations

end Unicode
