import Partikle.Rqsort.Sort

/-!
Whatever the comparison function answers, `rqsort` returns, stays inside the array and its stack, and leaves the
elements in some order.
-/

namespace Rqsort

open Effect

variable {C : Type} {arr : Arr C}

def Kept (arr : Arr C) (s s' : State C) : Prop := Rearranged arr.base arr.size arr.nmemb s.mem s'.mem

abbrev Sorts {α : Type} (arr : Arr C) (x : Run C α) (Q : α → Prop) : Prop := Total (Kept arr) x Q

variable {α : Type} {i j ptr n c fuel nmemb innerFuel : Nat} {stack : List Range} {range : Range}

theorem sorts_pure {a : α} {Q : α → Prop} (holds : Q a) : Sorts arr (pure a) Q :=
  total_pure (fun _ => .refl) holds

theorem sorts_bind {β : Type} {x : Run C α} {f : α → Run C β} {Q : α → Prop} {P : β → Prop} (first : Sorts arr x Q)
    (second : ∀ a, Q a → Sorts arr (f a) P) : Sorts arr (x >>= f) P :=
  first.bind (fun _ _ _ => .trans) second

section Operations

theorem compare_sorts (inside : i < arr.nmemb) (inside' : j < arr.nmemb) :
    Sorts arr (arr.compare i j) fun _ => True := by
  intro s
  refine ⟨_, _, if_pos ⟨inside, inside'⟩, ?_, trivial⟩
  exact .refl

theorem exchange_sorts {base : Nat} (inside : i < arr.nmemb) (inside' : j < arr.nmemb) :
    Sorts arr (arr.exchange (exchangeFunc base arr.size) i j 1) fun _ => True := by
  intro s
  refine ⟨_, _, if_pos ⟨inside, inside'⟩, ?_, trivial⟩
  obtain ⟨apart, moved⟩ : Apart (arr.base + i * arr.size) (arr.base + j * arr.size) arr.size ∧ _ :=
    rearranged_swap inside inside' s.mem
  rw [Nat.one_mul]
  rwa [Arr.addr, Arr.addr, (exchangeFunc_fits base arr.size).whole apart]

theorem swap_sorts (inside : i < arr.nmemb) (inside' : j < arr.nmemb) : Sorts arr (arr.swap i j) fun _ => True :=
  exchange_sorts inside inside'

theorem swapBlock_sorts {count : Nat} (apart : i + count ≤ j) (inside : j + count ≤ arr.nmemb) :
    Sorts arr (arr.swapBlock i j count) fun _ => True := by
  intro s
  refine ⟨_, _, if_pos ⟨by omega, inside⟩, ?_, trivial⟩
  rw [Arr.addr, Arr.addr, (exchangeFunc_fits arr.base (arr.size ||| 128)).block (apart_addr apart)]
  exact rearranged_exchanged apart inside s.mem

end Operations

section Heap

theorem rightChild_sorts (inside : ptr + n ≤ arr.nmemb) :
    Sorts arr (rightChild arr ptr n c) fun right => right = true → c + 1 < n := by
  unfold rightChild
  split
  · next more =>
      refine sorts_bind (compare_sorts (by omega) (by omega)) fun _ _ => sorts_pure fun _ => ?_
      omega
  · exact sorts_pure nofun

theorem siftDown_sorts {r : Nat} (inside : ptr + n ≤ arr.nmemb) (start : r < n) (enough : n ≤ r + fuel) :
    Sorts arr (siftDown arr ptr n fuel r) fun _ => True := by
  induction fuel generalizing r with
  | zero => omega
  | succ fuel ih =>
    unfold siftDown
    by_cases child : r * 2 + 1 < n
    · simp only [child, if_true]
      refine sorts_bind (rightChild_sorts inside) fun right onRight => ?_
      have bound : (if right = true then r * 2 + 1 + 1 else r * 2 + 1) < n ∧
          r < if right = true then r * 2 + 1 + 1 else r * 2 + 1 := by
        cases right with
        | true =>
          have := onRight rfl
          simp only [if_true]
          omega
        | false =>
          simp only [Bool.false_eq_true, if_false]
          omega
      refine sorts_bind (compare_sorts (by omega) (by omega)) fun d _ => ?_
      split
      · exact sorts_pure trivial
      · exact sorts_bind (exchange_sorts (by omega) (by omega)) fun _ _ => ih (by omega) (by omega)
    · simp only [child, if_false]
      exact sorts_pure trivial

theorem heapify_sorts (inside : ptr + nmemb ≤ arr.nmemb) (start : i ≤ nmemb)
    (enough : nmemb ≤ fuel) : Sorts arr (heapify arr ptr nmemb fuel i) fun _ => True := by
  induction i with
  | zero => exact sorts_pure trivial
  | succ i ih => exact sorts_bind (siftDown_sorts inside (by omega) (by omega)) fun _ _ => ih (by omega)

theorem extract_sorts (inside : ptr + i < arr.nmemb) (enough : i < fuel) :
    Sorts arr (extract arr ptr fuel i) fun _ => True := by
  induction i with
  | zero => exact sorts_pure trivial
  | succ i ih =>
    refine sorts_bind (exchange_sorts (by omega) (by omega)) fun _ _ => ?_
    exact sorts_bind (siftDown_sorts (by omega) (by omega) (by omega)) fun _ _ => ih (by omega) (by omega)

theorem heapsortx_sorts (inside : ptr + nmemb ≤ arr.nmemb) (enough : nmemb ≤ fuel) :
    Sorts arr (heapsortx arr fuel ptr nmemb) fun _ => True := by
  unfold heapsortx
  split
  · refine sorts_bind (heapify_sorts inside (by omega) enough) fun _ _ => ?_
    exact extract_sorts (by omega) (by omega)
  · exact sorts_pure trivial

end Heap

section Partition

theorem med3_sorts {a b : Nat} (insideA : a < arr.nmemb) (insideB : b < arr.nmemb) (insideC : c < arr.nmemb) :
    Sorts arr (med3 arr a b c) fun m => m < arr.nmemb := by
  have outer {x y : Nat} (insideX : x < arr.nmemb) (insideY : y < arr.nmemb) :
      Sorts arr (do if (← arr.compare a c) < 0 then pure x else pure y) fun m => m < arr.nmemb := by
    refine sorts_bind (compare_sorts insideA insideC) fun _ _ => ?_
    split
    · exact sorts_pure insideX
    · exact sorts_pure insideY
  refine sorts_bind (compare_sorts insideA insideB) fun _ _ => ?_
  split
  · refine sorts_bind (compare_sorts insideB insideC) fun _ _ => ?_
    split
    · exact sorts_pure insideB
    · exact outer insideC insideA
  · refine sorts_bind (compare_sorts insideB insideC) fun _ _ => ?_
    split
    · exact sorts_pure insideB
    · exact outer insideA insideC

structure Scan.Ok (ptr nmemb : Nat) (v : Scan) : Prop where
  pi_eq : v.pi = ptr + v.i
  plt_eq : v.plt = ptr + v.lt
  pgt_eq : v.pgt = ptr + v.gt
  pivot : 1 ≤ v.lt
  lt_le : v.lt ≤ v.i
  i_le : v.i ≤ v.gt
  gt_le : v.gt ≤ nmemb
  pj_le : v.pj ≤ v.pgt

variable {v : Scan}

section

variable (inside : ptr + nmemb ≤ arr.nmemb) (ok : v.Ok ptr nmemb) (order : v.pi ≤ v.pj) (enough : v.pj < v.pi + fuel)

include inside ok order enough

theorem scanUp_sorts :
    Sorts arr (scanUp arr ptr fuel v) fun v' => v'.Ok ptr nmemb ∧ v'.pi ≤ v'.pj ∧ v'.pj = v.pj ∧ v.pi ≤ v'.pi := by
  induction fuel generalizing v with
  | zero => omega
  | succ fuel ih =>
    have stop := ok
    obtain ⟨pi_eq, plt_eq, pgt_eq, pivot, lt_le, i_le, gt_le, pj_le⟩ := ok
    unfold scanUp
    split
    · next more =>
        refine sorts_bind (compare_sorts (by omega) (by omega)) fun c _ => ?_
        split
        · split
          · refine sorts_bind (swap_sorts (by omega) (by omega)) fun _ _ => ?_
            apply (ih (by constructor <;> simp only <;> omega) (by simp only; omega) (by simp only; omega)).mono
            exact fun v' ⟨ok', order', same, above⟩ => ⟨ok', order', same, Nat.le_of_succ_le above⟩
          · apply (ih (by constructor <;> simp only <;> omega) (by simp only; omega) (by simp only; omega)).mono
            exact fun v' ⟨ok', order', same, above⟩ => ⟨ok', order', same, Nat.le_of_succ_le above⟩
        · exact sorts_pure ⟨stop, order, rfl, le_rfl⟩
    · exact sorts_pure ⟨stop, order, rfl, le_rfl⟩

theorem scanDown_sorts :
    Sorts arr (scanDown arr ptr fuel v) fun v' => v'.Ok ptr nmemb ∧ v'.pi = v.pi ∧ v'.pj < v.pj := by
  induction fuel generalizing v with
  | zero => omega
  | succ fuel ih =>
    obtain ⟨pi_eq, plt_eq, pgt_eq, pivot, lt_le, i_le, gt_le, pj_le⟩ := ok
    unfold scanDown
    simp only
    have stop : Scan.Ok ptr nmemb { v with pj := v.pj - 1 } := by constructor <;> simp only <;> omega
    split
    · next more =>
        refine sorts_bind (compare_sorts (by omega) (by omega)) fun c _ => ?_
        split
        · split
          · refine sorts_bind (swap_sorts (by omega) (by omega)) fun _ _ => ?_
            apply (ih (by constructor <;> simp only <;> omega) (by simp only; omega) (by simp only; omega)).mono
            rintro v' ⟨ok', same, below⟩
            simp only at same below
            exact ⟨ok', same, by omega⟩
          · apply (ih stop (by simp only; omega) (by simp only; omega)).mono
            rintro v' ⟨ok', same, below⟩
            simp only at same below
            exact ⟨ok', same, by omega⟩
        · exact sorts_pure ⟨stop, rfl, by simp only; omega⟩
    · exact sorts_pure ⟨stop, rfl, by simp only; omega⟩

theorem partition_sorts (inner : nmemb < innerFuel) :
    Sorts arr (partition arr ptr innerFuel fuel v) fun v' => v'.Ok ptr nmemb := by
  induction fuel generalizing v with
  | zero => omega
  | succ fuel ih =>
    have bound : v.pj ≤ ptr + nmemb := by
      have := ok.pj_le
      have := ok.pgt_eq
      have := ok.gt_le
      omega
    have first := ok.pi_eq
    refine sorts_bind (scanUp_sorts inside ok order (by omega)) fun v₁ ⟨ok₁, order₁, same₁, above₁⟩ => ?_
    refine sorts_bind (scanDown_sorts inside ok₁ order₁ (by omega)) fun v₂ ⟨ok₂, same₂, below₂⟩ => ?_
    split
    · exact sorts_pure ok₂
    · next more =>
        obtain ⟨pi_eq, plt_eq, pgt_eq, pivot, lt_le, i_le, gt_le, pj_le⟩ := ok₂
        refine sorts_bind (swap_sorts (by omega) (by omega)) fun _ _ => ?_
        apply ih (by constructor <;> simp only <;> omega) (by simp only; omega)
        simp only
        omega

end

/-- Two ranges are left, with at least the pivot between them. -/
structure Parts.Ok (ptr nmemb : Nat) (parts : Parts) : Prop where
  fewer : parts.lt + (nmemb - parts.gt) < nmemb
  pgt_eq : parts.pgt + (nmemb - parts.gt) = ptr + nmemb

theorem splitRange_sorts (inside : ptr + nmemb ≤ arr.nmemb) (some' : 6 < nmemb)
    (enough : nmemb < fuel) : Sorts arr (splitRange arr fuel ptr nmemb) fun parts => parts.Ok ptr nmemb := by
  refine sorts_bind (med3_sorts (by omega) (by omega) (by omega)) fun m inM => ?_
  refine sorts_bind (swap_sorts (by omega) inM) fun _ _ => ?_
  have start : Scan.Ok ptr nmemb ⟨1, 1, nmemb, ptr + 1, ptr + nmemb, ptr + 1, ptr + nmemb⟩ := by
    constructor <;> simp only <;> omega
  refine sorts_bind (partition_sorts inside start (by simp only; omega) (by simp only; omega) enough) fun v ok => ?_
  obtain ⟨pi_eq, plt_eq, pgt_eq, pivot, lt_le, i_le, gt_le, -⟩ := ok
  refine sorts_bind (swapBlock_sorts ?_ ?_) fun _ _ => sorts_bind (swapBlock_sorts ?_ ?_) fun _ _ => sorts_pure ?_
  · split <;> omega
  · split <;> omega
  · split <;> omega
  · split <;> omega
  · constructor <;> simp only <;> omega

end Partition

section Loops

theorem sink_sorts {pj : Nat} (inside : pj < arr.nmemb) : Sorts arr (sink arr ptr pj) fun _ => True := by
  induction pj with
  | zero => exact sorts_pure trivial
  | succ pj ih =>
    unfold sink
    split
    · refine sorts_bind (compare_sorts (by omega) (by omega)) fun _ _ => ?_
      split
      · exact sorts_bind (swap_sorts (by omega) (by omega)) fun _ _ => ih (by omega)
      · exact sorts_pure trivial
    · exact sorts_pure trivial

theorem insertionSort_sorts {pi left : Nat} (inside : left = 0 ∨ pi + left ≤ arr.nmemb) :
    Sorts arr (insertionSort arr ptr pi left) fun _ => True := by
  induction left generalizing pi with
  | zero => exact sorts_pure trivial
  | succ left ih => exact sorts_bind (sink_sorts (by omega)) fun _ _ => ih (by omega)

def Range.Ok (arr : Arr C) (range : Range) : Prop := range.base + range.count ≤ arr.nmemb

/-- The ranges on the stack have increasing depths, so that there are no more of them than the depth allows. -/
def StackOk (arr : Arr C) : List Range → Prop
  | [] => True
  | range :: rest => range.Ok arr ∧ rest.length ≤ range.depth ∧ range.depth ≤ 50 ∧ StackOk arr rest

def weight : List Range → Nat
  | [] => 0
  | range :: rest => 2 * range.count + 1 + weight rest

theorem push_sorts (room : stack.length < 50) :
    Sorts arr (push range stack : Run C _) fun stack' => stack' = range :: stack := by
  unfold push
  rw [if_pos room]
  exact sorts_pure rfl

theorem splitLoop_sorts (inside : range.Ok arr) (stackOk : StackOk arr stack) (deep : stack.length ≤ range.depth)
    (limit : range.depth ≤ 50) (inner : arr.nmemb < innerFuel) (enough : range.count < fuel) :
    Sorts arr (splitLoop arr innerFuel fuel range stack) fun r => r.1.Ok arr ∧ StackOk arr r.2 ∧
      weight r.2 + 2 * r.1.count ≤ weight stack + 2 * range.count := by
  induction fuel generalizing range stack with
  | zero => omega
  | succ fuel ih =>
    obtain ⟨ptr, nmemb, depth⟩ := range
    unfold Range.Ok at inside
    simp only at inside deep limit enough
    unfold splitLoop
    split
    · next some' =>
        split
        · refine sorts_bind (heapsortx_sorts inside (by omega)) fun _ _ => sorts_pure ⟨?_, stackOk, ?_⟩
          · simp only [Range.Ok]
            omega
          · simp only
            omega
        · next shallow =>
            refine sorts_bind (splitRange_sorts inside some' (by omega)) fun parts ok => ?_
            obtain ⟨fewer, pgt_eq⟩ := ok
            have left : StackOk arr (⟨ptr, parts.lt, depth + 1⟩ :: stack) := by
              refine ⟨?_, ?_, ?_, stackOk⟩ <;> simp only [Range.Ok] <;> omega
            have right : StackOk arr (⟨parts.pgt, nmemb - parts.gt, depth + 1⟩ :: stack) := by
              refine ⟨?_, ?_, ?_, stackOk⟩ <;> simp only [Range.Ok] <;> omega
            -- one part waits on the stack while the loop goes on with the other
            have next (part rest : Range) (insideRest : rest.Ok arr) (waits : StackOk arr (part :: stack))
                (depth_eq : rest.depth = depth + 1) (lighter : part.count + rest.count < nmemb) :
                Sorts arr (push part stack >>= splitLoop arr innerFuel fuel rest) fun r => r.1.Ok arr ∧
                  StackOk arr r.2 ∧
                  weight r.2 + 2 * r.1.count ≤ weight stack + 2 * nmemb := by
              refine sorts_bind (push_sorts (by omega)) fun stack' pushed => ?_
              subst pushed
              refine (ih insideRest waits ?_ (by omega) (by omega)).mono ?_
              · rw [List.length_cons]
                omega
              · rintro r ⟨inside', stackOk', less⟩
                simp only [weight] at less
                exact ⟨inside', stackOk', by omega⟩
            split
            · exact next _ _ right.1 left rfl fewer
            · exact next _ _ left.1 right rfl (by simp only; omega)
    · exact sorts_pure ⟨inside, stackOk, le_rfl⟩

theorem sortLoop_sorts (stackOk : StackOk arr stack) (inner : arr.nmemb < innerFuel) (enough : weight stack < fuel) :
    Sorts arr (sortLoop arr innerFuel fuel stack) fun _ => True := by
  induction fuel generalizing stack with
  | zero => omega
  | succ fuel ih =>
    cases stack with
    | nil => exact sorts_pure trivial
    | cons range stack =>
      obtain ⟨inside, deep, limit, stackOk⟩ := stackOk
      have count : range.count ≤ arr.nmemb := (Nat.le_add_left ..).trans inside
      refine sorts_bind (splitLoop_sorts inside stackOk deep limit inner (by omega)) fun r
        ⟨inside', stackOk', lighter⟩ => ?_
      obtain ⟨range', stack'⟩ := r
      simp only [weight, Range.Ok] at enough lighter inside'
      have small : range'.count - 1 = 0 ∨ range'.base + 1 + (range'.count - 1) ≤ arr.nmemb := by omega
      exact sorts_bind (insertionSort_sorts small) fun _ _ => ih stackOk' (by omega)

end Loops

/-- The sort returns for every comparison function, element size and memory, which says that no comparison, exchange or
push was out of bounds, and what it leaves is a permutation of the elements. -/
theorem rqsort_permutes (arr : Arr C) (s : State C) (extra : Nat) :
    ∃ s', rqsort arr (2 * arr.nmemb + 2 + extra) s = some (.ok ((), s')) ∧
      (elements arr.base arr.size arr.nmemb s'.mem).Perm (elements arr.base arr.size arr.nmemb s.mem) ∧ ∀ x,
      x < arr.base ∨ arr.base + arr.nmemb * arr.size ≤ x → s'.mem x = s.mem x := by
  have sorts : Sorts arr (rqsort arr (2 * arr.nmemb + 2 + extra)) fun _ => True := by
    unfold rqsort
    split
    · exact sorts_pure trivial
    · refine sortLoop_sorts ⟨?_, le_rfl, by simp, trivial⟩ (by omega) (by simp only [weight]; omega)
      simp [Range.Ok]
  obtain ⟨_, s', ok, kept, -⟩ := sorts s
  exact ⟨s', ok, kept.perm, kept.outside⟩

end Rqsort
