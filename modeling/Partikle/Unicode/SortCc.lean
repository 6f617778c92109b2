import Mathlib.Data.List.Sort
import Mathlib.Data.List.TakeWhile

/-!
`sort_cc`, which puts combining characters into canonical order. What `unicode_get_cc` reads from its tables is a
parameter.
-/

namespace Unicode

open List

variable (cc : Nat → Nat)

/-- The inner loop, from `k + 1` on, and the store behind it. -/
def insertBack (start ch1 : Nat) : Nat → List Nat → List Nat
  | 0, buf => buf.set 0 ch1
  | k + 1, buf =>
    if start ≤ k ∧ cc ch1 < cc (buf.getD k 0) then insertBack start ch1 k (buf.set (k + 1) (buf.getD k 0))
    else buf.set (k + 1) ch1

def sortRun (start : Nat) : Nat → Nat → List Nat → Nat × List Nat
  | 0, j, buf => (j, buf)
  | fuel + 1, j, buf =>
    if j < buf.length ∧ cc (buf.getD j 0) ≠ 0 then sortRun start fuel (j + 1) (insertBack cc start (buf.getD j 0) j buf)
    else (j, buf)

def sortCcFrom : Nat → Nat → List Nat → List Nat
  | 0, _, buf => buf
  | fuel + 1, i, buf =>
    if i < buf.length then
      if cc (buf.getD i 0) ≠ 0 then
        let (j, buf) := sortRun cc i buf.length (i + 1) buf
        sortCcFrom fuel (j + 1) buf
      else sortCcFrom fuel (i + 1) buf
    else buf

def sortCc (buf : List Nat) : List Nat := sortCcFrom cc buf.length 0 buf

/-- Each maximal run of combining characters is in stable order, and all other characters are where they were. -/
inductive Reordered : List Nat → List Nat → Prop
  | nil : Reordered [] []
  | starter {c : Nat} {s t : List Nat} : cc c = 0 → Reordered s t → Reordered (c :: s) (c :: t)
  | run {marks marks' s t : List Nat} : (∀ c ∈ marks, cc c ≠ 0) → (∀ c ∈ s.head?, cc c = 0) → marks'.Perm marks →
      marks'.Pairwise (cc · ≤ cc ·) → (∀ k, marks'.filter (cc · = k) = marks.filter (cc · = k)) →
      Reordered s t → Reordered (marks ++ s) (marks' ++ t)

/-- The library's insertion sort from the other end. -/
def stableSort (marks : List Nat) : List Nat := (marks.reverse.insertionSort fun a b => cc b ≤ cc a).reverse

theorem stableSort_perm (marks : List Nat) : (stableSort cc marks).Perm marks :=
  (reverse_perm _).trans ((perm_insertionSort _ _).trans (reverse_perm _))

theorem stableSort_sorted (marks : List Nat) : (stableSort cc marks).Pairwise (cc · ≤ cc ·) := by
  have : Std.Total fun a b => cc b ≤ cc a := ⟨fun a b => le_total _ _⟩
  have : IsTrans Nat fun a b => cc b ≤ cc a := ⟨fun a b c ab bc => bc.trans ab⟩
  exact pairwise_reverse.mpr (pairwise_insertionSort _ _)

/-- Characters of one class are a sorted sublist, so they keep their order. -/
theorem stableSort_filter (marks : List Nat) (k : Nat) :
    (stableSort cc marks).filter (cc · = k) = marks.filter (cc · = k) := by
  have ordered : (marks.reverse.filter (cc · = k)).Pairwise fun a b => cc b ≤ cc a := by
    refine pairwise_of_forall_mem_list fun a inside b inside' => ?_
    simp only [mem_filter, decide_eq_true_eq] at inside inside'
    omega
  have kept := (sublist_insertionSort ordered filter_sublist).filter (cc · = k)
  have same := ((perm_insertionSort (fun a b => cc b ≤ cc a) marks.reverse).filter (cc · = k)).length_eq
  rw [filter_filter] at kept
  simp only [Bool.and_self] at kept
  rw [stableSort, filter_reverse, ← kept.eq_of_length same.symm, filter_reverse, reverse_reverse]

theorem getD_behind (l l' : List Nat) (c : Nat) : (l ++ c :: l').getD l.length 0 = c := by simp

theorem insertBack_eq (done rev : List Nat) (ch1 gap : Nat) (rest : List Nat) :
    insertBack cc done.length ch1 (done ++ rev.reverse).length (done ++ rev.reverse ++ gap :: rest) =
      done ++ (rev.orderedInsert (fun a b => cc b ≤ cc a) ch1).reverse ++ rest := by
  induction rev generalizing gap rest with
  | nil => cases h : done.length <;> simp [insertBack, h]
  | cons y rev ih =>
    have store (c : Nat) : (done ++ rev.reverse ++ y :: gap :: rest).set ((done ++ rev.reverse).length + 1) c =
        done ++ rev.reverse ++ y :: c :: rest := by
      rw [set_append_right _ _ (Nat.le_succ _)]
      simp
    have split : done ++ (y :: rev).reverse = done ++ rev.reverse ++ [y] := by simp
    rw [split, length_append, length_singleton, append_assoc (_ ++ _), singleton_append, insertBack,
      getD_behind, store, store, orderedInsert_cons]
    by_cases less : cc ch1 < cc y
    · rw [if_pos ⟨by simp, less⟩, ih, if_neg (by omega)]
      simp
    · rw [if_neg (by omega), if_pos (by omega)]
      simp

theorem sortRun_eq (done seen rest : List Nat) {fuel : Nat} (enough : rest.length < fuel) :
    let sorted := done ++ stableSort cc (seen ++ rest.takeWhile (cc · ≠ 0))
    sortRun cc done.length fuel (done ++ stableSort cc seen).length (done ++ stableSort cc seen ++ rest) =
      (sorted.length, sorted ++ rest.dropWhile (cc · ≠ 0)) := by
  induction rest generalizing seen fuel with
  | nil => cases fuel <;> simp [sortRun]
  | cons c rest ih =>
    obtain ⟨fuel, rfl⟩ : ∃ n, fuel = n + 1 := ⟨fuel - 1, by omega⟩
    rw [sortRun, getD_behind]
    by_cases zero : cc c = 0
    · simp [zero]
    · have placed : insertBack cc done.length c (done ++ stableSort cc seen).length
          (done ++ stableSort cc seen ++ c :: rest) = done ++ stableSort cc (seen ++ [c]) ++ rest := by
        rw [stableSort, insertBack_eq, stableSort, reverse_append]
        rfl
      have length : (done ++ stableSort cc seen).length + 1 = (done ++ stableSort cc (seen ++ [c])).length := by
        simp [(stableSort_perm cc _).length_eq, Nat.add_assoc]
      rw [if_pos ⟨by simp, zero⟩, placed, length, ih (seen ++ [c]) (by simpa using enough)]
      simp [zero]

theorem sortCcFrom_reordered {fuel : Nat} (done todo : List Nat) (enough : todo.length ≤ fuel) :
    ∃ out, sortCcFrom cc fuel done.length (done ++ todo) = done ++ out ∧ Reordered cc todo out := by
  induction fuel generalizing done todo with
  | zero =>
    obtain rfl : todo = [] := by simpa using enough
    exact ⟨[], rfl, .nil⟩
  | succ fuel ih =>
    cases todo with
    | nil => exact ⟨[], by simp [sortCcFrom], .nil⟩
    | cons c rest =>
      rw [sortCcFrom, if_pos (by simp), getD_behind]
      by_cases zero : cc c = 0
      · obtain ⟨out, sorted, reordered⟩ := ih (done ++ [c]) rest (by simpa using enough)
        rw [if_neg (not_not.mpr zero)]
        exact ⟨c :: out, by simpa using sorted, .starter zero reordered⟩
      · have here : done ++ c :: rest = done ++ stableSort cc [c] ++ rest := by simp [stableSort]
        have next : done.length + 1 = (done ++ stableSort cc [c]).length := by simp [stableSort]
        rw [if_pos zero, next, here, sortRun_eq cc done [c] rest (by simp [stableSort]; omega)]
        have marks (c' : Nat) (inside : c' ∈ rest.takeWhile (cc · ≠ 0)) : cc c' ≠ 0 := by
          simpa using mem_takeWhile_imp inside
        have stop (z : Nat) (first : z ∈ (rest.dropWhile (cc · ≠ 0)).head?) : cc z = 0 := by
          have fails := head?_dropWhile_not (cc · ≠ 0) rest
          simp_all
        have whole := takeWhile_append_dropWhile (p := (cc · ≠ 0)) (l := rest)
        generalize rest.takeWhile (cc · ≠ 0) = run at *
        generalize rest.dropWhile (cc · ≠ 0) = tail at *
        subst whole
        have reorders {out : List Nat} (reordered : Reordered cc tail out) :
            Reordered cc (c :: (run ++ tail)) (stableSort cc (c :: run) ++ out) :=
          .run (forall_mem_cons.mpr ⟨zero, marks⟩) stop (stableSort_perm cc _) (stableSort_sorted cc _)
            (stableSort_filter cc _) reordered
        cases tail with
        | nil =>
          refine ⟨_, ?_, reorders .nil⟩
          cases fuel <;> simp [sortCcFrom]
        | cons z tail =>
          obtain ⟨out, sorted, reordered⟩ :=
            ih (done ++ stableSort cc (c :: run) ++ [z]) tail (by simp at enough; omega)
          refine ⟨_, ?_, reorders (.starter (stop z rfl) reordered)⟩
          simpa [Nat.add_assoc] using sorted

theorem sortCc_reordered (buf : List Nat) : Reordered cc buf (sortCc cc buf) := by
  obtain ⟨out, sorted, reordered⟩ := sortCcFrom_reordered cc [] buf (le_refl _)
  rw [sortCc]
  exact sorted ▸ reordered

end Unicode
