import Mathlib.Order.Lattice
import Mathlib.Data.List.Basic

/-!
Sets given by their boundaries: a list of points, in turns where the set is entered and where it is left.
-/

namespace Boundary

open List

variable {α : Type*}

def pairs : List α → List (α × α)
  | [] | [_] => []
  | low :: high :: rest => (low, high) :: pairs rest

def oddLength (points : List α) : Bool := decide (points.length % 2 = 1)

@[simp] theorem oddLength_nil : oddLength ([] : List α) = false := rfl

@[simp] theorem oddLength_cons (p : α) (points : List α) : oddLength (p :: points) = !oddLength points := by
  rw [oddLength, oddLength, length_cons, ← decide_not, decide_eq_decide]
  omega

@[simp] theorem oddLength_append (points points' : List α) :
    oddLength (points ++ points') = (oddLength points ^^ oddLength points') := by
  induction points with
  | nil => simp
  | cons p points ih => simp [ih]

variable [LinearOrder α] {points points' : List α} {p x : α}

def Inside (points : List α) (x : α) : Prop := ∃ p ∈ pairs points, p.1 ≤ x ∧ x < p.2

instance (points : List α) (x : α) : Decidable (Inside points x) :=
  inferInstanceAs (Decidable (∃ p ∈ pairs points, p.1 ≤ x ∧ x < p.2))

def crossed : List α → α → Bool
  | [], _ => false
  | p :: rest, x => decide (p ≤ x) ^^ crossed rest x

@[simp] theorem crossed_append (points points' : List α) (x : α) :
    crossed (points ++ points') x = (crossed points x ^^ crossed points' x) := by
  induction points with
  | nil => simp [crossed]
  | cons p points ih => simp [crossed, ih]

theorem crossed_of_lt (above : ∀ p ∈ points, x < p) : crossed points x = false := by
  induction points with
  | nil => rfl
  | cons p points ih =>
    have first := above p (by simp)
    simp [crossed, ih fun p mem => above p (by simp [mem]), first]

theorem crossed_of_le (below : ∀ p ∈ points, p ≤ x) : crossed points x = oddLength points := by
  induction points with
  | nil => rfl
  | cons p points ih =>
    have first := below p (by simp)
    simp [crossed, ih fun p mem => below p (by simp [mem]), first]

@[simp] theorem not_inside_nil : ¬Inside [] x := by simp [Inside, pairs]

@[simp] theorem inside_cons {low high : α} :
    Inside (low :: high :: points) x ↔ low ≤ x ∧ x < high ∨ Inside points x := by
  simp [Inside, pairs]

theorem inside_append (even : oddLength points = false) :
    Inside (points ++ points') x ↔ Inside points x ∨ Inside points' x := by
  induction points using pairs.induct with
  | case1 => simp
  | case2 => simp at even
  | case3 low high rest ih =>
    rw [List.cons_append, List.cons_append, inside_cons, inside_cons, ih (by simpa using even), or_assoc]

theorem inside_iff_crossed (ordered : points.Pairwise (· ≤ ·)) (even : oddLength points = false) :
    Inside points x ↔ crossed points x = true := by
  induction points using pairs.induct with
  | case1 => simp [crossed]
  | case2 => simp at even
  | case3 low high rest ih =>
    simp only [pairwise_cons, mem_cons, forall_eq_or_imp] at ordered
    obtain ⟨⟨valid, -⟩, behind, ordered⟩ := ordered
    have rest_iff := ih ordered (by simpa using even)
    rw [inside_cons, rest_iff, crossed, crossed]
    rcases lt_or_ge x high with before | past
    · have none : crossed rest x = false := crossed_of_lt fun p mem => before.trans_le (behind p mem)
      simp [none, before, not_le.mpr before]
    · simp [past, valid.trans past, not_lt.mpr past]

theorem eq_of_crossed (ordered : points.Pairwise (· < ·)) (ordered' : points'.Pairwise (· < ·))
    (same : ∀ x, crossed points x = crossed points' x) : points = points' := by
  have first : ∀ {p : α} {rest : List α}, (p :: rest).Pairwise (· < ·) → crossed (p :: rest) p = true := by
    intro p rest ordered
    simp [crossed, crossed_of_lt (pairwise_cons.mp ordered).1]
  have before : ∀ {p q : α} {rest : List α}, (p :: rest).Pairwise (· < ·) → q < p → crossed (p :: rest) q = false := by
    intro p q rest ordered less
    apply crossed_of_lt
    simp only [mem_cons, forall_eq_or_imp]
    exact ⟨less, fun r mem => less.trans ((pairwise_cons.mp ordered).1 r mem)⟩
  induction points generalizing points' with
  | nil =>
    cases points' with
    | nil => rfl
    | cons q rest' =>
      have there := same q
      rw [first ordered'] at there
      cases there
  | cons p rest ih =>
    cases points' with
    | nil =>
      have there := same p
      rw [first ordered] at there
      cases there
    | cons q rest' =>
      have equal : p = q := by
        rcases lt_trichotomy p q with less | equal | less
        · have there := same p
          simp [first ordered, before ordered' less] at there
        · exact equal
        · have there := same q
          simp [first ordered', before ordered less] at there
      subst equal
      rw [ih ordered.of_cons ordered'.of_cons fun x => by simpa [crossed] using same x]

end Boundary
