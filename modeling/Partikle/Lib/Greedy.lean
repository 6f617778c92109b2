import Mathlib.Data.List.Basic
import Mathlib.Logic.Function.Iterate
import Mathlib.Order.Basic

/-!
A partial step, repeated as often as it goes: what is offered when the longest repetition is tried first and each
failure takes one repetition back, and how to get the same by stepping forward once and then backward.
-/

namespace Greedy

open Option

variable {α : Type} (step : α → Option α)

def iterate : Nat → α → Option α
  | 0, a => some a
  | n + 1, a => (step a).bind (iterate n)

/-- The ends of at most `n` repetitions, the longest first. -/
def greedy : Nat → α → List α
  | 0, a => [a]
  | n + 1, a =>
    (match step a with
      | none => []
      | some b => greedy n b) ++ [a]

def climb : Nat → α → Nat × α
  | 0, a => (0, a)
  | n + 1, a =>
    match step a with
    | none => (0, a)
    | some b => ((climb n b).1 + 1, (climb n b).2)

def retreat (back : α → α) : Nat → α → List α
  | 0, _ => []
  | k + 1, a => back a :: retreat back k (back a)

/-- The ends of at least `min` and at most `min + n` repetitions, the longest first. -/
def offers (min n : Nat) (a : α) : List α :=
  match iterate step min a with
  | none => []
  | some b => greedy step n b

variable {step} {back : α → α}

variable {a b : α}

theorem iterate_last {n : Nat} (reached : iterate step (n + 1) a = some b) : ∃ c, step c = some b := by
  induction n generalizing a with
  | zero =>
    obtain ⟨c, next, rest⟩ := bind_eq_some_iff.mp reached
    cases rest
    exact ⟨a, next⟩
  | succ n ih =>
    obtain ⟨c, next, rest⟩ := bind_eq_some_iff.mp reached
    exact ih rest

theorem retreat_succ (k : Nat) (a : α) : retreat back (k + 1) a = retreat back k a ++ [back^[k + 1] a] := by
  induction k generalizing a with
  | zero => rfl
  | succ k ih =>
    rw [retreat, ih (back a)]
    rfl

/-- The way back undoes the step at good places, and every step from a possible place leads to a good one. -/
structure Undoes (step : α → Option α) (back : α → α) (Possible Good : α → Prop) : Prop where
  weaken : ∀ a, Good a → Possible a
  closed : ∀ a b, Possible a → step a = some b → Good b
  undo : ∀ a b, Good a → step a = some b → back b = a

variable {Possible Good : α → Prop}

section Back

variable (undoes : Undoes step back Possible Good) (n : Nat)

include undoes n

theorem Undoes.climb_back (good : Good a) : back^[(climb step n a).1] (climb step n a).2 = a := by
  induction n generalizing a with
  | zero => rfl
  | succ n ih =>
    rw [climb]
    cases next : step a with
    | none => rfl
    | some b =>
      have good' := undoes.closed a b (undoes.weaken a good) next
      rw [Function.iterate_succ_apply', ih good', undoes.undo a b good next]

theorem Undoes.retreat_reached (possible : Possible a)
    {i : Nat} (bound : i < (climb step n a).1) : ∃ b, Possible b ∧ step b = some (back^[i] (climb step n a).2) := by
  induction n generalizing a with
  | zero => cases bound
  | succ n ih =>
    rw [climb] at bound ⊢
    cases next : step a with
    | none =>
      simp [next] at bound
    | some b =>
      rw [next] at bound
      have good := undoes.closed a b possible next
      rcases Nat.lt_succ_iff_lt_or_eq.mp bound with earlier | last
      · exact ih (undoes.weaken b good) earlier
      · refine ⟨a, possible, ?_⟩
        rw [next, last, undoes.climb_back n good]

theorem Undoes.greedy_eq (good : Good a) :
    greedy step n a = (climb step n a).2 :: retreat back (climb step n a).1 (climb step n a).2 := by
  induction n generalizing a with
  | zero => rfl
  | succ n ih =>
    rw [greedy, climb]
    cases next : step a with
    | none => rfl
    | some b =>
      have good' := undoes.closed a b (undoes.weaken a good) next
      simp only
      rw [ih good', retreat_succ, Function.iterate_succ_apply', undoes.climb_back n good', undoes.undo a b good next]
      rfl

theorem Undoes.retreat_eq (possible : Possible a) (next : step a = some b) :
    (climb step (n + 1) a).2 :: retreat back (climb step (n + 1) a).1 (climb step (n + 1) a).2 = greedy step n b ++
      [back b] := by
  have good := undoes.closed a b possible next
  simp only [climb, next]
  rw [undoes.greedy_eq n good, retreat_succ, Function.iterate_succ_apply', undoes.climb_back n good]
  rfl

end Back

theorem climb_of_iterate {min : Nat} (n : Nat) (reached : iterate step min a = some b) :
    climb step (min + n) a = (min + (climb step n b).1, (climb step n b).2) := by
  induction min generalizing a with
  | zero =>
    cases reached
    simp
  | succ min ih =>
    obtain ⟨c, next, rest⟩ := bind_eq_some_iff.mp reached
    rw [Nat.succ_add, climb, next]
    simp only
    rw [ih rest]
    simp only [Prod.mk.injEq, and_true]
    omega

theorem climb_lt {min : Nat} (n : Nat) (stuck : iterate step min a = none) : (climb step (min + n) a).1 < min := by
  induction min generalizing a with
  | zero => cases stuck
  | succ min ih =>
    rw [Nat.succ_add, climb]
    cases next : step a with
    | none => exact Nat.succ_pos min
    | some b =>
      rw [iterate, next] at stuck
      exact Nat.succ_lt_succ (ih stuck)

section Order

variable [Preorder α]

theorem le_of_mem_greedy (forward : ∀ a b, step a = some b → a ≤ b) {n : Nat} (member : b ∈ greedy step n a) :
    a ≤ b := by
  induction n generalizing a with
  | zero => exact le_of_eq (List.mem_singleton.mp member).symm
  | succ n ih =>
    rw [greedy, List.mem_append] at member
    rcases member with later | here
    · cases next : step a with
      | none =>
        simp [next] at later
      | some c =>
        rw [next] at later
        exact le_trans (forward a c next) (ih later)
    · exact le_of_eq (List.mem_singleton.mp here).symm

theorem le_of_mem_offers (forward : ∀ a b, step a = some b → a ≤ b) {min n : Nat}
    (member : b ∈ offers step min n a) : a ≤ b := by
  induction min generalizing a with
  | zero => exact le_of_mem_greedy forward member
  | succ min ih =>
    cases next : step a with
    | none => simp [offers, iterate, next] at member
    | some c =>
      have later : b ∈ offers step min n c := by simpa [offers, iterate, next] using member
      exact le_trans (forward a c next) (ih later)

end Order

end Greedy
