import Mathlib.Logic.Function.Basic

/-!
Partial maps as functions to an option: what is found after one of them has been given a value at one place.
-/

variable {α β : Type*} [DecidableEq α] {f : α → Option β} {a x : α} {b y : β}

theorem update_some (found : Function.update f a (some b) x = some y) : x = a ∧ y = b ∨ x ≠ a ∧ f x = some y := by
  by_cases same : x = a
  · rw [same, Function.update_self, Option.some.injEq] at found
    exact .inl ⟨same, found.symm⟩
  · rw [Function.update_of_ne same] at found
    exact .inr ⟨same, found⟩
