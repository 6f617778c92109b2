import Mathlib.Logic.Basic

/-!
Computations on a state that may throw, and whose behaviour may be undefined, as when a program
reads freed memory.
-/

/-- `none` is undefined behaviour. -/
def Effect (σ ε α : Type) : Type := σ → Option (Except ε (α × σ))

namespace Effect

variable {c : Prop}

section Basics

variable {σ ε α β γ : Type}

def andThen (x : Effect σ ε α) (f : α → Effect σ ε β) : Effect σ ε β := fun s =>
  match x s with
  | none => none
  | some (.error e) => some (.error e)
  | some (.ok (a, s')) => f a s'

instance : Monad (Effect σ ε) where
  pure a := fun s => some (.ok (a, s))
  bind := andThen

def throw (e : ε) : Effect σ ε α := fun _ => some (.error e)

def undefined : Effect σ ε α := fun _ => none

def observe (f : σ → α) : Effect σ ε α := fun s => some (.ok (f s, s))

/-- Whatever `x` throws, `e` is thrown in its place. -/
def rethrow (x : Effect σ ε α) (e : ε) : Effect σ ε α := fun s =>
  match x s with
  | some (.error _) => some (.error e)
  | result => result

variable {x : Effect σ ε α} {f : α → Effect σ ε β} {s s' : σ} {a : α}

theorem bind_of_ok (ok : x s = some (.ok (a, s'))) : (x >>= f) s = f a s' := by
  show andThen x f s = _
  rw [andThen, ok]

@[simp] theorem bind_eq_ok {b : β} :
    (x >>= f) s = some (.ok (b, s')) ↔ ∃ a s1, x s = some (.ok (a, s1)) ∧ f a s1 = some (.ok (b, s')) := by
  show andThen x f s = _ ↔ _
  unfold andThen
  cases run : x s with
  | none => simp
  | some result =>
    rcases result with e | ⟨a, s1⟩
    · simp
    · simp only [Option.some.injEq, Except.ok.injEq, Prod.mk.injEq]
      exact ⟨fun next => ⟨a, s1, ⟨rfl, rfl⟩, next⟩, fun ⟨_, _, ⟨rfl, rfl⟩, next⟩ => next⟩

@[simp] theorem pure_eq_ok {b : α} : (pure a : Effect σ ε α) s = some (.ok (b, s')) ↔ a = b ∧ s = s' := by
  show some (Except.ok (a, s)) = some (.ok (b, s')) ↔ _
  simp

@[simp] theorem throw_ne_ok {e : ε} {b : α} : (throw e : Effect σ ε α) s ≠ some (.ok (b, s')) := by
  show some (Except.error e) ≠ some (.ok (b, s'))
  simp

@[simp] theorem observe_eq_ok {g : σ → α} {b : α} :
    (observe g : Effect σ ε α) s = some (.ok (b, s')) ↔ g s = b ∧ s = s' := by
  show some (Except.ok (g s, s)) = some (.ok (b, s')) ↔ _
  simp

theorem pure_or_throw_eq_ok [Decidable c] {e : ε} {b : α} :
    (if c then pure a else throw e : Effect σ ε α) s = some (.ok (b, s')) ↔ c ∧ a = b ∧ s = s' := by
  split
  · rename_i holds
    simp [holds]
  · rename_i fails
    simp [fails]

theorem throw_or_pure_eq_ok [Decidable c] {e : ε} {b : α} :
    (if c then throw e else pure a : Effect σ ε α) s = some (.ok (b, s')) ↔ ¬c ∧ a = b ∧ s = s' := by
  split
  · rename_i holds
    simp [holds]
  · rename_i fails
    simp [fails]

end Basics

section Total

variable {σ ε α β : Type}

/-- From every state the computation returns, with a value as described and a state in relation to the first. -/
def Total (R : σ → σ → Prop) (x : Effect σ ε α) (Q : α → Prop) : Prop :=
  ∀ s, ∃ a s', x s = some (.ok (a, s')) ∧ R s s' ∧ Q a

variable {R : σ → σ → Prop} {x : Effect σ ε α} {f : α → Effect σ ε β} {Q Q' : α → Prop} {P : β → Prop}

theorem Total.bind (trans : ∀ s s' s'', R s s' → R s' s'' → R s s'') (first : Total R x Q)
    (second : ∀ a, Q a → Total R (f a) P) : Total R (x >>= f) P := by
  intro s
  obtain ⟨a, s', ok, related, holds⟩ := first s
  obtain ⟨b, s'', ok', related', holds'⟩ := second a holds s'
  exact ⟨b, s'', (bind_of_ok ok).trans ok', trans s s' s'' related related', holds'⟩

theorem Total.mono (total : Total R x Q) (weaker : ∀ a, Q a → Q' a) : Total R x Q' := by
  intro s
  obtain ⟨a, s', ok, related, holds⟩ := total s
  exact ⟨a, s', ok, related, weaker a holds⟩

theorem total_pure (refl : ∀ s, R s s) {a : α} (holds : Q a) : Total R (pure a : Effect σ ε α) Q :=
  fun s => ⟨a, s, rfl, refl s, holds⟩

end Total

end Effect
