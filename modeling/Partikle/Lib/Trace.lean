import Mathlib.Logic.Basic

/-!
Runs of a system whose steps are actions, each of which may be refused and writes events to a log. What
holds of every reached state and its log is proved by one step; a property that one step keeps exactly when a condition
holds there holds in the end exactly when the condition held all along.
-/

namespace Trace

variable {S A E : Type} (step : S → A → Option (S × List E))

def run : S → List E → List A → Option (S × List E)
  | s, log, [] => some (s, log)
  | s, log, a :: rest =>
    match step s a with
    | none => none
    | some (s', events) => run s' (log ++ events) rest

def Along (C : S → A → Prop) : S → List A → Prop
  | _, [] => True
  | s, a :: rest => C s a ∧ ∀ s' events, step s a = some (s', events) → Along C s' rest

variable {step} {s s' : S} {log log' : List E} {actions : List A}

variable {P : S → List E → Prop} {C : S → A → Prop}

variable {a : A} {events : List E} {t : S}

theorem run_cons (reached : run step s log (a :: actions) = some (s', log')) :
    ∃ t events, step s a = some (t, events) ∧ run step t (log ++ events) actions = some (s', log') := by
  unfold run at reached
  cases next : step s a with
  | none => simp [next] at reached
  | some result =>
    rw [next] at reached
    exact ⟨result.1, result.2, rfl, reached⟩

theorem forall_step (next : step s a = some (t, events)) {R : S → List E → Prop} :
    (∀ s' events, step s a = some (s', events) → R s' events) ↔ R t events := by
  refine ⟨fun all => all t events next, fun one s' events' same => ?_⟩
  rw [next] at same
  cases same
  exact one

theorem along_cons (next : step s a = some (t, events)) :
    Along step C s (a :: actions) ↔ C s a ∧ Along step C t actions :=
  and_congr_right fun _ => forall_step next (R := fun t _ => Along step C t actions)

theorem run_invariant (keep : ∀ s log a s' events, P s log → step s a = some (s', events) → P s' (log ++ events))
    (start : P s log) (reached : run step s log actions = some (s', log')) : P s' log' := by
  induction actions generalizing s log with
  | nil =>
    cases reached
    exact start
  | cons a rest ih =>
    obtain ⟨t, events, next, reached⟩ := run_cons reached
    exact ih (keep s log a t events start next) reached

theorem along_and {D : S → A → Prop} (first : Along step C s actions) (second : Along step D s actions) :
    Along step (fun s a => C s a ∧ D s a) s actions := by
  induction actions generalizing s with
  | nil => trivial
  | cons a rest ih =>
    refine ⟨⟨first.1, second.1⟩, fun s' events next => ?_⟩
    exact ih (first.2 s' events next) (second.2 s' events next)

theorem run_invariant_along
    (keep : ∀ s log a s' events, P s log → C s a → step s a = some (s', events) → P s' (log ++ events))
    (start : P s log) (along : Along step C s actions) (reached : run step s log actions = some (s', log')) :
    P s' log' := by
  induction actions generalizing s log with
  | nil =>
    cases reached
    exact start
  | cons a rest ih =>
    obtain ⟨t, events, next, reached⟩ := run_cons reached
    exact ih (keep s log a t events start along.1 next) (along.2 t events next) reached

theorem run_iff {Q : S → List E → Prop}
    (keep : ∀ s log a s' events, P s log → step s a = some (s', events) → P s' (log ++ events))
    (exact' : ∀ s log a s' events, P s log → step s a = some (s', events) → (Q s' (log ++ events) ↔ Q s log ∧ C s a))
    (start : P s log) (reached : run step s log actions = some (s', log')) :
    Q s' log' ↔ Q s log ∧ Along step C s actions := by
  induction actions generalizing s log with
  | nil =>
    cases reached
    exact (and_iff_left trivial).symm
  | cons a rest ih =>
    obtain ⟨t, events, next, reached⟩ := run_cons reached
    rw [ih (keep s log a t events start next) reached, exact' s log a t events start next, and_assoc, along_cons next]

theorem along_iff_forall {C : A → Prop} (reached : run step s log actions = some (s', log')) :
    Along step (fun _ => C) s actions ↔ ∀ a ∈ actions, C a := by
  induction actions generalizing s log with
  | nil => exact iff_of_true trivial (by simp)
  | cons a rest ih =>
    obtain ⟨t, events, next, reached⟩ := run_cons reached
    rw [List.forall_mem_cons, along_cons next, ← ih reached]

theorem run_append {more : List A} :
    run step s log (actions ++ more) = (run step s log actions).bind fun r => run step r.1 r.2 more := by
  induction actions generalizing s log with
  | nil => rfl
  | cons a rest ih =>
    simp only [List.cons_append, run]
    cases step s a with
    | none => rfl
    | some result => exact ih

/-- One property lasts as long as the condition holds before each action, and another one from the first
action on that breaks it. -/
theorem run_breaks {P Q : S → Prop} (keep : ∀ s a s' events, P s → C s a → step s a = some (s', events) → P s')
    (break' : ∀ s a s' events, P s → ¬C s a → step s a = some (s', events) → Q s')
    (lasts : ∀ s a s' events, Q s → step s a = some (s', events) → Q s') (start : P s)
    (reached : run step s log actions = some (s', log')) :
    (Along step C s actions → P s') ∧ (¬Along step C s actions → Q s') := by
  induction actions generalizing s log with
  | nil =>
    cases reached
    exact ⟨fun _ => start, fun broken => absurd trivial broken⟩
  | cons a rest ih =>
    obtain ⟨t, events, next, reached⟩ := run_cons reached
    have later : ¬C s a → Q s' := by
      intro broken
      refine run_invariant (P := fun s _ => Q s) ?_ (break' s a t events start broken next) reached
      exact fun s _ a s' events => lasts s a s' events
    by_cases holds : C s a
    · rw [along_cons next, and_iff_right holds]
      exact ih (keep s a t events start holds next) reached
    · exact ⟨fun all => absurd all.1 holds, fun _ => later holds⟩

variable (step) in
def Throughout (Q : S → Prop) : S → List A → Prop
  | s, [] => Q s
  | s, a :: rest => Q s ∧ ∀ s' events, step s a = some (s', events) → Throughout Q s' rest

theorem throughout_iff {P Q : S → Prop} {D : S → A → Prop}
    (keep : ∀ s a s' events, P s → step s a = some (s', events) → P s')
    (exact' : ∀ s a s' events, P s → Q s → D s a → step s a = some (s', events) → (Q s' ↔ C s a)) (start : P s)
    (holds : Q s) (within : Along step D s actions) (reached : run step s log actions = some (s', log')) :
    Throughout step Q s actions ↔ Along step C s actions := by
  induction actions generalizing s log with
  | nil => exact iff_of_true holds trivial
  | cons a rest ih =>
    obtain ⟨t, events, next, reached⟩ := run_cons reached
    have here := exact' s a t events start holds within.1 next
    have within := within.2 t events next
    rw [Throughout, along_cons next, forall_step next (R := fun s' _ => Throughout step Q s' rest), ← here]
    constructor
    · rintro ⟨-, all⟩
      have holds' : Q t := by
        cases rest with
        | nil => exact all
        | cons b rest => exact all.1
      exact ⟨holds', (ih (keep s a t events start next) holds' within reached).mp all⟩
    · rintro ⟨holds', along⟩
      exact ⟨holds, (ih (keep s a t events start next) holds' within reached).mpr along⟩

end Trace
