import Mathlib.Logic.Basic

/-!
Failures to set up an await. The driver of an async function does that while the body is suspended; so does that of
an async generator. The body is user code: it is resumed with an input and acts until it awaits or ends.
-/

namespace AsyncFunction

inductive Input (V : Type) where
  | start
  | awaited (value : V)
  | thrown (error : V)

inductive Completion (V : Type) where
  | returns (value : V)
  | throws (error : V)
  | yields (value : V)

inductive Stop (V : Type) where
  | awaits (value : V)
  | ends (completion : Completion V)

/-- What the body does after it has been resumed with these inputs, one after the other. -/
abbrev Body (A V : Type) := List (Input V) → List A × Stop V

/-- The functions that set up an await. They may run user code, as the getter of `constructor`, or lack memory. -/
structure Setup (V P : Type) where
  promiseResolve : List (Input V) → V → Except V P
  resolveCreate : List (Input V) → Except V Unit
  performPromiseThen : List (Input V) → P → Except V Unit

inductive Outcome (V P : Type) where
  | awaiting (resumed : List (Input V)) (promise : P)
  | settled (completion : Completion V)

variable {A V P : Type}

def Setup.await (setup : Setup V P) (resumed : List (Input V)) (value : V) : Except V P := do
  let promise ← setup.promiseResolve resumed value
  setup.resolveCreate resumed
  setup.performPromiseThen resumed promise
  pure promise

section Code

variable (body : Body A V) (setup : Setup V P)

/-- The label `fail` gives the exception to the function that rejects the promise. -/
def jsAsyncFunctionResume (resumed : List (Input V)) : List A × Outcome V P :=
  match body resumed with
  | (actions, .ends completion) => (actions, .settled completion)
  | (actions, .awaits value) =>
    match setup.await resumed value with
    | .ok promise => (actions, .awaiting resumed promise)
    | .error error => (actions, .settled (.throws error))

/-- The loop of `js_async_generator_resume_next` at the label `resume_exec`. -/
def resumeExec : Nat → List (Input V) → Option (List A × Outcome V P)
  | 0, _ => none
  | fuel + 1, resumed =>
    match body resumed with
    | (actions, .ends completion) => some (actions, .settled completion)
    | (actions, .awaits value) =>
      match setup.await resumed value with
      | .ok promise => some (actions, .awaiting resumed promise)
      | .error error => (resumeExec fuel (resumed ++ [.thrown error])).map fun r => (actions ++ r.1, r.2)

end Code

/-- `Await` of ECMAScript: an exception while it is set up is thrown where the body awaits. -/
inductive EcmaResumes (body : Body A V) (setup : Setup V P) : List (Input V) → List A × Outcome V P → Prop
  | ends {resumed actions completion} : body resumed = (actions, .ends completion) →
      EcmaResumes body setup resumed (actions, .settled completion)
  | awaits {resumed actions value promise} : body resumed = (actions, .awaits value) →
      setup.await resumed value = .ok promise → EcmaResumes body setup resumed (actions, .awaiting resumed promise)
  | thrown {resumed actions value error more outcome} : body resumed = (actions, .awaits value) →
      setup.await resumed value = .error error →
      EcmaResumes body setup (resumed ++ [.thrown error]) (more, outcome) →
      EcmaResumes body setup resumed (actions ++ more, outcome)

variable {body : Body A V} {setup : Setup V P} {resumed : List (Input V)} {result : List A × Outcome V P}
  {actions : List A} {value error : V}

theorem ecmaResumes_failure (stops : body resumed = (actions, .awaits value))
    (fails : setup.await resumed value = .error error) : EcmaResumes body setup resumed result ↔
      ∃ more outcome, result = (actions ++ more, outcome) ∧
      EcmaResumes body setup (resumed ++ [.thrown error]) (more, outcome) := by
  constructor
  · intro resumes
    cases resumes with
    | ends stops' => simp [stops] at stops'
    | awaits stops' done =>
      rw [stops] at stops'
      cases stops'
      simp [fails] at done
    | thrown stops' fails' rest =>
      rw [stops] at stops'
      cases stops'
      rw [fails] at fails'
      cases fails'
      exact ⟨_, _, rfl, rest⟩
  · rintro ⟨more, outcome, rfl, rest⟩
    exact .thrown stops fails rest

theorem resumeExec_conforms :
    EcmaResumes body setup resumed result ↔ ∃ fuel, resumeExec body setup fuel resumed = some result := by
  constructor
  · intro resumes
    induction resumes with
    | ends stops => exact ⟨1, by simp [resumeExec, stops]⟩
    | awaits stops done => exact ⟨1, by simp [resumeExec, stops, done]⟩
    | thrown stops fails _ ih =>
      obtain ⟨fuel, runs⟩ := ih
      exact ⟨fuel + 1, by simp [resumeExec, stops, fails, runs]⟩
  · rintro ⟨fuel, runs⟩
    induction fuel generalizing resumed result with
    | zero => cases runs
    | succ fuel ih =>
      unfold resumeExec at runs
      split at runs
      · rename_i stops
        cases runs
        exact .ends stops
      · rename_i stops
        split at runs
        · rename_i done
          cases runs
          exact .awaits stops done
        · rename_i fails
          obtain ⟨⟨more, outcome⟩, rest, rfl⟩ := Option.map_eq_some_iff.mp runs
          exact .thrown stops fails (ih rest)

/-- An async function behaves as if the exception were thrown inside exactly if it would then do nothing but end with
it; an async generator always does. -/
theorem awaitFailure_thrown_iff (body : Body A V) (setup : Setup V P) (resumed : List (Input V)) :
    (EcmaResumes body setup resumed (jsAsyncFunctionResume body setup resumed) ↔
      ∀ actions value error, body resumed = (actions, .awaits value) → setup.await resumed value = .error error →
        EcmaResumes body setup (resumed ++ [.thrown error]) ([], .settled (.throws error))) ∧
    ∀ result, EcmaResumes body setup resumed result ↔ ∃ fuel, resumeExec body setup fuel resumed = some result := by
  refine ⟨?_, fun result => resumeExec_conforms⟩
  unfold jsAsyncFunctionResume
  split
  · rename_i actions completion stops
    refine iff_of_true (.ends stops) fun actions' value error stops' => ?_
    simp [stops] at stops'
  · rename_i actions value stops
    split
    · rename_i promise done
      refine iff_of_true (.awaits stops done) fun actions' value' error stops' fails => ?_
      rw [stops] at stops'
      cases stops'
      simp [done] at fails
    · rename_i error fails
      rw [ecmaResumes_failure stops fails]
      constructor
      · rintro ⟨more, outcome, same, rest⟩ actions' value' error' stops' fails'
        rw [stops] at stops'
        cases stops'
        rw [fails] at fails'
        cases fails'
        simp only [Prod.mk.injEq, List.self_eq_append_right] at same
        obtain ⟨rfl, rfl⟩ := same
        exact rest
      · intro all
        exact ⟨[], _, by simp, all actions value error stops fails⟩

/-- A function that awaits a value in a `try` and returns 1 in the `catch`. -/
def catching : Body Unit Nat
  | [_, .thrown _] => ([], .ends (.returns 1))
  | _ => ([], .awaits 0)

def throwingGetter : Setup Nat Unit := ⟨fun _ _ => .error 7, fun _ => pure (), fun _ _ => pure ()⟩

theorem catch_does_not_run :
    jsAsyncFunctionResume catching throwingGetter [.start] = ([], .settled (.throws 7)) ∧
      EcmaResumes catching throwingGetter [.start] ([], .settled (.returns 1)) ∧
      ¬EcmaResumes catching throwingGetter [.start] ([], .settled (.throws 7)) := by
  refine ⟨rfl, resumeExec_conforms.mpr ⟨2, rfl⟩, fun resumes => ?_⟩
  obtain ⟨fuel, runs⟩ := resumeExec_conforms.mp resumes
  rcases fuel with _ | _ | fuel <;> cases runs

end AsyncFunction
