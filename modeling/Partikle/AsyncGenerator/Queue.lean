import Partikle.AsyncGenerator.Core

/-!
The requests of an async generator are settled in the order in which they were made. Those behind the end of the body
are settled as well, up to the second one that is not settled with it.
-/

namespace AsyncGenerator

open Option List

variable {V : Type}

def settledPromises (log : List (Event V)) : List Nat :=
  log.filterMap fun
    | .settled promise _ => some promise
    | _ => none

def Ordered (g : Generator V) (log : List (Event V)) : Prop :=
  settledPromises log ++ g.queue.map Request.promise = range g.made

structure Shape (g : Generator V) : Prop where
  suspended : g.state = .suspendedStart ∨ g.state = .suspendedYield ∨ g.state = .suspendedYieldStar →
    g.queue = [] ∧ g.funcState ≠ none
  executing : g.state = .executing → g.queue ≠ [] ∧ g.funcState ≠ none
  awaitingReturn : g.state = .awaitingReturn → g.queue ≠ []
  awaits : g.awaits = true ↔ g.state = .executing ∧ g.running = false
  running : g.running = true → g.state = .executing
  awaitsReturn : g.awaitsReturn = true ↔ g.state = .awaitingReturn

def Drained (g : Generator V) : Prop := g.state = .completed → g.queue = []

def Drains : List (Request V) → Prop
  | r :: _ :: _ => r.completionType = .return
  | _ => True

variable {p : Nat} {input : Input V} {rest : List (Request V)} {P Q : Generator V → Prop} {a : Action V}

section Log

variable {log more : List (Event V)}

@[simp] theorem settledPromises_append : settledPromises (log ++ more) = settledPromises log ++ settledPromises more :=
  filterMap_append

@[simp] theorem settledPromises_requested : settledPromises (.requested p :: log) = settledPromises log := rfl

@[simp] theorem settledPromises_resumed : settledPromises (.resumed input :: log) = settledPromises log := rfl

@[simp] theorem settledPromises_settled {outcome : Outcome V} :
    settledPromises (.settled p outcome :: log) = p :: settledPromises log := rfl

@[simp] theorem settledPromises_nil : settledPromises ([] : List (Event V)) = [] := rfl

end Log

variable {g g' : Generator V} {log events : List (Event V)} {undefined : V}

def Leads (g : Generator V) (P : Generator V → Prop) (r : Result V) : Prop :=
  ∃ g' events, r = some (g', events) ∧ P g' ∧ ∀ log, Ordered g log → Ordered g' (log ++ events)

theorem resolveOrReject_leads (outcome : Outcome V) {next : Request V} (queue : g.queue = next :: rest) :
    Leads g (fun g' => g' = { g with queue := rest }) (resolveOrReject outcome g) := by
  refine ⟨{ g with queue := rest }, [.settled next.promise outcome], ?_, rfl, ?_⟩
  · simp [resolveOrReject, queue]
  · intro log ordered
    simpa [Ordered, queue] using ordered

theorem Leads.mono {r : Result V} (leads : Leads g P r) (weaker : ∀ g', P g' → Q g') : Leads g Q r := by
  obtain ⟨g', events, result, holds, ordered⟩ := leads
  exact ⟨g', events, result, weaker g' holds, ordered⟩

theorem Leads.andThen {r : Result V} {second : Generator V → Result V} (first : Leads g P r)
    (next : ∀ g', P g' → Leads g' Q (second g')) : Leads g Q (AsyncGenerator.andThen r second) := by
  obtain ⟨g1, events1, rfl, holds1, ordered1⟩ := first
  obtain ⟨g2, events2, result2, holds2, ordered2⟩ := next g1 holds1
  refine ⟨g2, events1 ++ events2, ?_, holds2, ?_⟩
  · simp [AsyncGenerator.andThen, result2]
  · intro log ordered
    rw [← append_assoc]
    exact ordered2 _ (ordered1 log ordered)

theorem Leads.of_same (g1 : Generator V) {r : Result V} (leads : Leads g1 P r)
    (queue : g1.queue = g.queue) (made : g1.made = g.made) : Leads g P r := by
  obtain ⟨g', events, result, holds, ordered⟩ := leads
  refine ⟨g', events, result, holds, fun log before => ordered log ?_⟩
  unfold Ordered at before ⊢
  rwa [queue, made]

theorem exec_leads {old : Input V} (funcState : g.funcState = some old) (queue : g.queue ≠ [])
    (awaits : g.awaits = false) (awaitsReturn : g.awaitsReturn = false) :
    Leads g (fun g' => Shape g' ∧ g'.state = .executing) (exec input g) := by
  refine ⟨{ g with funcState := some input, state := .executing, running := true }, [.resumed input], ?_, ?_, ?_⟩
  · simp [exec, resumeExec, funcState]
  · refine ⟨⟨?_, ?_, ?_, ?_, ?_, ?_⟩, rfl⟩ <;> simp [queue, awaits, awaitsReturn]
  · intro log ordered
    simpa [Ordered] using ordered

theorem resumeCompleted_leads {next : Request V} (queue : g.queue = next :: rest) (state : g.state = .completed)
    (running : g.running = false) (awaits : g.awaits = false) (awaitsReturn : g.awaitsReturn = false) :
    Leads g (fun g' => Shape g' ∧ (Drained g' ↔ Drains g.queue)) (resumeCompleted undefined next g) := by
  have popped : ∀ outcome, next.completionType ≠ .return →
      Leads g (fun g' => Shape g' ∧ (Drained g' ↔ Drains g.queue)) (resolveOrReject outcome g) := by
    intro outcome notReturn
    apply (resolveOrReject_leads outcome queue).mono
    rintro g' rfl
    refine ⟨⟨?_, ?_, ?_, ?_, ?_, ?_⟩, ?_⟩
    · simp [state]
    · simp [state]
    · simp [state]
    · simp [state, awaits]
    · simp [running]
    · simp [state, awaitsReturn]
    · rw [queue]
      cases rest with
      | nil => simp [Drained, Drains]
      | cons other rest => simp [Drained, Drains, state, notReturn]
  unfold resumeCompleted
  cases type : next.completionType with
  | next | throw => exact popped _ (by simp [type])
  | «return» =>
    refine ⟨_, [], rfl, ⟨⟨?_, ?_, ?_, ?_, ?_, ?_⟩, ?_⟩, fun log ordered => by simpa [Ordered] using ordered⟩
    · simp
    · simp
    · simp [queue]
    · simp [awaits]
    · simp [running]
    · simp
    · rw [queue]
      cases rest with
      | nil => simp [Drained, Drains]
      | cons other rest => simp [Drained, Drains, type]

structure Stopped (g : Generator V) : Prop where
  running : g.running = false
  awaits : g.awaits = false
  awaitsReturn : g.awaitsReturn = true ↔ g.state = .awaitingReturn
  notExecuting : g.state ≠ .executing
  waiting : g.state = .awaitingReturn → g.queue ≠ []
  start : g.state = .suspendedStart → g.queue.length ≤ 1
  suspended : g.state = .suspendedStart ∨ g.state = .suspendedYield ∨ g.state = .suspendedYieldStar →
    g.funcState ≠ none

theorem resumeNext_leads (stopped : Stopped g) :
    Leads g (fun g' => Shape g' ∧ (Drained g' ↔ (g.state = .completed → Drains g.queue))) (resumeNext undefined g) := by
  obtain ⟨running, awaits, awaitsReturn, notExecuting, waiting, start, suspended⟩ := stopped
  have notReturning : g.state ≠ .awaitingReturn → g.awaitsReturn = false := fun other =>
    Bool.eq_false_iff.mpr fun flag => other (awaitsReturn.mp flag)
  unfold resumeNext
  cases queue : g.queue with
  | nil =>
    refine ⟨g, [], rfl, ⟨⟨?_, ?_, ?_, ?_, ?_, ?_⟩, ?_⟩, fun log ordered => by simpa using ordered⟩
    · exact fun here => ⟨queue, suspended here⟩
    · exact fun here => absurd here notExecuting
    · exact fun here => absurd queue (waiting here)
    · simp [awaits, notExecuting]
    · simp [running]
    · exact awaitsReturn
    · simp [Drained, Drains, queue]
  | cons next rest =>
    have some_queue : g.queue ≠ [] := by simp [queue]
    -- in all other states the generator is drained afterwards
    have drained : ∀ (state : GeneratorState) (r : Result V), state ≠ .completed →
        Leads g (fun g' => Shape g' ∧ Drained g') r →
        Leads g (fun g' => Shape g' ∧ (Drained g' ↔ (state = .completed → Drains (next :: rest)))) r := by
      intro state r other leads
      apply leads.mono
      rintro g' ⟨shape, empty⟩
      exact ⟨shape, iff_of_true empty fun same => absurd same other⟩
    have exec_case : ∀ input, g.state = .suspendedStart ∨ g.state = .suspendedYield ∨ g.state = .suspendedYieldStar →
        Leads g (fun g' => Shape g' ∧ Drained g') (exec input g) := by
      intro input here
      obtain ⟨old, funcState⟩ := ne_none_iff_exists'.mp (suspended here)
      have other : g.state ≠ .awaitingReturn := by rcases here with h | h | h <;> simp [h]
      apply (exec_leads funcState some_queue awaits (notReturning other)).mono
      rintro g' ⟨shape, state⟩
      exact ⟨shape, by simp [Drained, state]⟩
    cases state : g.state with
    | executing => exact absurd state notExecuting
    | awaitingReturn =>
      refine ⟨g, [], rfl, ⟨⟨?_, ?_, ?_, ?_, ?_, ?_⟩, ?_⟩, fun log ordered => by simpa using ordered⟩
      · simp [state]
      · simp [state]
      · simp [queue]
      · simp [awaits, state]
      · simp [running]
      · exact awaitsReturn
      · simp [Drained, state]
    | completed =>
      simp only [forall_const]
      rw [← queue]
      exact resumeCompleted_leads queue state running awaits (notReturning (by simp [state]))
    | suspendedYieldStar => exact drained _ _ (by simp) (exec_case _ (.inr (.inr state)))
    | suspendedYield =>
      apply drained _ _ (by simp)
      dsimp only
      split <;> exact exec_case _ (.inr (.inl state))
    | suspendedStart =>
      have only : rest = [] := by
        have short := start state
        rw [queue] at short
        simpa using short
      have completed : ∀ g1, g1 = complete g → Leads g (fun g' => Shape g' ∧ Drained g')
          (resumeCompleted undefined next g1) := by
        rintro g1 rfl
        have same : complete g = { g with state := .completed, funcState := none } := by simp [complete, state]
        rw [same]
        refine Leads.of_same { g with state := .completed, funcState := none } (Leads.mono
          (resumeCompleted_leads queue rfl running awaits (notReturning (by simp [state]))) ?_) rfl rfl
        rintro g' ⟨shape, drained⟩
        refine ⟨shape, drained.mpr ?_⟩
        simp [queue, only, Drains]
      apply drained _ _ (by simp)
      dsimp only
      split
      · exact exec_case _ (.inl state)
      · exact completed _ rfl

/-- Whether an action leaves no request behind: when the body ends, at most one request waits behind the one that it
ends for, or the first of them is a return; when the promise of a return request settles, none waits behind it. -/
def LeavesNone (g : Generator V) : Action V → Prop
  | .bodyReturns _ | .bodyThrows _ => Drains g.queue.tail
  | .returnSettles .. => g.queue.tail = []
  | _ => True

def Answers (g : Generator V) (a : Action V) (g' : Generator V) : Prop :=
  Shape g' ∧ (Drained g → (Drained g' ↔ LeavesNone g a))

theorem Shape.idle (shape : Shape g) (notExecuting : g.state ≠ .executing) : g.running = false ∧ g.awaits = false := by
  constructor
  · exact Bool.eq_false_iff.mpr fun running => notExecuting (shape.running running)
  · exact Bool.eq_false_iff.mpr fun awaits => notExecuting (shape.awaits.mp awaits).1

theorem Shape.notReturning (shape : Shape g) (executing : g.state = .executing) : g.awaitsReturn = false := by
  refine Bool.eq_false_iff.mpr fun flag => ?_
  have returning := shape.awaitsReturn.mp flag
  simp [executing] at returning

theorem Shape.busy (shape : Shape g) (running : g.running = true) : g.awaits = false ∧ g.awaitsReturn = false := by
  refine ⟨?_, shape.notReturning (shape.running running)⟩
  refine Bool.eq_false_iff.mpr fun awaits => ?_
  have idle := (shape.awaits.mp awaits).2
  simp [running] at idle

theorem request_leads (shape : Shape g) (completionType : CompletionType) (value : V) :
    Leads g (Answers g (.request completionType value)) (asyncGeneratorNext undefined completionType value g) := by
  have counted : ∀ log, Ordered g log → Ordered
      { g with queue := g.queue ++ [⟨completionType, value, g.made⟩], made := g.made + 1 } log := by
    intro log ordered
    unfold Ordered at ordered ⊢
    rw [range_succ, ← ordered]
    simp
  have made : ∀ (r : Result V),
    Leads { g with queue := g.queue ++ [⟨completionType, value, g.made⟩], made := g.made + 1 }
      (Answers g (.request completionType value)) r →
      Leads g (Answers g (.request completionType value)) (r.map fun r => (r.1, .requested g.made :: r.2)) := by
    rintro r ⟨g', events, rfl, answers, ordered⟩
    refine ⟨g', .requested g.made :: events, rfl, answers, fun log before => ?_⟩
    simpa [Ordered] using ordered log (counted log before)
  apply made _
  by_cases executing : g.state = .executing
  · rw [if_pos executing]
    refine ⟨_, [], rfl, ⟨⟨?_, ?_, ?_, ?_, ?_, ?_⟩, ?_⟩, fun log ordered => by simpa using ordered⟩
    · simp [executing]
    · exact fun here => ⟨by simp, (shape.executing here).2⟩
    · simp
    · exact shape.awaits
    · exact shape.running
    · exact shape.awaitsReturn
    · simp [Drained, executing, LeavesNone]
  · obtain ⟨idle, notAwaits⟩ := shape.idle executing
    rw [if_neg executing]
    refine Leads.mono (resumeNext_leads ?_) ?_
    · refine ⟨idle, notAwaits, shape.awaitsReturn, executing, by simp, ?_, fun here => (shape.suspended here).2⟩
      intro start
      simp [(shape.suspended (.inl start)).1]
    · rintro g' ⟨shape', drained⟩
      refine ⟨shape', fun empty => drained.trans (iff_of_true (fun completed => ?_) trivial)⟩
      rw [empty completed]
      trivial

theorem bodyEnds_leads (shape : Shape g) (running : g.running = true) (outcome : Outcome V) :
    Leads g (fun g' => Shape g' ∧ (Drained g' ↔ Drains g.queue.tail)) (bodyEnds undefined outcome g) := by
  have executing := shape.running running
  obtain ⟨next, rest, queue⟩ := exists_cons_of_ne_nil (shape.executing executing).1
  have completes : complete { g with running := false } =
      { g with running := false, state := .completed, funcState := none } := by
    simp [complete, executing]
  obtain ⟨notAwaits, notReturning⟩ := shape.busy running
  unfold bodyEnds
  rw [completes]
  have settles := resolveOrReject_leads (g := { g with running := false, state := .completed, funcState := none })
    outcome queue
  apply settles.andThen
  rintro g1 rfl
  refine Leads.mono (resumeNext_leads ?_) ?_
  · refine ⟨rfl, notAwaits, ?_, ?_, ?_, ?_, ?_⟩ <;> simp [notReturning]
  · rintro g' ⟨shape', drained⟩
    exact ⟨shape', by simpa [queue] using drained⟩

theorem bodyYields_leads (shape : Shape g) (running : g.running = true) (star : Bool) (value : V) :
    Leads g (fun g' => Shape g' ∧ Drained g') (bodyYields undefined star value g) := by
  have executing := shape.running running
  obtain ⟨next, rest, queue⟩ := exists_cons_of_ne_nil (shape.executing executing).1
  obtain ⟨notAwaits, notReturning⟩ := shape.busy running
  let yielded := { g with state := if star then .suspendedYieldStar else .suspendedYield, running := false }
  have settles := resolveOrReject_leads (g := yielded) (.result value false) queue
  apply settles.andThen
  rintro g1 rfl
  have funcState := (shape.executing executing).2
  refine Leads.mono (resumeNext_leads ?_) ?_
  · refine ⟨rfl, notAwaits, ?_, ?_, ?_, ?_, fun _ => funcState⟩ <;> cases star <;> simp [yielded, notReturning]
  · rintro g' ⟨shape', drained⟩
    refine ⟨shape', drained.mpr ?_⟩
    cases star <;> simp [yielded]

theorem act_leads (undefined : V) (shape : Shape g) (possible : Possible g a) :
    Leads g (Answers g a) (act undefined g a) := by
  cases a with
  | request completionType value => exact request_leads shape completionType value
  | bodyReturns _ | bodyThrows _ =>
    exact (bodyEnds_leads shape possible _).mono fun g' answer => ⟨answer.1, fun _ => answer.2⟩
  | bodyYields star value =>
    exact (bodyYields_leads shape possible star value).mono fun g' answer =>
      ⟨answer.1, fun _ => iff_of_true answer.2 trivial⟩
  | bodyAwaits =>
    have executing := shape.running possible
    refine ⟨_, [], rfl, ⟨⟨?_, ?_, ?_, ?_, ?_, ?_⟩, ?_⟩, fun log ordered => by simpa [Ordered] using ordered⟩
    · simp [executing]
    · exact fun _ => shape.executing executing
    · simp [executing]
    · simp [executing]
    · simp
    · exact shape.awaitsReturn
    · simp [Drained, executing, LeavesNone]
  | bodyFailsToAwait error =>
    have executing := shape.running possible
    obtain ⟨notAwaits, notReturning⟩ := shape.busy possible
    obtain ⟨old, funcState⟩ := ne_none_iff_exists'.mp (shape.executing executing).2
    apply (exec_leads funcState (shape.executing executing).1 notAwaits notReturning).mono
    rintro g' ⟨shape', state⟩
    exact ⟨shape', fun _ => iff_of_true (by simp [Drained, state]) trivial⟩
  | awaitSettles isReject value =>
    have executing := (shape.awaits.mp possible.1).1
    obtain ⟨old, funcState⟩ := ne_none_iff_exists'.mp (shape.executing executing).2
    obtain ⟨next, rest, queue⟩ := exists_cons_of_ne_nil (shape.executing executing).1
    let input : Input V := if isReject then .thrown value else .awaited value
    refine ⟨{ g with awaits := false, running := true, funcState := some input }, [.resumed input], ?_,
      ⟨⟨?_, ?_, ?_, ?_, ?_, ?_⟩, ?_⟩, ?_⟩
    · simp [act, resumeAwait, resumeNext, resumeExec, executing, funcState, queue, input]
    · simp [executing]
    · simp [queue]
    · simp [queue]
    · simp
    · exact fun _ => executing
    · exact shape.awaitsReturn
    · simp [Drained, executing, LeavesNone]
    · intro log ordered
      simpa [Ordered] using ordered
  | returnSettles isReject value =>
    have returning := shape.awaitsReturn.mp possible.1
    obtain ⟨next, rest, queue⟩ := exists_cons_of_ne_nil (shape.awaitingReturn returning)
    have notExecuting : g.state ≠ .executing := by simp [returning]
    obtain ⟨idle, notAwaits⟩ := shape.idle notExecuting
    have settles := resolveOrReject_leads (g := { g with state := .completed, awaitsReturn := false })
      (if isReject then .exception value else .result value true) queue
    have same : act undefined g (.returnSettles isReject value) =
        resolveOrReject (if isReject then .exception value else .result value true)
          { g with state := .completed, awaitsReturn := false } := by
      simp [act, resumeReturn, returning]
    rw [same]
    apply settles.mono
    rintro g' rfl
    refine ⟨⟨?_, ?_, ?_, ?_, ?_, ?_⟩, ?_⟩ <;> simp [idle, notAwaits, Drained, LeavesNone, queue]

theorem step_leads {r : Generator V × List (Event V)} (shape : Shape g)
    (next : step undefined g a = some r) : Answers g a r.1 ∧ ∀ log, Ordered g log → Ordered r.1 (log ++ r.2) := by
  unfold step at next
  split at next
  · rename_i possible
    obtain ⟨g', events, result, answers, ordered⟩ := act_leads undefined shape possible
    rw [result] at next
    obtain rfl := some.inj next
    exact ⟨answers, ordered⟩
  · cases next

theorem start_shape : Shape (start V) := by refine ⟨?_, ?_, ?_, ?_, ?_, ?_⟩ <;> simp [start]

/-- In every run the requests are settled in the order in which they were made, each once, and no assertion fails. No
request waits for a completed generator in any state of the run exactly if no action leaves one behind. -/
theorem requests_settle_in_order (undefined : V) (actions : List (Action V)) (g : Generator V) (log : List (Event V))
    (reached : Trace.run (step undefined) (start V) [] actions = some (g, log)) :
    Ordered g log ∧ (∀ a, Possible g a → step undefined g a ≠ none) ∧
      (Trace.Throughout (step undefined) Drained (start V) actions ↔
      Trace.Along (step undefined) LeavesNone (start V) actions) := by
  have invariant : Shape g ∧ Ordered g log := by
    refine Trace.run_invariant (P := fun g log => Shape g ∧ Ordered g log) ?_
      ⟨start_shape, by simp [Ordered, start]⟩ reached
    intro g log a g' events before next
    have led := step_leads before.1 next
    exact ⟨led.1.1, led.2 log before.2⟩
  refine ⟨invariant.2, ?_, ?_⟩
  · intro a possible stuck
    obtain ⟨g', events, result, -⟩ := act_leads undefined invariant.1 possible
    simp [step, if_pos possible, result] at stuck
  · have everywhere := (Trace.along_iff_forall (C := fun _ => True) reached).mpr fun _ _ => trivial
    refine Trace.throughout_iff (P := Shape) ?_ ?_ start_shape (by simp [Drained, start]) everywhere reached
    · exact fun g a g' events shape next => (step_leads shape next).1.1
    · exact fun g a g' events shape drained _ next => (step_leads shape next).1.2 drained

theorem requests_settle_in_order_two :
    let actions : List (Action Nat) := [.request .next 1, .request .throw 2, .bodyReturns 3]
    ∃ g log, Trace.run (step 0) (start Nat) [] actions = some (g, log) ∧ Ordered g log ∧
      (∀ a, Possible g a → step 0 g a ≠ none) ∧ (Trace.Throughout (step 0) Drained (start Nat) actions ↔
        Trace.Along (step 0) LeavesNone (start Nat) actions) :=
  ⟨_, _, rfl, requests_settle_in_order 0 [.request .next 1, .request .throw 2, .bodyReturns 3] _ _ rfl⟩

/-- Three requests; the body awaits, and returns when all of them have been made. The third one is left pending. -/
theorem third_request_stays :
    (Trace.run (step 0) (start Nat) [] [.request .next 1, .bodyAwaits, .request .next 2, .request .next 3,
      .awaitSettles false 4,
      .bodyReturns 5]).map (fun r => (r.1.state, r.1.awaitsReturn, r.1.queue, settledPromises r.2)) = some
        (.completed, false, [⟨.next, 3, 2⟩], [0, 1]) := by
  decide

end AsyncGenerator
