import Partikle.Promises.Core

/-!
What has happened to a promise can be read off it. A pending promise holds its registrations, in their order; when it
settles each of them becomes one job, and a later registration becomes a job at once, unless the queue refuses it.
-/

namespace Promises

open List

variable {V : Type}

section Past

def Event.registration (p : Nat) : Event V → Option (Registration V)
  | .registered q r => if q = p then some r else none
  | _ => none

def Event.settlement (p : Nat) : Event V → Option (Bool × V)
  | .settled q isReject value => if q = p then some (isReject, value) else none
  | _ => none

def Event.executedJob : Event V → Option (Job V)
  | .executed job => some job
  | _ => none

def Event.refusedJob : Event V → Option (Job V)
  | .refused job => some job
  | _ => none

def Job.isFor (p : Nat) : Job V → Bool
  | .reaction q .. => q == p
  | .resolveThenable .. => false

/-- The jobs for a promise that have been put into the queue are those that have been executed and those still there. -/
structure Past (V : Type) where
  registered : List (Registration V)
  settled : List (Bool × V)
  queued : List (Job V)
  refused : List (Job V)

def past (p : Nat) (s : State V) (log : List (Event V)) : Past V where
  registered := log.filterMap (·.registration p)
  settled := log.filterMap (·.settlement p)
  queued := (log.filterMap (·.executedJob) ++ s.jobs).filter (·.isFor p)
  refused := (log.filterMap (·.refusedJob)).filter (·.isFor p)

def Registration.reaction (r : Registration V) (isReject : Bool) : ReactionData V :=
  ⟨r.resolvingFuncs, r.handlers.get isReject⟩

def PromiseData.settlement (d : PromiseData V) : List (Bool × V) :=
  match d.promiseState with
  | .pending => []
  | .settled isReject => [(isReject, d.promiseResult)]

/-- The jobs that a promise owes for its registrations. -/
def PromiseData.due (d : PromiseData V) (p : Nat) (registered : List (Registration V)) : List (Job V) :=
  match d.promiseState with
  | .pending => []
  | .settled isReject => registered.map fun r => .reaction p (r.reaction isReject) isReject d.promiseResult

/-- Each of the jobs is queued or refused, and the queued ones are in their order. -/
def Divided (queued refused jobs : List (Job V)) : Prop := queued <+ jobs ∧ queued ++ refused ~ jobs

structure PromiseData.Records (d : PromiseData V) (p : Nat) (past : Past V) : Prop where
  settled : past.settled = d.settlement
  divided : Divided past.queued past.refused (d.due p past.registered)
  waiting : d.promiseState = .pending →
    ∀ isReject, d.promiseReactions.get isReject = past.registered.map (·.reaction isReject)

structure Recorded (s : State V) (log : List (Event V)) : Prop where
  promise : ∀ (p : Nat) (d : PromiseData V), s.promises[p]? = some d → d.Records p (past p s log)
  absent : ∀ p : Nat, s.promises[p]? = none → past p s log = ⟨[], [], [], []⟩
  called : ∀ k : Nat, .called k ∈ log → ∃ pair, s.pairs[k]? = some pair ∧ pair.alreadyResolved

end Past

section Divided

variable {queued refused jobs queued' refused' jobs' : List (Job V)} {p q : Nat}

theorem Divided.append (first : Divided queued refused jobs) (second : Divided queued' refused' jobs') :
    Divided (queued ++ queued') (refused ++ refused') (jobs ++ jobs') := by
  refine ⟨first.1.append second.1, ?_⟩
  have swapped : queued ++ queued' ++ (refused ++ refused') ~ queued ++ refused ++ (queued' ++ refused') := by
    simp only [append_assoc]
    refine .append_left _ ?_
    rw [← append_assoc, ← append_assoc]
    exact perm_append_comm.append_right _
  exact swapped.trans (first.2.append second.2)

theorem Divided.all_iff (divided : Divided queued refused jobs) : queued = jobs ↔ refused = [] := by
  have length := divided.2.length_eq
  rw [length_append] at length
  constructor
  · rintro rfl
    exact length_eq_zero_iff.mp (by omega)
  · rintro rfl
    exact divided.1.eq_of_length (by simpa using length)

theorem Divided.filter (divided : Divided queued refused jobs) (f : Job V → Bool) :
    Divided (queued.filter f) (refused.filter f) (jobs.filter f) := by
  refine ⟨divided.1.filter f, ?_⟩
  rw [← filter_append]
  exact divided.2.filter f

/-- What `JS_EnqueueJob` does with these jobs. -/
structure Enqueues (jobs : List (Job V)) (s : State V) (r : State V × List (Event V)) (queued refused : List (Job V)) :
    Prop where
  state : ∃ memory, r.1 = { s with jobs := s.jobs ++ queued, memory }
  events : r.2 = refused.map .refused
  divided : Divided queued refused jobs

theorem enqueueJob_enqueues (job : Job V) (s : State V) :
    ∃ queued refused, Enqueues [job] s (enqueueJob job s) queued refused := by
  unfold enqueueJob
  split
  · exact ⟨[job], [], ⟨_, rfl⟩, rfl, .refl _, .refl _⟩
  · exact ⟨[], [job], ⟨s.memory.tail, by simp⟩, rfl, by simp, .refl _⟩

theorem enqueueJobs_enqueues (jobs : List (Job V)) (s : State V) :
    ∃ queued refused, Enqueues jobs s (enqueueJobs jobs s) queued refused := by
  induction jobs generalizing s with
  | nil => exact ⟨[], [], ⟨s.memory, by simp [enqueueJobs]⟩, rfl, by simp, .refl _⟩
  | cons job jobs ih =>
    obtain ⟨queued, refused, ⟨memory, state⟩, events, divided⟩ := enqueueJob_enqueues job s
    obtain ⟨queued', refused', ⟨memory', state'⟩, events', divided'⟩ := ih (enqueueJob job s).1
    refine ⟨queued ++ queued', refused ++ refused', ⟨memory', ?_⟩, ?_, divided.append divided'⟩
    · simp only [enqueueJobs, state']
      simp [state]
    · simp [enqueueJobs, events', events]

end Divided

section Log

variable {s s' : State V} {log events : List (Event V)} {p : Nat} {jobs queued refused : List (Job V)}

attribute [local simp] Event.registration Event.settlement Event.executedJob Event.refusedJob

/-- A promise is settled or registered with, perhaps the tracker is told, and jobs are put into the queue. -/
theorem past_enqueued {event : Event V} {tracker : Bool} {value : V} {handled : Bool}
    (jobs : s'.jobs = s.jobs ++ queued)
    (quiet : event.executedJob = none ∧ event.refusedJob = none) (q : Nat) :
    past q s' (log ++
        (event :: (if tracker then [.rejectionTracker p value handled] else []) ++ refused.map .refused)) =
      ⟨(past q s log).registered ++ (event.registration q).toList,
        (past q s log).settled ++ (event.settlement q).toList,
        (past q s log).queued ++ queued.filter (·.isFor q), (past q s log).refused ++ refused.filter (·.isFor q)⟩ := by
  have none {β : Type} {f : Event V → Option β} (skips : ∀ job, f (.refused job) = none) :
      (refused.map .refused).filterMap f = [] := by simp [skips]
  have all : (refused.map Event.refused).filterMap (·.refusedJob) = refused := by
    rw [filterMap_map]
    exact filterMap_some
  have tracked {β : Type} {f : Event V → Option β} (skips : f (.rejectionTracker p value handled) = .none) :
      (if tracker then [.rejectionTracker p value handled] else []).filterMap f = [] := by
    split <;> simp [skips]
  simp only [past, filterMap_append, filterMap_cons, filter_append, jobs, quiet.1, quiet.2, all]
  rw [none fun _ => rfl, none fun _ => rfl, none fun _ => rfl, tracked rfl, tracked rfl, tracked rfl, tracked rfl]
  cases event.registration q <;> cases event.settlement q <;> simp

theorem Recorded.silent (recorded : Recorded s log) (promises : s'.promises = s.promises)
    (pairs : ∀ (k : Nat) (pair : ResolvingPair), s.pairs[k]? = some pair → pair.alreadyResolved →
      ∃ pair', s'.pairs[k]? = some pair' ∧ pair'.alreadyResolved)
    (same : ∀ p, past p s' (log ++ events) = past p s log)
    (called : ∀ k : Nat, .called k ∈ events → ∃ pair, s'.pairs[k]? = some pair ∧ pair.alreadyResolved) :
    Recorded s' (log ++ events) := by
  constructor
  · intro p d there
    rw [same]
    exact recorded.promise p d (promises ▸ there)
  · intro p none
    rw [same]
    exact recorded.absent p (promises ▸ none)
  · intro k inside
    rcases mem_append.mp inside with old | new
    · obtain ⟨pair, there, resolved⟩ := recorded.called k old
      exact pairs k pair there resolved
    · exact called k new

theorem Recorded.congr (recorded : Recorded s log) (promises : s'.promises = s.promises) (pairs : s'.pairs = s.pairs)
    (same : ∀ p, past p s' (log ++ events) = past p s log) (notCalled : ∀ k, .called k ∉ events) :
    Recorded s' (log ++ events) :=
  recorded.silent promises (fun k pair there resolved => ⟨pair, by rwa [pairs], resolved⟩) same
    fun k there => absurd there (notCalled k)

theorem Recorded.taken (recorded : Recorded s log) {job : Job V} (queue : s.jobs = job :: jobs) :
    Recorded { s with jobs } (log ++ [.executed job]) :=
  recorded.congr rfl rfl (fun p => by simp [past, queue]) (by simp)

theorem Recorded.popped (recorded : Recorded s log) (frames : List (Frame V)) : Recorded { s with frames } log := by
  have same : Recorded { s with frames } (log ++ []) := recorded.congr rfl rfl (fun p => by simp [past]) (by simp)
  rwa [append_nil] at same

theorem Recorded.update {d d' : PromiseData V} (recorded : Recorded s log) (there : s.promises[p]? = some d)
    (promises : s'.promises = s.promises.set p d') (pairs : s'.pairs = s.pairs)
    (others : ∀ q, p ≠ q → past q s' (log ++ events) = past q s log) (notCalled : ∀ k, .called k ∉ events)
    (records : d'.Records p (past p s' (log ++ events))) : Recorded s' (log ++ events) := by
  have bound : p < s.promises.length := (List.getElem?_eq_some_iff.mp there).1
  constructor
  · intro q e found
    rw [promises] at found
    rcases eq_or_ne p q with rfl | other
    · rw [getElem?_set_self bound] at found
      cases found
      exact records
    · rw [getElem?_set_ne other] at found
      rw [others q other]
      exact recorded.promise q e found
  · intro q none
    rw [promises, getElem?_set] at none
    rcases eq_or_ne p q with rfl | other
    · simp [bound] at none
    · rw [others q other]
      simp only [other, ↓reduceIte] at none
      exact recorded.absent q none
  · intro k inside
    rw [pairs]
    rcases mem_append.mp inside with old | new
    · exact recorded.called k old
    · exact absurd new (notCalled k)

theorem filter_isFor_other {q : Nat} (own : ∀ job ∈ jobs, job.isFor p) (other : p ≠ q)
    (divided : Divided queued refused jobs) :
    queued.filter (·.isFor q) = [] ∧ refused.filter (·.isFor q) = [] := by
  have none : jobs.filter (·.isFor q) = [] := by
    refine filter_eq_nil_iff.mpr fun job there => ?_
    cases job with
    | reaction source rd isReject arg =>
      have := own _ there
      simp_all [Job.isFor]
    | resolveThenable => simp [Job.isFor]
  have parts := (divided.filter (·.isFor q)).2
  rw [none, perm_nil, append_eq_nil_iff] at parts
  exact parts

theorem Divided.own (divided : Divided queued refused jobs) (own : ∀ job ∈ jobs, job.isFor p) :
    Divided (queued.filter (·.isFor p)) (refused.filter (·.isFor p)) jobs := by
  have parts := divided.filter (·.isFor p)
  rwa [filter_eq_self.mpr own] at parts

theorem fulfillOrRejectPromise_recorded (recorded : Recorded s log) (p : Nat) (value : V) (isReject : Bool) :
    Recorded (fulfillOrRejectPromise p value isReject s).1
      (log ++ (fulfillOrRejectPromise p value isReject s).2) := by
  unfold fulfillOrRejectPromise
  cases there : s.promises[p]? with
  | none => simpa using recorded
  | some d =>
    cases state : d.promiseState with
    | settled r => simpa [state] using recorded
    | pending =>
      simp only [state]
      obtain ⟨queued, refused, ⟨memory, after⟩, events, divided⟩ := enqueueJobs_enqueues
        ((d.promiseReactions.get isReject).map fun rd => Job.reaction p rd isReject value)
        { s with promises := s.promises.set p ⟨.settled isReject, ⟨[], []⟩, d.isHandled, value⟩ }
      have own : ∀ job ∈ (d.promiseReactions.get isReject).map fun rd => Job.reaction p rd isReject value,
          job.isFor p := by simp [Job.isFor]
      have before := recorded.promise p d there
      rw [after, events]
      refine recorded.update there rfl rfl ?_ (by simp) ?_
      · intro q other
        obtain ⟨first, second⟩ := filter_isFor_other own other divided
        rw [past_enqueued (s := s) rfl ⟨rfl, rfl⟩, first, second]
        simp [other]
      · rw [past_enqueued (s := s) rfl ⟨rfl, rfl⟩]
        obtain ⟨settled, older, waiting⟩ := before
        simp only [PromiseData.due, PromiseData.settlement, state] at settled older
        refine ⟨by simp [settled, PromiseData.settlement], ?_, nofun⟩
        have divided := older.append (divided.own own)
        rw [waiting state] at divided
        simpa [PromiseData.due, Function.comp_def] using divided

theorem performPromiseThen_recorded (values : Values V) (recorded : Recorded s log) {d : PromiseData V}
    (there : s.promises[p]? = some d) (resolveReject capResolvingFuncs : Both V) :
    Recorded (performPromiseThen values p d resolveReject capResolvingFuncs s).1
      (log ++ (performPromiseThen values p d resolveReject capResolvingFuncs s).2) := by
  obtain ⟨settled, older, waiting⟩ := recorded.promise p d there
  unfold performPromiseThen
  cases state : d.promiseState with
  | pending =>
    refine recorded.update there rfl rfl (fun q other => by simp [past, other]) (by simp) ?_
    simp only [PromiseData.due, PromiseData.settlement, state] at settled older
    refine ⟨by simpa [past, PromiseData.settlement, state] using settled, ?_, fun _ isReject => ?_⟩
    · simpa [past, PromiseData.due, state] using older
    · have old := waiting state isReject
      cases isReject <;> simp_all [past, Registration.reaction, Both.get, registration]
  | settled isReject =>
    simp only
    obtain ⟨queued, refused, ⟨memory, after⟩, events, divided⟩ := enqueueJob_enqueues
      (.reaction p ⟨capResolvingFuncs, (registration values resolveReject capResolvingFuncs).handlers.get isReject⟩
        isReject d.promiseResult)
      { s with promises := s.promises.set p { d with promiseState := .settled isReject, isHandled := true } }
    rw [after, events]
    have own (rd : ReactionData V) : ∀ job ∈ [Job.reaction p rd isReject d.promiseResult], job.isFor p := by
      simp [Job.isFor]
    refine recorded.update there rfl rfl ?_ (by simp) ?_
    · intro q other
      obtain ⟨first, second⟩ := filter_isFor_other (own _) other divided
      rw [past_enqueued (s := s) rfl ⟨rfl, rfl⟩, first, second]
      simp [other]
    · rw [past_enqueued (s := s) rfl ⟨rfl, rfl⟩]
      simp only [PromiseData.due, PromiseData.settlement, state] at settled older
      refine ⟨by simpa [PromiseData.settlement] using settled, ?_, nofun⟩
      have divided := older.append (divided.own (own _))
      simpa [PromiseData.due, Registration.reaction, registration] using divided

theorem thenLookedUp_recorded (values : Values V) (recorded : Recorded s log) (p : Nat) (resolution : V)
    (found : Except V V) :
    Recorded (thenLookedUp values p resolution found s).1 (log ++ (thenLookedUp values p resolution found s).2) := by
  unfold thenLookedUp
  cases found with
  | error e => exact fulfillOrRejectPromise_recorded recorded p e true
  | ok thenMethod =>
    by_cases callable : values.isFunction thenMethod
    · simp only [callable, ↓reduceIte]
      unfold enqueueJob
      split <;> exact recorded.congr rfl rfl (fun q => by simp [past, Job.isFor]) (by simp)
    · simp only [callable, Bool.false_eq_true, ↓reduceIte]
      exact fulfillOrRejectPromise_recorded recorded p resolution false

theorem Recorded.mark (recorded : Recorded s log) {k : Nat} {pair : ResolvingPair} (there : s.pairs[k]? = some pair)
    (frames : List (Frame V)) :
    Recorded { s with pairs := s.pairs.set k { pair with alreadyResolved := true }, frames } (log ++ [.called k]) := by
  have bound : k < s.pairs.length := (List.getElem?_eq_some_iff.mp there).1
  refine recorded.silent rfl ?_ (fun p => by simp [past]) ?_
  · intro i other found resolved
    rcases eq_or_ne k i with rfl | same
    · exact ⟨_, getElem?_set_self bound, rfl⟩
    · exact ⟨other, by rwa [getElem?_set_ne same], resolved⟩
  · intro i inside
    simp only [mem_singleton, Event.called.injEq] at inside
    subst inside
    exact ⟨_, getElem?_set_self bound, rfl⟩

section Calls

variable (values : Values V) (recorded : Recorded s log)

include values recorded

theorem promiseResolveFunctionCall_recorded (k : Nat) (isReject : Bool) (resolution : V) :
    Recorded (promiseResolveFunctionCall values k isReject resolution s).1
      (log ++ (promiseResolveFunctionCall values k isReject resolution s).2) := by
  unfold promiseResolveFunctionCall
  cases there : s.pairs[k]? with
  | none => simpa using recorded
  | some pair =>
    by_cases resolved : pair.alreadyResolved
    · simp only [resolved, ↓reduceIte]
      refine recorded.silent rfl (fun i other found set => ⟨other, found, set⟩) (fun p => by simp [past]) ?_
      intro i inside
      simp only [mem_singleton, Event.called.injEq] at inside
      subst inside
      exact ⟨pair, there, resolved⟩
    · have marked := recorded.mark there s.frames
      simp only [resolved, Bool.false_eq_true, ↓reduceIte]
      split
      · have done := fulfillOrRejectPromise_recorded marked pair.promise resolution isReject
        simpa using done
      · split
        · have done := fulfillOrRejectPromise_recorded marked pair.promise values.selfResolution true
          simpa [rejectPromise] using done
        · exact recorded.mark there _

theorem acts_recorded {r : State V × List (Event V)} (acts : Acts values s r) : Recorded r.1 (log ++ r.2) := by
  rcases acts with rfl | ⟨k, isReject, arg, rfl⟩
  · simpa using recorded
  · exact promiseResolveFunctionCall_recorded values recorded k isReject arg

end Calls

theorem Recorded.createResolvingFunctions (recorded : Recorded s log) (p : Nat) (frames : List (Frame V)) :
    Recorded { Promises.createResolvingFunctions p s with frames } log := by
  have grown : Recorded { Promises.createResolvingFunctions p s with frames } (log ++ []) := by
    refine recorded.silent rfl ?_ (fun _ => by simp [past, Promises.createResolvingFunctions]) (by simp)
    intro k pair found resolved
    refine ⟨pair, ?_, resolved⟩
    simp only [Promises.createResolvingFunctions]
    rwa [getElem?_append_left (List.getElem?_eq_some_iff.mp found).1]
  simpa using grown

theorem executeJob_recorded [DecidableEq V] (values : Values V) (recorded : Recorded s log) (job : Job V) :
    Recorded (executeJob values job s).1 (log ++ (executeJob values job s).2) := by
  cases job with
  | reaction source rd isReject arg =>
    simp only [executeJob, promiseReactionJob]
    split
    · exact acts_recorded values recorded (reactionReturned_acts ..)
    · simpa using recorded.popped _
  | resolveThenable p thenable thenMethod =>
    simpa [executeJob, promiseResolveThenableJob] using recorded.createResolvingFunctions p _

theorem promiseConstructor_recorded (values : Values V) (recorded : Recorded s log) :
    Recorded (promiseConstructor values s) log := by
  have grown : Recorded { s with promises := s.promises ++ [⟨.pending, ⟨[], []⟩, false, values.undefined⟩] } log := by
    refine ⟨?_, ?_, recorded.called⟩
    · intro p d found
      rw [getElem?_append] at found
      split at found
      · exact recorded.promise p d found
      · have none : past p s log = _ := recorded.absent p (getElem?_eq_none (by omega))
        rw [getElem?_singleton] at found
        split at found
        · cases found
          show PromiseData.Records _ p (past p s log)
          rw [none]
          exact ⟨rfl, ⟨.refl _, .refl _⟩, fun _ isReject => by cases isReject <;> rfl⟩
        · cases found
    · intro p none
      refine recorded.absent p (getElem?_eq_none ?_)
      have long := List.getElem?_eq_none_iff.mp none
      simp only [length_append, length_singleton] at long
      omega
  exact grown.createResolvingFunctions _ _

theorem step_recorded [DecidableEq V] (values : Values V) {action : Action V} (recorded : Recorded s log)
    {r : State V × List (Event V)} (next : step values s action = some r) : Recorded r.1 (log ++ r.2) := by
  cases step_cases values next with
  | construct => simpa using promiseConstructor_recorded values recorded
  | called func arg => exact acts_recorded values recorded (call_acts values func arg s)
  | register there resolveReject cap => exact performPromiseThen_recorded values recorded there resolveReject cap
  | executed queue => simpa using executeJob_recorded values (recorded.taken queue) _
  | executorReturns _ result | thenableReturns _ result =>
    exact acts_recorded values (recorded.popped _) (userReturned_acts ..)
  | thenFound stack result => exact thenLookedUp_recorded values (recorded.popped _) _ _ result
  | handlerReturns stack result => exact acts_recorded values (recorded.popped _) (reactionReturned_acts ..)

theorem start_recorded (memory : List Bool) : Recorded (start memory : State V) [] := by
  refine ⟨fun p d there => ?_, fun p _ => rfl, fun k inside => ?_⟩
  · simp [start] at there
  · cases inside

theorem run_recorded [DecidableEq V] (values : Values V) {actions : List (Action V)} (recorded : Recorded s log)
    {log' : List (Event V)} (reached : Trace.run (step values) s log actions = some (s', log')) : Recorded s' log' :=
  Trace.run_invariant (fun _ _ _ _ _ before next => step_recorded values before next) recorded reached

end Log

end Promises
