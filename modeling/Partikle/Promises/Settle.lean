import Partikle.Promises.Once

/-!
At most one thing can settle a promise, and only while it is pending: a resolving pair that has not been called, a
`then` that is being looked up, or a job that will call a `then`. So the first call of a pair always finds it pending.
With a job that is refused nothing is left that can settle the promise.
-/

namespace Promises

open List

variable {V : Type}

def isUnresolved (p : Nat) (pair : ResolvingPair) : Bool := pair.promise == p && !pair.alreadyResolved

def isThenableJob (p : Nat) : Job V → Bool
  | .resolveThenable q _ _ => q == p
  | .reaction .. => false

def isGetThen (p : Nat) : Frame V → Bool
  | .getThen q _ => q == p
  | _ => false

def authorities (s : State V) (p : Nat) : Nat :=
  s.pairs.countP (isUnresolved p) + s.jobs.countP (isThenableJob p) + s.frames.countP (isGetThen p)

def isPending (s : State V) (p : Nat) : Bool :=
  match s.promises[p]? with
  | some d => d.promiseState == .pending
  | none => false

def Authorized (s : State V) : Prop := ∀ p, authorities s p ≤ (isPending s p).toNat

structure Claimed (s : State V) (p : Nat) : Prop where
  pending : isPending s p
  taken : authorities s p = 0
  others : ∀ q, q ≠ p → authorities s q ≤ (isPending s q).toNat

variable {s s' : State V} {p : Nat}

theorem Authorized.congr (authorized : Authorized s) (same : ∀ q, authorities s' q = authorities s q)
    (pending : ∀ q, isPending s' q = isPending s q) : Authorized s' := by
  intro q
  rw [same, pending]
  exact authorized q

theorem Authorized.taken (authorized : Authorized s) {job : Job V} {jobs : List (Job V)}
    (queue : s.jobs = job :: jobs) (other : ∀ q, isThenableJob q job = false) : Authorized { s with jobs } :=
  authorized.congr (fun q => by simp [authorities, queue, other]) fun _ => rfl

variable {frames : List (Frame V)} {d d' : PromiseData V} {pair : ResolvingPair} {k : Nat}
  {r : State V × List (Event V)} {log : List (Event V)}

theorem Authorized.popped (authorized : Authorized s) {frame : Frame V}
    (stack : s.frames = frame :: frames) (other : ∀ q, isGetThen q frame = false) : Authorized { s with frames } :=
  authorized.congr (fun q => by simp [authorities, stack, other]) fun _ => rfl

theorem Claimed.give (claimed : Claimed s p) (pending : ∀ q, isPending s' q = isPending s q)
    (more : ∀ q, authorities s' q ≤ authorities s q + if p = q then 1 else 0) : Authorized s' := by
  intro q
  rw [pending]
  refine Nat.le_trans (more q) ?_
  rcases eq_or_ne p q with rfl | same
  · simp [claimed.taken, claimed.pending]
  · simp only [same, ↓reduceIte, Nat.add_zero]
    exact claimed.others q (Ne.symm same)

theorem Authorized.claim (authorized : Authorized s) (pending : ∀ q, isPending s' q = isPending s q)
    (less : ∀ q, authorities s q = authorities s' q + if p = q then 1 else 0) : Claimed s' p := by
  have own := authorized p
  rw [less p, if_pos rfl] at own
  have here : isPending s p = true := by
    cases now : isPending s p with
    | true => rfl
    | false => simp [now] at own
  refine ⟨(pending p).trans here, by simpa [here] using own, ?_⟩
  intro q different
  have other := less q
  simp only [different.symm, ↓reduceIte, Nat.add_zero] at other
  rw [pending, ← other]
  exact authorized q

theorem isPending_set (there : s.promises[p]? = some d) (promises : s'.promises = s.promises.set p d') (q : Nat) :
    isPending s' q = if p = q then d'.promiseState == .pending else isPending s q := by
  unfold isPending
  rw [promises]
  rcases eq_or_ne p q with rfl | same
  · rw [getElem?_set_self (List.getElem?_eq_some_iff.mp there).1]
    simp
  · simp [same]

theorem fulfillOrRejectPromise_authorized (claimed : Claimed s p) (value : V) (isReject : Bool) :
    Authorized (fulfillOrRejectPromise p value isReject s).1 := by
  have here := claimed.pending
  unfold fulfillOrRejectPromise
  unfold isPending at here
  cases there : s.promises[p]? with
  | none => simp [there] at here
  | some d =>
    have state : d.promiseState = .pending := by simpa [there] using here
    simp only [state]
    obtain ⟨queued, refused, ⟨memory, after⟩, -, divided⟩ := enqueueJobs_enqueues
      ((d.promiseReactions.get isReject).map fun rd => Job.reaction p rd isReject value)
      { s with promises := s.promises.set p ⟨.settled isReject, ⟨[], []⟩, d.isHandled, value⟩ }
    rw [after]
    intro q
    rw [isPending_set there rfl q]
    have none : queued.countP (isThenableJob q) = 0 := by
      refine Nat.le_zero.mp (Nat.le_trans divided.1.countP_le ?_)
      simp [isThenableJob]
    have unchanged (promises : List (PromiseData V)) :
        authorities { s with promises, jobs := s.jobs ++ queued, memory } q = authorities s q := by
      simp [authorities, none]
    rw [unchanged]
    rcases eq_or_ne p q with rfl | own
    · rw [claimed.taken]
      exact Nat.zero_le _
    · simp only [own, ↓reduceIte]
      exact claimed.others q (Ne.symm own)

theorem createResolvingFunctions_authorized (claimed : Claimed s p)
    (same : ∀ q, frames.countP (isGetThen q) = s.frames.countP (isGetThen q)) :
    Authorized { createResolvingFunctions p s with frames } := by
  refine claimed.give (fun q => rfl) fun q => ?_
  simp [authorities, createResolvingFunctions, isUnresolved, countP_cons, same]
  omega

theorem thenLookedUp_authorized (values : Values V) (claimed : Claimed s p) (resolution : V) (found : Except V V) :
    Authorized (thenLookedUp values p resolution found s).1 := by
  unfold thenLookedUp
  cases found with
  | error e => exact fulfillOrRejectPromise_authorized claimed e true
  | ok thenMethod =>
    by_cases callable : values.isFunction thenMethod
    · simp only [callable, ↓reduceIte]
      unfold enqueueJob
      split
      all_goals
        refine claimed.give (fun q => rfl) fun q => ?_
        simp [authorities, isThenableJob, countP_cons]
        try omega
    · simp only [callable, Bool.false_eq_true, ↓reduceIte]
      exact fulfillOrRejectPromise_authorized claimed resolution false

theorem Authorized.mark (authorized : Authorized s)
    (there : s.pairs[k]? = some pair) (unresolved : pair.alreadyResolved = false) :
    Claimed { s with pairs := s.pairs.set k { pair with alreadyResolved := true } } pair.promise := by
  obtain ⟨bound, found⟩ := List.getElem?_eq_some_iff.mp there
  refine authorized.claim (fun q => rfl) fun q => ?_
  have counted := countP_set (p := isUnresolved q) (a := { pair with alreadyResolved := true }) bound
  have some_counted : isUnresolved q s.pairs[k] = true → 0 < s.pairs.countP (isUnresolved q) :=
    fun holds => countP_pos_iff.mpr ⟨_, getElem_mem bound, holds⟩
  rw [found] at counted some_counted
  by_cases own : pair.promise = q
  · simp only [isUnresolved, own, unresolved, Bool.not_false, Bool.not_true, beq_self_eq_true, Bool.and_true,
      Bool.and_false, Bool.false_eq_true, ↓reduceIte] at counted some_counted
    simp only [authorities, own, ↓reduceIte]
    have positive := some_counted trivial
    omega
  · simp only [isUnresolved, own, beq_iff_eq, Bool.and_eq_true, false_and, ↓reduceIte] at counted
    simp only [authorities, own, ↓reduceIte]
    omega

section Calls

variable (values : Values V) (authorized : Authorized s)

include values authorized

theorem promiseResolveFunctionCall_authorized (k : Nat) (isReject : Bool) (resolution : V) :
    Authorized (promiseResolveFunctionCall values k isReject resolution s).1 := by
  unfold promiseResolveFunctionCall
  cases there : s.pairs[k]? with
  | none => exact authorized
  | some pair =>
    by_cases resolved : pair.alreadyResolved
    · simp only [resolved, ↓reduceIte]
      exact authorized
    · have claimed := authorized.mark there (by simpa using resolved)
      simp only [resolved, Bool.false_eq_true, ↓reduceIte]
      split
      · exact fulfillOrRejectPromise_authorized claimed resolution isReject
      · split
        · exact fulfillOrRejectPromise_authorized claimed values.selfResolution true
        · refine claimed.give (fun q => rfl) fun q => ?_
          simp [authorities, isGetThen, countP_cons]
          omega

theorem acts_authorized (acts : Acts values s r) : Authorized r.1 := by
  rcases acts with rfl | ⟨k, isReject, arg, rfl⟩
  · exact authorized
  · exact promiseResolveFunctionCall_authorized values authorized k isReject arg

theorem performPromiseThen_authorized (there : s.promises[p]? = some d) (resolveReject cap : Both V) :
    Authorized (performPromiseThen values p d resolveReject cap s).1 := by
  have same : ∀ {s' d'}, s'.promises = s.promises.set p d' → d'.promiseState = d.promiseState →
      ∀ q, isPending s' q = isPending s q := by
    intro s' d' promises state q
    rw [isPending_set there promises q, state]
    split
    · rename_i here
      simp [← here, isPending, there]
    · rfl
  unfold performPromiseThen
  cases state : d.promiseState with
  | pending => exact authorized.congr (fun q => rfl) (same rfl state.symm)
  | settled isReject =>
    simp only [enqueueJob]
    split
    all_goals exact authorized.congr (fun q => by simp [authorities, isThenableJob]) (same rfl state.symm)

theorem promiseConstructor_authorized : Authorized (promiseConstructor values s) := by
  have pending : ∀ q, isPending { s with promises := s.promises ++ [⟨.pending, ⟨[], []⟩, false, values.undefined⟩] } q =
      if s.promises.length = q then true else isPending s q := by
    intro q
    unfold isPending
    rcases eq_or_ne s.promises.length q with rfl | new
    · simp
    · simp only [new, ↓reduceIte]
      rcases Nat.lt_or_ge q s.promises.length with old | beyond
      · rw [getElem?_append_left old]
      · rw [getElem?_eq_none (by simp; omega), getElem?_eq_none beyond]
  have absent : isPending s s.promises.length = false := by simp [isPending]
  have claimed : Claimed { s with promises := s.promises ++ [⟨.pending, ⟨[], []⟩, false, values.undefined⟩] }
      s.promises.length := by
    refine ⟨by rw [pending]; simp, ?_, ?_⟩
    · have none := authorized s.promises.length
      rw [absent] at none
      exact Nat.le_zero.mp none
    · intro q different
      rw [pending q]
      simp only [different.symm, ↓reduceIte]
      exact authorized q
  unfold promiseConstructor
  simp only [length_append, length_singleton, Nat.add_sub_cancel]
  exact createResolvingFunctions_authorized claimed fun q => by simp [isGetThen]

end Calls

theorem step_authorized [DecidableEq V] (values : Values V) {action : Action V} (authorized : Authorized s)
    (next : step values s action = some r) : Authorized r.1 := by
  cases step_cases values next with
  | construct => exact promiseConstructor_authorized values authorized
  | called func arg => exact acts_authorized values authorized (call_acts values func arg s)
  | register there resolveReject cap => exact performPromiseThen_authorized values authorized there resolveReject cap
  | @executed job jobs queue =>
    cases job with
    | reaction source rd isReject arg =>
      have taken := authorized.taken queue fun _ => rfl
      simp only [executeJob, promiseReactionJob]
      split
      · exact acts_authorized values taken (reactionReturned_acts ..)
      · exact taken.congr (fun q => by simp [authorities, isGetThen]) fun _ => rfl
    | resolveThenable p thenable thenMethod =>
      have claimed : Claimed { s with jobs } p := by
        refine authorized.claim (fun q => rfl) fun q => ?_
        simp [authorities, queue, isThenableJob, countP_cons]
        omega
      exact createResolvingFunctions_authorized claimed fun q => by simp [isGetThen]
  | executorReturns stack result | thenableReturns stack result =>
    exact acts_authorized values (authorized.popped stack fun _ => rfl) (userReturned_acts ..)
  | @thenFound p resolution frames stack result =>
    have claimed : Claimed { s with frames } p := by
      refine authorized.claim (fun q => rfl) fun q => ?_
      simp [authorities, stack, isGetThen, countP_cons]
      omega
    exact thenLookedUp_authorized values claimed resolution result
  | handlerReturns stack result =>
    exact acts_authorized values (authorized.popped stack fun _ => rfl) (reactionReturned_acts ..)

theorem run_authorized [DecidableEq V] (values : Values V) {actions : List (Action V)} {log' : List (Event V)}
    (authorized : Authorized s) (reached : Trace.run (step values) s log actions = some (s', log')) : Authorized s' :=
  Trace.run_invariant (P := fun s _ => Authorized s) (fun _ _ _ _ _ before next => step_authorized values before next)
    authorized reached

theorem Authorized.unresolved (authorized : Authorized s)
    (there : s.pairs[k]? = some pair) (unresolved : pair.alreadyResolved = false) :
    ∃ d, s.promises[pair.promise]? = some d ∧ d.promiseState = .pending := by
  have positive : 0 < s.pairs.countP (isUnresolved pair.promise) := by
    refine countP_pos_iff.mpr ⟨pair, mem_of_getElem? there, ?_⟩
    simp [isUnresolved, unresolved]
  have counted := authorized pair.promise
  have pending : isPending s pair.promise = true := by
    cases now : isPending s pair.promise with
    | true => rfl
    | false =>
      rw [now] at counted
      simp only [authorities, Bool.toNat_false] at counted
      omega
  unfold isPending at pending
  cases found : s.promises[pair.promise]? with
  | none => simp [found] at pending
  | some d => exact ⟨d, rfl, by simpa [found] using pending⟩

theorem Recorded.settled_stays {events : List (Event V)} {isReject : Bool}
    (before : Recorded s log) (after : Recorded s' (log ++ events)) (there : s.promises[p]? = some d)
    (settled : d.promiseState = .settled isReject) :
    ∃ d', s'.promises[p]? = some d' ∧ d'.promiseState = .settled isReject ∧ d'.promiseResult = d.promiseResult := by
  have old : (past p s log).settled = [(isReject, d.promiseResult)] := by
    rw [(before.promise p d there).settled, PromiseData.settlement, settled]
  have both : (past p s' (log ++ events)).settled = (past p s log).settled ++ _ := filterMap_append
  rw [old] at both
  cases there' : s'.promises[p]? with
  | none =>
    rw [after.absent p there'] at both
    cases both
  | some d' =>
    refine ⟨d', rfl, ?_⟩
    rw [(after.promise p d' there').settled] at both
    unfold PromiseData.settlement at both
    cases state : d'.promiseState with
    | pending => simp [state] at both
    | settled isReject' =>
      simp only [state, cons_append, nil_append, cons.injEq, Prod.mk.injEq] at both
      exact ⟨by rw [both.1.1], both.1.2⟩

/-- In a state with this log each promise has been settled at most once, as it now is, and stays so whatever happens;
its registrations, in their order, have each become one job of the kind and with the value of the settlement, once
there is one, exactly when none of these jobs was refused by the queue; a pair of which a function has been called
does nothing more; and a pair of which none has been called finds its promise pending. -/
structure SettlesOnce [DecidableEq V] (values : Values V) (s : State V) (log : List (Event V)) : Prop where
  settled : ∀ (p : Nat) (d : PromiseData V), s.promises[p]? = some d → (past p s log).settled = d.settlement
  stays : ∀ (more : List (Action V)) (s' : State V) (log' : List (Event V)),
    Trace.run (step values) s log more = some (s', log') → ∀ (p : Nat) (d : PromiseData V) (isReject : Bool),
    s.promises[p]? = some d → d.promiseState = .settled isReject → ∃ d', s'.promises[p]? = some d' ∧
      d'.promiseState = .settled isReject ∧ d'.promiseResult = d.promiseResult
  queued : ∀ (p : Nat) (d : PromiseData V), s.promises[p]? = some d →
    ((past p s log).queued = d.due p (past p s log).registered ↔ (past p s log).refused = [])
  first : ∀ (k : Nat) (isReject : Bool) (arg : V), .called k ∈ log →
    promiseResolveFunctionCall values k isReject arg s = (s, [.called k])
  finds : ∀ (k : Nat) (pair : ResolvingPair), s.pairs[k]? = some pair → pair.alreadyResolved = false →
    ∃ d, s.promises[pair.promise]? = some d ∧ d.promiseState = .pending

/-- Values with objects, functions, one promise and its resolving functions. -/
inductive Sample where
  | undefined
  | number (n : Nat)
  | function (id : Nat)
  | promise (p : Nat)
  | resolving (pair : Nat) (isReject : Bool)
  | selfResolution
deriving DecidableEq

def sampleValues : Values Sample where
  undefined := .undefined
  isObject := fun v => match v with
    | .undefined | .number _ => false
    | _ => true
  isFunction := fun v => match v with
    | .function _ | .resolving .. => true
    | _ => false
  sameValue := fun v w => v = w
  promise := .promise
  selfResolution := .selfResolution
  resolving := fun v => match v with
    | .resolving pair isReject => some (pair, isReject)
    | _ => none

/-- A promise that is resolved with a thenable, whose job resolves it with a number and rejects it again; one
registration before and one after it. -/
def sampleActions : List (Action Sample) :=
  [.construct, .register 0 ⟨.function 1, .function 2⟩ ⟨.undefined, .undefined⟩,
    .callFunction (.resolving 0 false) (.function 7), .callFunction (.resolving 0 true) (.number 1),
    .userReturns (.ok (.function 8)), .userReturns (.ok .undefined), .executePendingJob,
    .callFunction (.resolving 1 false) (.number 5), .userReturns (.error (.number 6)),
    .register 0 ⟨.number 3, .undefined⟩ ⟨.undefined, .undefined⟩]

end Promises
