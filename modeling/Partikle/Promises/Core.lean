import Partikle.Lib.Trace

/-!
Promises, their resolving functions and the job queue. User code that the engine calls (an executor, a `then` getter,
a `then` method, a handler) may do anything; it is what happens between the action that calls it and the one with
which it returns.
-/

namespace Promises

open Option

structure Values (V : Type) where
  undefined : V
  isObject : V → Bool
  isFunction : V → Bool
  sameValue : V → V → Bool
  promise : Nat → V
  selfResolution : V
  /-- The resolving pair that a function object belongs to, and whether it is the one that rejects. -/
  resolving : V → Option (Nat × Bool)

structure Both (α : Type) where
  onFulfilled : α
  onRejected : α
deriving DecidableEq

def Both.get {α : Type} (b : Both α) (isReject : Bool) : α := if isReject then b.onRejected else b.onFulfilled

structure ReactionData (V : Type) where
  resolvingFuncs : Both V
  handler : V
deriving DecidableEq

inductive PromiseState where
  | pending
  | settled (isReject : Bool)
deriving DecidableEq

structure PromiseData (V : Type) where
  promiseState : PromiseState
  promiseReactions : Both (List (ReactionData V))
  isHandled : Bool
  promiseResult : V
deriving DecidableEq

/-- The two functions of a pair share `already_resolved`. -/
structure ResolvingPair where
  promise : Nat
  alreadyResolved : Bool
deriving DecidableEq

/-- `source`, the promise that a reaction was registered with, is no argument of the job; the engine never reads it. -/
inductive Job (V : Type) where
  | reaction (source : Nat) (rd : ReactionData V) (isReject : Bool) (arg : V)
  | resolveThenable (promise : Nat) (thenable thenMethod : V)
deriving DecidableEq

inductive Frame (V : Type) where
  | executor (pair : Nat)
  | getThen (promise : Nat) (resolution : V)
  | thenableJob (pair : Nat)
  | reactionJob (resolvingFuncs : Both V)
deriving DecidableEq

structure State (V : Type) where
  promises : List (PromiseData V)
  pairs : List ResolvingPair
  jobs : List (Job V)
  frames : List (Frame V)
  /-- Whether the next entries of the queue can be allocated; behind the end of the list all can. -/
  memory : List Bool
deriving DecidableEq

structure Registration (V : Type) where
  resolvingFuncs : Both V
  handlers : Both V
deriving DecidableEq

inductive Event (V : Type) where
  | registered (promise : Nat) (registration : Registration V)
  | settled (promise : Nat) (isReject : Bool) (value : V)
  | executed (job : Job V)
  | refused (job : Job V)
  | called (pair : Nat)
  | rejectionTracker (promise : Nat) (value : V) (isHandled : Bool)
deriving DecidableEq

variable {V : Type} (values : Values V)

/-- The callers ignore what `JS_EnqueueJob` returns. -/
def enqueueJob (job : Job V) (s : State V) : State V × List (Event V) :=
  if s.memory.headD true then ({ s with jobs := s.jobs ++ [job], memory := s.memory.tail }, [])
  else ({ s with memory := s.memory.tail }, [.refused job])

def enqueueJobs : List (Job V) → State V → State V × List (Event V)
  | [], s => (s, [])
  | job :: jobs, s =>
    let r := enqueueJob job s
    let rest := enqueueJobs jobs r.1
    (rest.1, r.2 ++ rest.2)

def fulfillOrRejectPromise (p : Nat) (value : V) (isReject : Bool) (s : State V) : State V × List (Event V) :=
  match s.promises[p]? with
  | none => (s, [])
  | some d =>
    match d.promiseState with
    | .settled _ => (s, [])
    | .pending =>
      let jobs := (d.promiseReactions.get isReject).map fun rd => Job.reaction p rd isReject value
      let d := { d with
        promiseState := .settled isReject
        promiseResult := value
        promiseReactions := ⟨[], []⟩ }
      let r := enqueueJobs jobs { s with promises := s.promises.set p d }
      (r.1, .settled p isReject value ::
        (if isReject && !d.isHandled then [.rejectionTracker p value false] else []) ++ r.2)

def rejectPromise (p : Nat) (value : V) (s : State V) : State V × List (Event V) :=
  fulfillOrRejectPromise p value true s

def createResolvingFunctions (p : Nat) (s : State V) : State V := { s with pairs := s.pairs ++ [⟨p, false⟩] }

def thenLookedUp (p : Nat) (resolution : V) (found : Except V V) (s : State V) : State V × List (Event V) :=
  match found with
  | .error e => rejectPromise p e s
  | .ok thenMethod =>
    if values.isFunction thenMethod then enqueueJob (.resolveThenable p resolution thenMethod) s
    else fulfillOrRejectPromise p resolution false s

def promiseResolveFunctionCall (k : Nat) (isReject : Bool) (resolution : V) (s : State V) :
    State V × List (Event V) :=
  match s.pairs[k]? with
  | none => (s, [])
  | some pair =>
    if pair.alreadyResolved then (s, [.called k])
    else
      let s := { s with pairs := s.pairs.set k { pair with alreadyResolved := true } }
      if isReject || !values.isObject resolution then
        let r := fulfillOrRejectPromise pair.promise resolution isReject s
        (r.1, .called k :: r.2)
      else if values.sameValue resolution (values.promise pair.promise) then
        let r := rejectPromise pair.promise values.selfResolution s
        (r.1, .called k :: r.2)
      else ({ s with frames := .getThen pair.promise resolution :: s.frames }, [.called k])

/-- `JS_Call`, as far as the function is a resolving function; what others do are actions of their own. -/
def call (func : V) (arg : V) (s : State V) : State V × List (Event V) :=
  match values.resolving func with
  | some (k, isReject) => promiseResolveFunctionCall values k isReject arg s
  | none => (s, [])

def reactionReturned (resolvingFuncs : Both V) (result : Except V V) (s : State V) : State V × List (Event V) :=
  match result with
  | .error e => call values resolvingFuncs.onRejected e s
  | .ok v => call values resolvingFuncs.onFulfilled v s

def promiseReactionJob [DecidableEq V] (rd : ReactionData V) (isReject : Bool) (arg : V) (s : State V) :
    State V × List (Event V) :=
  if rd.handler = values.undefined then
    reactionReturned values rd.resolvingFuncs (if isReject then .error arg else .ok arg) s
  else ({ s with frames := .reactionJob rd.resolvingFuncs :: s.frames }, [])

def promiseResolveThenableJob (p : Nat) (s : State V) : State V :=
  { createResolvingFunctions p s with frames := .thenableJob s.pairs.length :: s.frames }

def userReturned (pair : Nat) (result : Except V V) (s : State V) : State V × List (Event V) :=
  match result with
  | .error e => promiseResolveFunctionCall values pair true e s
  | .ok _ => (s, [])

def promiseConstructor (s : State V) : State V :=
  let s := { s with promises := s.promises ++ [⟨.pending, ⟨[], []⟩, false, values.undefined⟩] }
  { createResolvingFunctions (s.promises.length - 1) s with frames := .executor s.pairs.length :: s.frames }

def registration (resolveReject capResolvingFuncs : Both V) : Registration V :=
  let handler := fun v => if values.isFunction v then v else values.undefined
  ⟨capResolvingFuncs, ⟨handler resolveReject.onFulfilled, handler resolveReject.onRejected⟩⟩

def performPromiseThen (p : Nat) (d : PromiseData V) (resolveReject : Both V) (capResolvingFuncs : Both V)
    (s : State V) : State V × List (Event V) :=
  let r := registration values resolveReject capResolvingFuncs
  match d.promiseState with
  | .pending =>
    let d := { d with
      promiseReactions := ⟨d.promiseReactions.onFulfilled ++ [⟨capResolvingFuncs, r.handlers.onFulfilled⟩],
        d.promiseReactions.onRejected ++ [⟨capResolvingFuncs, r.handlers.onRejected⟩]⟩
      isHandled := true }
    ({ s with promises := s.promises.set p d }, [.registered p r])
  | .settled isReject =>
    let job := Job.reaction p ⟨capResolvingFuncs, r.handlers.get isReject⟩ isReject d.promiseResult
    let queued := enqueueJob job { s with promises := s.promises.set p { d with isHandled := true } }
    (queued.1, .registered p r ::
      (if isReject && !d.isHandled then [.rejectionTracker p d.promiseResult true] else []) ++ queued.2)

inductive Action (V : Type) where
  | construct
  | callFunction (func : V) (arg : V)
  | register (promise : Nat) (resolveReject : Both V) (capResolvingFuncs : Both V)
  | executePendingJob
  /-- The user code that the innermost call waits for returns or throws. -/
  | userReturns (result : Except V V)

def executeJob [DecidableEq V] (job : Job V) (s : State V) : State V × List (Event V) :=
  match job with
  | .reaction _ rd isReject arg => promiseReactionJob values rd isReject arg s
  | .resolveThenable p _ _ => (promiseResolveThenableJob p s, [])

def step [DecidableEq V] (s : State V) : Action V → Option (State V × List (Event V))
  | .construct => some (promiseConstructor values s, [])
  | .callFunction func arg => some (call values func arg s)
  | .register p resolveReject cap =>
    (s.promises[p]?).map fun d => performPromiseThen values p d resolveReject cap s
  | .executePendingJob =>
    match s.jobs with
    | [] => none
    | job :: jobs =>
      let r := executeJob values job { s with jobs }
      some (r.1, .executed job :: r.2)
  | .userReturns result =>
    match s.frames with
    | [] => none
    | .executor k :: frames => some (userReturned values k result { s with frames })
    | .thenableJob k :: frames => some (userReturned values k result { s with frames })
    | .getThen p resolution :: frames => some (thenLookedUp values p resolution result { s with frames })
    | .reactionJob funcs :: frames => some (reactionReturned values funcs result { s with frames })

/-- What happens is a call of a resolving function, or nothing. -/
def Acts (s : State V) (r : State V × List (Event V)) : Prop :=
  r = (s, []) ∨ ∃ k isReject arg, r = promiseResolveFunctionCall values k isReject arg s

theorem call_acts (func arg : V) (s : State V) : Acts values s (call values func arg s) := by
  unfold call
  cases values.resolving func with
  | none => exact .inl rfl
  | some target => exact .inr ⟨target.1, target.2, arg, rfl⟩

theorem reactionReturned_acts (funcs : Both V) (result : Except V V) (s : State V) :
    Acts values s (reactionReturned values funcs result s) := by
  cases result with
  | error _ | ok _ => exact call_acts values _ _ s

theorem userReturned_acts (k : Nat) (result : Except V V) (s : State V) :
    Acts values s (userReturned values k result s) := by
  cases result with
  | error e => exact .inr ⟨k, true, e, rfl⟩
  | ok _ => exact .inl rfl

inductive Transition [DecidableEq V] (s : State V) : State V × List (Event V) → Prop
  | construct : Transition s (promiseConstructor values s, [])
  | called (func arg : V) : Transition s (call values func arg s)
  | register {p : Nat} {d : PromiseData V} (there : s.promises[p]? = some d) (resolveReject cap : Both V) :
      Transition s (performPromiseThen values p d resolveReject cap s)
  | executed {job : Job V} {jobs : List (Job V)} (queue : s.jobs = job :: jobs) :
      Transition s ((executeJob values job { s with jobs }).1,
        .executed job :: (executeJob values job { s with jobs }).2)
  | executorReturns {k : Nat} {frames : List (Frame V)} (stack : s.frames = .executor k :: frames)
      (result : Except V V) : Transition s (userReturned values k result { s with frames })
  | thenableReturns {k : Nat} {frames : List (Frame V)} (stack : s.frames = .thenableJob k :: frames)
      (result : Except V V) : Transition s (userReturned values k result { s with frames })
  | thenFound {p : Nat} {resolution : V} {frames : List (Frame V)} (stack : s.frames = .getThen p resolution :: frames)
      (result : Except V V) : Transition s (thenLookedUp values p resolution result { s with frames })
  | handlerReturns {funcs : Both V} {frames : List (Frame V)} (stack : s.frames = .reactionJob funcs :: frames)
      (result : Except V V) : Transition s (reactionReturned values funcs result { s with frames })

theorem step_cases [DecidableEq V] {s : State V} {action : Action V} {r : State V × List (Event V)}
    (next : step values s action = some r) : Transition values s r := by
  cases action with
  | construct =>
    obtain rfl := some.inj next
    exact .construct
  | callFunction func arg =>
    obtain rfl := some.inj next
    exact .called func arg
  | register p resolveReject cap =>
    simp only [step, map_eq_some_iff] at next
    obtain ⟨d, there, rfl⟩ := next
    exact .register there resolveReject cap
  | executePendingJob =>
    unfold step at next
    cases queue : s.jobs with
    | nil => simp [queue] at next
    | cons job jobs =>
      rw [queue] at next
      obtain rfl := some.inj next
      exact .executed queue
  | userReturns result =>
    unfold step at next
    cases stack : s.frames with
    | nil => simp [stack] at next
    | cons frame frames =>
      rw [stack] at next
      cases frame with
      | executor k =>
        obtain rfl := some.inj next
        exact .executorReturns stack result
      | thenableJob k =>
        obtain rfl := some.inj next
        exact .thenableReturns stack result
      | getThen p resolution =>
        obtain rfl := some.inj next
        exact .thenFound stack result
      | reactionJob funcs =>
        obtain rfl := some.inj next
        exact .handlerReturns stack result

def start (memory : List Bool) : State V := ⟨[], [], [], [], memory⟩

end Promises
