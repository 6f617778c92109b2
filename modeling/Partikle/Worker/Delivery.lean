import Partikle.Worker.Pipe

/-!
How long the queue and the pipe stay in step. They do as long as no `write` fails; the first one that does
leaves a queue that is not empty and a pipe that is, which nothing mends. A message that cannot be read back is lost.
-/

namespace Worker

open List

variable {M : Type}

def Receiver.inHand : Receiver M → List M
  | .idle | .polled => []
  | .reading msg | .calling msg => [msg]

def InStep (s : State M) : Prop :=
  match s.poster, s.receiver with
  | .idle, .reading _ => s.mutex = some .receiver ∧ s.msgQueue = [] ∧ s.pipe = 1
  | .idle, .polled => s.mutex = none ∧ s.msgQueue ≠ [] ∧ s.pipe = 1
  | .idle, .idle | .idle, .calling _ => s.mutex = none ∧ s.pipe = if s.msgQueue = [] then 0 else 1
  | .writing _, .idle | .writing _, .calling _ => s.mutex = some .poster ∧ s.msgQueue = [] ∧ s.pipe = 0
  | .adding _, .idle | .adding _, .polled | .adding _, .calling _ => s.mutex = some .poster ∧ s.pipe = 1
  | .writing _, .polled | .writing _, .reading _ | .adding _, .reading _ => False

/-- The queue has messages, or will have, and nobody will ever be told. -/
def Stalled (s : State M) : Prop :=
  s.pipe = 0 ∧
  (match s.poster with
    | .idle => s.mutex = none ∧ s.msgQueue ≠ []
    | .writing _ => False
    | .adding _ => s.mutex = some .poster) ∧
  match s.receiver with
  | .idle | .calling _ => True
  | .polled | .reading _ => False

/-- The action is not a `write` that fails. -/
def WriteSucceeds : Action M → Prop
  | .write (.fails _) => False
  | _ => True

/-- The action is not a call for which no event can be made. -/
def ReadsBack : Action M → Prop
  | .call made => made = true
  | _ => True

section Steps

variable {capacity : Nat} {s s' : State M} {log events : List (Event M)} {a : Action M}

inductive Transition (capacity : Nat) (s : State M) : Action M → State M → List (Event M) → Prop where
  | lockEmpty {msg : M} (free : s.mutex = none) (idle : s.poster = .idle) (empty : s.msgQueue = []) :
      Transition capacity s (.post msg) { s with mutex := some .poster, poster := .writing msg } []
  | lock {msg : M} (free : s.mutex = none) (idle : s.poster = .idle) (more : s.msgQueue ≠ []) :
      Transition capacity s (.post msg) { s with mutex := some .poster, poster := .adding msg } []
  | wrote {msg : M} (writing : s.poster = .writing msg) (room : s.pipe < capacity) :
      Transition capacity s (.write .done) { s with pipe := s.pipe + 1, poster := .adding msg } []
  | gaveUp {msg : M} {errno : Errno} (writing : s.poster = .writing msg) (transient : errno ≠ .eio) :
      Transition capacity s (.write (.fails errno)) { s with poster := .adding msg } []
  | added {msg : M} (adding : s.poster = .adding msg) :
      Transition capacity s .add { s with msgQueue := s.msgQueue ++ [msg], mutex := none, poster := .idle }
        [.posted msg]
  | setOnMessage {func : Bool} (idle : s.receiver = .idle) :
      Transition capacity s (.setOnMessage func) { s with onMessage := func } []
  | polled (idle : s.receiver = .idle) (handler : s.onMessage = true) (byte : 0 < s.pipe) :
      Transition capacity s .poll { s with receiver := .polled } []
  | none (free : s.mutex = none) (polled : s.receiver = .polled) (empty : s.msgQueue = []) :
      Transition capacity s .take { s with receiver := .idle } []
  | last {msg : M} (free : s.mutex = none) (polled : s.receiver = .polled) (one : s.msgQueue = [msg]) :
      Transition capacity s .take { s with msgQueue := [], mutex := some .receiver, receiver := .reading msg } []
  | took {msg : M} {rest : List M} (free : s.mutex = none) (polled : s.receiver = .polled)
      (some' : s.msgQueue = msg :: rest) (more : rest ≠ []) :
      Transition capacity s .take { s with msgQueue := rest, receiver := .calling msg } []
  | read {msg : M} (reading : s.receiver = .reading msg) (byte : 0 < s.pipe) :
      Transition capacity s (.read .done)
        { s with pipe := s.pipe - min 16 s.pipe, mutex := none, receiver := .calling msg } []
  | retried {msg : M} {errno : Errno} (reading : s.receiver = .reading msg) :
      Transition capacity s (.read (.fails errno)) s []
  | called {msg : M} (calling : s.receiver = .calling msg) :
      Transition capacity s (.call true) { s with receiver := .idle } [.handled msg]
  | dropped {msg : M} (calling : s.receiver = .calling msg) :
      Transition capacity s (.call false) { s with receiver := .idle } [.dropped msg]

theorem writeStops_eq_true (errno : Errno) : writeStops errno = true := by
  cases errno <;> rfl

theorem readStops_iff {errno : Errno} : readStops errno = true ↔ errno = .eio := by
  cases errno <;> decide

theorem step_cases (next : step capacity s a = some (s', events)) : Transition capacity s a s' events := by
  cases a with
  | post msg =>
    simp only [step, lockQueue] at next
    split at next
    · next free idle =>
        split at next <;> cases next
        · next empty => exact .lockEmpty free idle empty
        · next more => exact .lock free idle more
    · cases next
  | write ret =>
    simp only [step, writePipe] at next
    split at next
    · next writing =>
        split at next <;> cases next
        next room => exact .wrote writing room
    · next writing =>
        rw [writeStops_eq_true] at next
        split at next <;> cases next
        next transient => exact .gaveUp writing transient
    · cases next
  | add =>
    simp only [step, addMessage] at next
    split at next <;> cases next
    next adding => exact .added adding
  | setOnMessage func =>
    simp only [step, jsWorkerSetOnmessage] at next
    split at next <;> cases next
    next idle => exact .setOnMessage idle
  | poll =>
    simp only [step, jsOsPoll] at next
    split at next
    · next idle =>
        split at next <;> cases next
        next ready => exact .polled idle ready.1 ready.2
    · cases next
  | take =>
    simp only [step, handlePostedMessage] at next
    split at next
    · next free polled =>
        split at next <;> cases next
        · next empty => exact .none free polled empty
        · next one => exact .last free polled one
        · next several some' => exact .took free polled some' several
    · cases next
  | read ret =>
    simp only [step, readPipe] at next
    split at next
    · next reading =>
        split at next <;> cases next
        next byte => exact .read reading byte
    · next reading =>
        split at next
        · cases next
        · next transient =>
            rw [if_neg (mt readStops_iff.mp transient)] at next
            cases next
            exact .retried reading
    · cases next
  | call made =>
    simp only [step, callHandler] at next
    split at next <;> cases next
    next calling =>
      cases made
      · exact .dropped calling
      · exact .called calling

theorem inStep_step (inStep : InStep s) (succeeds : WriteSucceeds a)
    (next : step capacity s a = some (s', events)) : InStep s' := by
  obtain ⟨queue, pipe, mutex, poster, receiver, func⟩ := s
  cases step_cases next with
  | gaveUp => exact succeeds.elim
  | lockEmpty _ _ _ | lock _ _ _ | wrote _ _ | added _ => cases receiver <;> simp_all [InStep]
  | setOnMessage _ | none _ _ _ | last _ _ _ | took _ _ _ _ | read _ _ | called _ | dropped _ =>
    cases poster <;> simp_all [InStep]
  | polled idle handler byte => by_cases empty : queue = [] <;> cases poster <;> simp_all [InStep]
  | retried reading => exact inStep

theorem stalls (inStep : InStep s) (fails : ¬WriteSucceeds a) (next : step capacity s a = some (s', events)) :
    Stalled s' := by
  obtain ⟨queue, pipe, mutex, poster, receiver, func⟩ := s
  cases step_cases next with
  | gaveUp writing => cases receiver <;> simp_all [InStep, Stalled]
  | _ => exact absurd trivial fails

theorem stalled_step (stalled : Stalled s) (next : step capacity s a = some (s', events)) : Stalled s' := by
  obtain ⟨queue, pipe, mutex, poster, receiver, func⟩ := s
  cases step_cases next with
  | lockEmpty _ _ _ | lock _ _ _ | added _ => cases receiver <;> simp_all [Stalled]
  | wrote _ _ | gaveUp _ | polled _ _ _ | none _ _ _ | last _ _ _ | took _ _ _ _ | read _ _ => simp_all [Stalled]
  | setOnMessage _ | called _ | dropped _ => cases poster <;> simp_all [Stalled]
  | retried reading => exact stalled

def InOrder (s : State M) (log : List (Event M)) : Prop :=
  handled log ++ (s.receiver.inHand ++ s.msgQueue) = posted log

def AtMost (s : State M) (log : List (Event M)) : Prop :=
  (handled log).length + (s.receiver.inHand ++ s.msgQueue).length ≤ (posted log).length

theorem posted_append (log events : List (Event M)) : posted (log ++ events) = posted log ++ posted events :=
  filterMap_append

theorem handled_append (log events : List (Event M)) : handled (log ++ events) = handled log ++ handled events :=
  filterMap_append

theorem atMost_step (atMost : AtMost s log) (next : step capacity s a = some (s', events)) :
    AtMost s' (log ++ events) := by
  unfold AtMost at atMost ⊢
  rw [posted_append, handled_append]
  cases step_cases next <;> simp_all [posted, handled, Receiver.inHand] <;> omega

theorem inOrder_step (atMost : AtMost s log) (next : step capacity s a = some (s', events)) :
    InOrder s' (log ++ events) ↔ InOrder s log ∧ ReadsBack a := by
  unfold InOrder
  rw [posted_append, handled_append]
  cases step_cases next with
  | dropped calling =>
    -- without the message in hand too few messages are left
    refine iff_of_false (fun inOrder => ?_) fun ⟨_, readsBack⟩ => Bool.noConfusion readsBack
    have lengths := congrArg length inOrder
    simp [AtMost, posted, handled, calling, Receiver.inHand] at lengths atMost
    omega
  | added adding => simp [posted, handled, ReadsBack, ← append_assoc]
  | called calling => simp [posted, handled, ReadsBack, calling, Receiver.inHand]
  | last free polled one => simp [posted, handled, ReadsBack, polled, one, Receiver.inHand]
  | took free polled some' more => simp [posted, handled, ReadsBack, polled, some', Receiver.inHand]
  | read reading | retried reading => simp [posted, handled, ReadsBack, reading, Receiver.inHand]
  | polled idle handler byte => simp [posted, handled, ReadsBack, idle, Receiver.inHand]
  | none free polled empty => simp [posted, handled, ReadsBack, polled, Receiver.inHand]
  | _ => simp [posted, handled, ReadsBack]

theorem inOrder_iff {actions : List (Action M)}
    (reached : Trace.run (step capacity) (jsNewMessagePipe M) [] actions = some (s, log)) :
    InOrder s log ↔ ∀ a ∈ actions, ReadsBack a := by
  have start : InOrder (jsNewMessagePipe M) [] := rfl
  have exact' := Trace.run_iff (Q := InOrder) (C := fun _ => ReadsBack) (fun _ _ _ _ _ => atMost_step)
    (fun _ _ _ _ _ => inOrder_step) (Nat.le_refl _) reached
  rw [exact', and_iff_right start, Trace.along_iff_forall reached]

theorem stalled_handled (stalled : Stalled s) (idle : s.receiver = .idle)
    (next : step capacity s a = some (s', events)) : s'.receiver = .idle ∧ handled (log ++ events) = handled log := by
  cases step_cases next with
  | polled _ handler byte => exact absurd byte (by simp [stalled.1])
  | none _ polled | last _ polled | took _ polled => simp [idle] at polled
  | read reading | retried reading => simp [idle] at reading
  | called calling | dropped calling => simp [idle] at calling
  | _ => exact ⟨idle, by simp [handled]⟩

end Steps

variable {s : State M} {log : List (Event M)} {capacity : Nat}

section Progress

/-- The thread with the handler can go on by itself until all that was posted has been handled. -/
def Delivers (capacity : Nat) (s : State M) (log : List (Event M)) : Prop :=
  ∃ actions, (∀ a ∈ actions, a.byReceiver = true) ∧
    ∃ s' log', Trace.run (step capacity) s log actions = some (s', log') ∧ handled log' = posted log

def State.resting (queue : List M) (receiver : Receiver M) (func : Bool) : State M :=
  ⟨queue, if queue = [] then 0 else 1, none, .idle, receiver, func⟩

theorem run_polled (capacity : Nat) (log : List (Event M)) (msg : M) (rest : List M) (func : Bool) :
    ∃ actions, (∀ a ∈ actions, a.byReceiver = true) ∧
      Trace.run (step capacity) (.resting (msg :: rest) .polled func) log actions = some
      (.resting rest .idle func, log ++ [.handled msg]) := by
  cases rest with
  | nil => exact ⟨[.take, .read .done, .call true], by simp [Action.byReceiver], by
      simp [Trace.run, step, State.resting, handlePostedMessage, readPipe, callHandler]⟩
  | cons msg' rest => exact ⟨[.take, .call true], by simp [Action.byReceiver], by
      simp [Trace.run, step, State.resting, handlePostedMessage, callHandler]⟩

theorem run_idle (capacity : Nat) (log : List (Event M)) (queue : List M) (func : Bool) :
    ∃ actions, (∀ a ∈ actions, a.byReceiver = true) ∧ ∃ s',
      Trace.run (step capacity) (.resting queue .idle func) log actions = some (s', log ++ queue.map .handled) := by
  induction queue generalizing log func with
  | nil => exact ⟨[], by simp, .resting [] .idle func, by simp [Trace.run]⟩
  | cons msg rest ih =>
    obtain ⟨actions, receiver, ran⟩ := run_polled capacity log msg rest true
    obtain ⟨more, receiver', s', ran'⟩ := ih (log ++ [.handled msg]) true
    refine ⟨.setOnMessage true :: .poll :: (actions ++ more), ?_, s', ?_⟩
    · simp only [mem_cons, mem_append]
      rintro a (rfl | rfl | there | there)
      · rfl
      · rfl
      · exact receiver a there
      · exact receiver' a there
    · have polls : Trace.run (step capacity) (.resting (msg :: rest) .idle func) log
          (.setOnMessage true :: .poll :: (actions ++ more)) =
          Trace.run (step capacity) (.resting (msg :: rest) .polled true) log (actions ++ more) := by
        simp [Trace.run, step, State.resting, jsWorkerSetOnmessage, jsOsPoll]
      rw [polls, Trace.run_append, ran, Option.bind_some, ran', append_assoc]
      rfl

theorem handled_append_map (queue : List M) : handled (log ++ queue.map .handled) = handled log ++ queue := by
  rw [handled, filterMap_append, filterMap_map]
  exact congrArg (handled log ++ ·) filterMap_some

theorem delivers_idle {queue : List M} {func : Bool} (inOrder : InOrder (.resting queue .idle func) log) :
    Delivers capacity (.resting queue .idle func) log := by
  obtain ⟨actions, receiver, s', ran⟩ := run_idle capacity log queue func
  refine ⟨actions, receiver, s', _, ran, ?_⟩
  rwa [handled_append_map]

theorem Delivers.after {s' : State M} {log' : List (Event M)} {first : List (Action M)}
    (receiver : ∀ a ∈ first, a.byReceiver = true) (ran : Trace.run (step capacity) s log first = some (s', log'))
    (posted' : posted log' = posted log) (delivers : Delivers capacity s' log') : Delivers capacity s log := by
  obtain ⟨actions, receiver', t, log'', ran', all⟩ := delivers
  refine ⟨first ++ actions, fun a there => ?_, t, log'', ?_, all.trans posted'⟩
  · rcases mem_append.mp there with there | there
    · exact receiver a there
    · exact receiver' a there
  · rwa [Trace.run_append, ran]

theorem delivers (inStep : InStep s) (inOrder : InOrder s log) (free : s.mutex = none) : Delivers capacity s log := by
  obtain ⟨queue, pipe, mutex, poster, receiver, func⟩ := s
  subst free
  cases poster with
  | writing _ | adding _ => cases receiver <;> simp [InStep] at inStep
  | idle =>
    cases receiver with
    | reading msg => simp [InStep] at inStep
    | idle =>
      have bytes : pipe = if queue = [] then 0 else 1 := inStep.2
      subst bytes
      exact delivers_idle inOrder
    | calling msg =>
      have bytes : pipe = if queue = [] then 0 else 1 := inStep.2
      subst bytes
      have called : Trace.run (step capacity) (.resting queue (.calling msg) func) log [.call true] =
          some (.resting queue .idle func, log ++ [.handled msg]) := rfl
      refine Delivers.after (by simp [Action.byReceiver]) called (by simp [posted]) (delivers_idle ?_)
      rw [InOrder] at inOrder ⊢
      simpa [handled, posted, Receiver.inHand, State.resting] using inOrder
    | polled =>
      obtain ⟨-, more, one⟩ := inStep
      cases queue with
      | nil => exact absurd rfl more
      | cons msg rest =>
        cases one
        obtain ⟨actions, receiver, ran⟩ := run_polled capacity log msg rest func
        refine Delivers.after receiver ran (by simp [posted]) (delivers_idle ?_)
        rw [InOrder] at inOrder ⊢
        simpa [handled, posted, Receiver.inHand, State.resting] using inOrder

end Progress

structure Conforms (capacity : Nat) (s : State M) (log : List (Event M)) : Prop where
  notified : s.mutex = none → (0 < s.pipe ↔ s.msgQueue ≠ [])
  writes : ∀ msg, s.poster = .writing msg → s.pipe < capacity
  reads : ∀ msg, s.receiver = .reading msg → 0 < s.pipe
  inOrder : handled log ++ (s.receiver.inHand ++ s.msgQueue) = posted log
  delivers : s.mutex = none → Delivers capacity s log

theorem conforms_of_inStep (room : 0 < capacity) (inStep : InStep s)
    (inOrder : InOrder s log) : Conforms capacity s log := by
  constructor
  case delivers => exact delivers inStep inOrder
  case inOrder => exact inOrder
  all_goals obtain ⟨queue, pipe, mutex, poster, receiver, func⟩ := s
  case notified =>
    intro free
    by_cases empty : queue = [] <;> cases poster <;> cases receiver <;> simp_all [InStep]
  case writes => cases poster <;> cases receiver <;> simp_all [InStep]
  case reads => cases poster <;> cases receiver <;> simp_all [InStep]

theorem not_conforms_of_stalled (stalled : Stalled s) (free : s.mutex = none) : ¬Conforms capacity s log := by
  intro conforms
  obtain ⟨queue, pipe, mutex, poster, receiver, func⟩ := s
  have notified := conforms.notified free
  cases poster <;> simp_all [Stalled]

/-- As long as no `write` fails and every message is read back, all is well; otherwise it is not whenever the mutex
is free. -/
theorem postMessage_conforms_iff {capacity : Nat} {actions : List (Action M)} {s : State M} {log : List (Event M)}
    (room : 0 < capacity) (reached : Trace.run (step capacity) (jsNewMessagePipe M) [] actions = some (s, log)) :
    ((∀ a ∈ actions, WriteSucceeds a ∧ ReadsBack a) → Conforms capacity s log) ∧
      (s.mutex = none → Conforms capacity s log → ∀ a ∈ actions, WriteSucceeds a ∧ ReadsBack a) := by
  have inOrder := inOrder_iff reached
  have start : InStep (jsNewMessagePipe M) := by simp [InStep, jsNewMessagePipe]
  have breaks := Trace.run_breaks (C := fun _ => WriteSucceeds) (fun _ _ _ _ => inStep_step)
    (fun _ _ _ _ => stalls) (fun _ _ _ _ => stalled_step) start reached
  rw [Trace.along_iff_forall reached] at breaks
  constructor
  · intro succeeds
    exact conforms_of_inStep room (breaks.1 fun a there => (succeeds a there).1)
      (inOrder.mpr fun a there => (succeeds a there).2)
  · intro free conforms
    have writes : ∀ a ∈ actions, WriteSucceeds a := Classical.byContradiction fun fails =>
      not_conforms_of_stalled (breaks.2 fails) free conforms
    exact fun a there => ⟨writes a there, inOrder.mp conforms.inOrder a there⟩

theorem posted_and_handled :
    ∃ s log, Trace.run (step 512) (jsNewMessagePipe String) []
      [.post "a", .write .done, .add, .setOnMessage true, .poll, .post "b", .add, .take, .call true] = some (s, log) ∧
      Conforms 512 s log ∧ handled log = ["a"] ∧ s.msgQueue = ["b"] := by
  let actions : List (Action String) :=
    [.post "a", .write .done, .add, .setOnMessage true, .poll, .post "b", .add, .take, .call true]
  have succeeds : ∀ a ∈ actions, WriteSucceeds a ∧ ReadsBack a := by simp [actions, WriteSucceeds, ReadsBack]
  exact ⟨_, _, rfl, (postMessage_conforms_iff (by decide) rfl).1 succeeds, rfl, rfl⟩

/-- After a `write` that was interrupted the message stays in the queue whatever happens later. -/
theorem interrupted_write_stalls :
    ∃ s log, Trace.run (step 512) (jsNewMessagePipe String) [] [.post "a", .write (.fails .eintr), .add] =
      some (s, log) ∧ s.mutex = none ∧ s.msgQueue = ["a"] ∧ s.pipe = 0 ∧ ¬Conforms 512 s log ∧
      ∀ more s' log', Trace.run (step 512) s log more = some (s', log') → handled log' = [] := by
  refine ⟨_, _, rfl, rfl, rfl, rfl, ?_, fun more s' log' reached => ?_⟩
  · exact not_conforms_of_stalled (by simp [Stalled, jsNewMessagePipe]) rfl
  · have lasts : Stalled s' ∧ s'.receiver = .idle ∧ handled log' = [] := by
      refine Trace.run_invariant (P := fun s log => Stalled s ∧ s.receiver = .idle ∧ handled log = []) ?_ ?_ reached
      · rintro t log a t' events ⟨stalled, idle, none'⟩ next
        obtain ⟨idle', same⟩ := stalled_handled stalled idle next
        exact ⟨stalled_step stalled next, idle', same.trans none'⟩
      · exact ⟨by simp [Stalled, jsNewMessagePipe], rfl, rfl⟩
    exact lasts.2.2

/-- However the threads run, even if a `write` fails, messages are handled once and in the order they were posted, if
every one is read back. -/
theorem handled_in_order {actions : List (Action M)} (readsBack : ∀ a ∈ actions, ReadsBack a)
    (reached : Trace.run (step capacity) (jsNewMessagePipe M) [] actions = some (s, log)) : InOrder s log :=
  (inOrder_iff reached).mpr readsBack

theorem handled_in_order_interrupted :
    ∃ s log, Trace.run (step 512) (jsNewMessagePipe String) []
      [.post "a", .write (.fails .eintr), .add, .post "b", .add] = some (s, log) ∧
      InOrder s log ∧ s.msgQueue = ["a", "b"] := by
  have inOrder := @handled_in_order String _ _ 512 [.post "a", .write (.fails .eintr), .add, .post "b", .add]
    (by simp [ReadsBack]) rfl
  exact ⟨_, _, rfl, inOrder, rfl⟩

end Worker
