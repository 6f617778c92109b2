import Partikle.Lib.Trace

/-!
The message pipe between two threads: `js_worker_postMessage` in one of them, and in the other `js_os_poll`, which
waits in `select` and calls `handle_posted_message`. An action is a section that ends where the thread
lets go of the mutex or enters a system call, so that the other thread may come between.
-/

namespace Worker

inductive Errno where
  | eagain
  | eintr
  | eio
deriving DecidableEq

inductive SysResult where
  | done
  | fails (errno : Errno)
deriving DecidableEq

inductive Thread where
  | poster
  | receiver
deriving DecidableEq

/-- Where `js_worker_postMessage` is: before the lock, in `write`, or behind it. -/
inductive Poster (M : Type) where
  | idle
  | writing (msg : M)
  | adding (msg : M)

/-- Where the thread with the handler is: outside of the functions, before the lock of
`handle_posted_message` with the file descriptor set, in `read`, or before the call of the handler. -/
inductive Receiver (M : Type) where
  | idle
  | polled
  | reading (msg : M)
  | calling (msg : M)

/-- A `JSWorkerMessagePipe`, with the number of bytes that are in the pipe of the system, and
`on_message_func`, which may be null. -/
structure State (M : Type) where
  msgQueue : List M
  pipe : Nat
  mutex : Option Thread
  poster : Poster M
  receiver : Receiver M
  onMessage : Bool

inductive Event (M : Type) where
  | posted (msg : M)
  | handled (msg : M)
  | dropped (msg : M)

inductive Action (M : Type) where
  | post (msg : M)
  | write (ret : SysResult)
  | add
  | setOnMessage (func : Bool)
  | poll
  | take
  | read (ret : SysResult)
  | call (made : Bool)

def Action.byReceiver {M : Type} : Action M → Bool
  | .post _ | .write _ | .add => false
  | .setOnMessage _ | .poll | .take | .read _ | .call _ => true

def writeStops (errno : Errno) : Bool := errno ≠ .eagain || errno ≠ .eintr

def readStops (errno : Errno) : Bool := errno ≠ .eagain && errno ≠ .eintr

section

variable {M : Type} (capacity : Nat) (s : State M)

def lockQueue (msg : M) : Option (State M × List (Event M)) :=
  match s.mutex, s.poster with
  | none, .idle =>
    if s.msgQueue = [] then some ({ s with mutex := some .poster, poster := .writing msg }, [])
    else some ({ s with mutex := some .poster, poster := .adding msg }, [])
  | _, _ => none

/-- One round of the loop round `write`, which waits while the pipe is full. Both ends of the pipe are open, so that
no other error is possible than the two that are transient. -/
def writePipe (ret : SysResult) : Option (State M × List (Event M)) :=
  match s.poster, ret with
  | .writing msg, .done =>
    if s.pipe < capacity then some ({ s with pipe := s.pipe + 1, poster := .adding msg }, []) else none
  | .writing msg, .fails errno =>
    if errno = .eio then none
    else if writeStops errno then some ({ s with poster := .adding msg }, [])
    else some (s, [])
  | _, _ => none

def addMessage : Option (State M × List (Event M)) :=
  match s.poster with
  | .adding msg =>
    some ({ s with msgQueue := s.msgQueue ++ [msg], mutex := none, poster := .idle }, [.posted msg])
  | _ => none

def jsWorkerSetOnmessage (func : Bool) : Option (State M × List (Event M)) :=
  match s.receiver with
  | .idle => some ({ s with onMessage := func }, [])
  | _ => none

def jsOsPoll : Option (State M × List (Event M)) :=
  match s.receiver with
  | .idle => if s.onMessage ∧ 0 < s.pipe then some ({ s with receiver := .polled }, []) else none
  | _ => none

/-- `handle_posted_message` up to the first system call, or to its end where there is no message. -/
def handlePostedMessage : Option (State M × List (Event M)) :=
  match s.mutex, s.receiver with
  | none, .polled =>
    match s.msgQueue with
    | [] => some ({ s with receiver := .idle }, [])
    | [msg] => some ({ s with msgQueue := [], mutex := some .receiver, receiver := .reading msg }, [])
    | msg :: rest => some ({ s with msgQueue := rest, receiver := .calling msg }, [])
  | _, _ => none

/-- One round of the loop round `read`, which waits while the pipe is empty and takes at most 16 bytes. -/
def readPipe (ret : SysResult) : Option (State M × List (Event M)) :=
  match s.receiver, ret with
  | .reading msg, .done =>
    if 0 < s.pipe then
      some ({ s with pipe := s.pipe - min 16 s.pipe, mutex := none, receiver := .calling msg }, [])
    else none
  | .reading msg, .fails errno =>
    if errno = .eio then none
    else if readStops errno then some ({ s with mutex := none, receiver := .calling msg }, [])
    else some (s, [])
  | _, _ => none

/-- The rest of `handle_posted_message`. Where `JS_ReadObject` or `JS_NewObject` throws, no event is made of the
message, and the handler is not called. -/
def callHandler (made : Bool) : Option (State M × List (Event M)) :=
  match s.receiver with
  | .calling msg => some ({ s with receiver := .idle }, [if made then .handled msg else .dropped msg])
  | _ => none

def step : Action M → Option (State M × List (Event M))
  | .post msg => lockQueue s msg
  | .write ret => writePipe capacity s ret
  | .add => addMessage s
  | .setOnMessage func => jsWorkerSetOnmessage s func
  | .poll => jsOsPoll s
  | .take => handlePostedMessage s
  | .read ret => readPipe s ret
  | .call made => callHandler s made

end

def jsNewMessagePipe (M : Type) : State M := ⟨[], 0, none, .idle, .idle, false⟩

def posted {M : Type} (log : List (Event M)) : List M :=
  log.filterMap fun
    | .posted msg => some msg
    | .handled _ | .dropped _ => none

def handled {M : Type} (log : List (Event M)) : List M :=
  log.filterMap fun
    | .handled msg => some msg
    | .posted _ | .dropped _ => none

end Worker
