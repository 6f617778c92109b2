import Partikle.Lib.Trace

/-!
Async generators. The body is user code: it runs from the action that resumes it to the one with which it awaits,
yields or ends, and may make requests on the way. A failed assertion and an empty queue that is read give `none`.
The result objects that requests are resolved with have no `then`.
-/

namespace AsyncGenerator

inductive GeneratorState where
  | suspendedStart
  | suspendedYield
  | suspendedYieldStar
  | executing
  | awaitingReturn
  | completed
deriving DecidableEq

inductive CompletionType where
  | next
  | return
  | throw
deriving DecidableEq

/-- `promise` is the number of the request, whose promise is the one that its resolving functions settle. -/
structure Request (V : Type) where
  completionType : CompletionType
  result : V
  promise : Nat
deriving DecidableEq

inductive Input (V : Type) where
  | start
  | sent (value : V) (completionType : CompletionType)
  | awaited (value : V)
  | thrown (error : V)
deriving DecidableEq

inductive Outcome (V : Type) where
  | result (value : V) (done : Bool)
  | exception (error : V)
deriving DecidableEq

inductive Event (V : Type) where
  | requested (promise : Nat)
  | settled (promise : Nat) (outcome : Outcome V)
  | resumed (input : Input V)
deriving DecidableEq

/-- `funcState` is null or holds what the body is to be continued with (`throw_flag` and the top of its stack),
`running` says that it is on the C stack, and the two last fields which promise the generator has registered its own
functions with. -/
structure Generator (V : Type) where
  state : GeneratorState
  funcState : Option (Input V)
  queue : List (Request V)
  made : Nat
  running : Bool
  awaits : Bool
  awaitsReturn : Bool
deriving DecidableEq

variable {V : Type}

abbrev Result (V : Type) := Option (Generator V × List (Event V))

def resolveOrReject (outcome : Outcome V) (g : Generator V) : Result V :=
  match g.queue with
  | [] => none
  | next :: rest => some ({ g with queue := rest }, [.settled next.promise outcome])

def complete (g : Generator V) : Generator V :=
  if g.state = .completed then g else { g with state := .completed, funcState := none }

def resumeExec (g : Generator V) : Result V :=
  match g.funcState with
  | none => none
  | some input => some ({ g with running := true }, [.resumed input])

def exec (input : Input V) (g : Generator V) : Result V :=
  match g.funcState with
  | none => none
  | some _ => resumeExec { g with funcState := some input, state := .executing }

def resumeCompleted (undefined : V) (next : Request V) (g : Generator V) : Result V :=
  match next.completionType with
  | .next => resolveOrReject (.result undefined true) g
  | .return => some ({ g with state := .awaitingReturn, awaitsReturn := true }, [])
  | .throw => resolveOrReject (.exception next.result) g

/-- The loop of `js_async_generator_resume_next` up to the point where it ends or the body is entered. A generator that
is completed on the way is looked at once more. -/
def resumeNext (undefined : V) (g : Generator V) : Result V :=
  match g.queue with
  | [] => some (g, [])
  | next :: _ =>
    match g.state with
    | .executing => resumeExec g
    | .awaitingReturn => some (g, [])
    | .suspendedStart =>
      match next.completionType with
      | .next => exec .start g
      | _ => resumeCompleted undefined next (complete g)
    | .completed => resumeCompleted undefined next g
    | .suspendedYield =>
      match next.completionType with
      | .throw => exec (.thrown next.result) g
      | completionType => exec (.sent next.result completionType) g
    | .suspendedYieldStar => exec (.sent next.result next.completionType) g

def andThen (first : Result V) (second : Generator V → Result V) : Result V :=
  match first with
  | none => none
  | some (g, events) => (second g).map fun r => (r.1, events ++ r.2)

inductive Action (V : Type) where
  | request (completionType : CompletionType) (value : V)
  | bodyReturns (value : V)
  | bodyThrows (error : V)
  | bodyYields (star : Bool) (value : V)
  | bodyAwaits
  | bodyFailsToAwait (error : V)
  | awaitSettles (isReject : Bool) (value : V)
  | returnSettles (isReject : Bool) (value : V)

def asyncGeneratorNext (undefined : V) (completionType : CompletionType) (value : V) (g : Generator V) :
    Result V :=
  let g1 := { g with queue := g.queue ++ [⟨completionType, value, g.made⟩], made := g.made + 1 }
  let r := if g.state = .executing then some (g1, []) else resumeNext undefined g1
  r.map fun r => (r.1, .requested g.made :: r.2)

def bodyEnds (undefined : V) (outcome : Outcome V) (g : Generator V) : Result V :=
  andThen (resolveOrReject outcome (complete { g with running := false })) (resumeNext undefined)

def bodyYields (undefined : V) (star : Bool) (value : V) (g : Generator V) : Result V :=
  let g := { g with state := if star then .suspendedYieldStar else .suspendedYield, running := false }
  andThen (resolveOrReject (.result value false) g) (resumeNext undefined)

def resumeAwait (undefined : V) (isReject : Bool) (value : V) (g : Generator V) : Result V :=
  if g.state = .executing then
    match g.funcState with
    | none => none
    | some _ =>
      resumeNext undefined
        { g with awaits := false, funcState := some (if isReject then .thrown value else .awaited value) }
  else none

def resumeReturn (isReject : Bool) (value : V) (g : Generator V) : Result V :=
  if g.state = .awaitingReturn ∨ g.state = .completed then
    resolveOrReject (if isReject then .exception value else .result value true)
      { g with state := .completed, awaitsReturn := false }
  else none

def Possible (g : Generator V) : Action V → Prop
  | .request .. => True
  | .awaitSettles .. => g.awaits ∧ g.running = false
  | .returnSettles .. => g.awaitsReturn ∧ g.running = false
  | _ => g.running

instance (g : Generator V) : (a : Action V) → Decidable (Possible g a)
  | .request .. => inferInstanceAs (Decidable True)
  | .awaitSettles .. => inferInstanceAs (Decidable (_ ∧ _))
  | .returnSettles .. => inferInstanceAs (Decidable (_ ∧ _))
  | .bodyReturns _ | .bodyThrows _ | .bodyYields .. | .bodyAwaits | .bodyFailsToAwait _ =>
    inferInstanceAs (Decidable (g.running = true))

def act (undefined : V) (g : Generator V) : Action V → Result V
  | .request completionType value => asyncGeneratorNext undefined completionType value g
  | .bodyReturns value => bodyEnds undefined (.result value true) g
  | .bodyThrows error => bodyEnds undefined (.exception error) g
  | .bodyYields star value => bodyYields undefined star value g
  | .bodyAwaits => some ({ g with running := false, awaits := true }, [])
  | .bodyFailsToAwait error => exec (.thrown error) g
  | .awaitSettles isReject value => resumeAwait undefined isReject value g
  | .returnSettles isReject value => resumeReturn isReject value g

def step (undefined : V) (g : Generator V) (a : Action V) : Result V :=
  if Possible g a then act undefined g a else none

def start (V : Type) : Generator V := ⟨.suspendedStart, some .start, [], 0, false, false, false⟩

end AsyncGenerator
