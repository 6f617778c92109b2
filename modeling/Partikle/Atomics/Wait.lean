import Partikle.Lib.Trace
import Mathlib.Data.List.Nodup
import Mathlib.Data.Nat.Bitwise
import Mathlib.Logic.Function.Basic

/-!
`Atomics.wait` and `Atomics.notify`. What a thread does while it has `js_atomics_mutex` is one action: the comparison
that ends in `pthread_cond_wait`, what follows that call, and `js_atomics_notify`. The wait on a condition variable
may end at any time, and with a timeout also as timed out, whether there was a signal or not.
-/

namespace Atomics

abbrev Ptr := Nat

abbrev Call := Nat

abbrev Bytes := Ptr → BitVec 8

inductive Answer where
  | notEqual
  | ok
  | timedOut
deriving DecidableEq

inductive CondResult where
  | success
  | timedOut
deriving DecidableEq

/-- A `JSAtomicsWaiter` in the frame of a call. `timed` says that the timeout is not `INT64_MAX`. -/
structure Waiter where
  ptr : Ptr
  linked : Bool
  timed : Bool

structure State where
  memory : Bytes
  waiterList : List Call
  waiter : Call → Option Waiter
  calls : Nat

inductive Event where
  | compared (call : Call) (found expected : Int)
  | blocked (call : Call) (ptr : Ptr)
  | removed (call : Call) (ptr : Ptr)
  | signalled (call : Call)
  | notified (count : Nat)
  | returned (call : Call) (answer : Answer)
deriving DecidableEq

inductive Action where
  | write (memory : Bytes)
  | wait (ptr : Ptr) (isInt64 : Bool) (v : Int) (timed : Bool)
  | wake (call : Call) (ret : CondResult)
  | notify (ptr : Ptr) (shared : Bool) (count : Nat)

def loadNat (memory : Bytes) : Nat → Ptr → Nat
  | 0, _ => 0
  | k + 1, ptr => (memory ptr).toNat + 256 * loadNat memory k (ptr + 1)

def load (memory : Bytes) (isInt64 : Bool) (ptr : Ptr) : Int :=
  if isInt64 then (BitVec.ofNat 64 (loadNat memory 8 ptr)).toInt else (BitVec.ofNat 32 (loadNat memory 4 ptr)).toInt

def State.isAt (s : State) (ptr : Ptr) (call : Call) : Bool := ((s.waiter call).map Waiter.ptr) == some ptr

def notifyLoop (onPtr : Call → Bool) (count : Nat) : Nat → List Call → List Call × List Call
  | _, [] => ([], [])
  | n, call :: rest =>
    if onPtr call then
      if count ≤ n + 1 then (rest, [call])
      else
        let (kept, moved) := notifyLoop onPtr count (n + 1) rest
        (kept, call :: moved)
    else
      let (kept, moved) := notifyLoop onPtr count n rest
      (call :: kept, moved)

def State.unlink (s : State) (moved : List Call) : Call → Option Waiter := fun call =>
  if call ∈ moved then (s.waiter call).map fun w => { w with linked := false } else s.waiter call

def jsAtomicsWait (s : State) (ptr : Ptr) (isInt64 : Bool) (v : Int) (timed : Bool) : State × List Event :=
  let call := s.calls
  let found := load s.memory isInt64 ptr
  if found ≠ v then
    ({ s with calls := call + 1 }, [.compared call found v, .returned call .notEqual])
  else
    ({ s with
        calls := call + 1
        waiterList := s.waiterList ++ [call]
        waiter := Function.update s.waiter call (some ⟨ptr, true, timed⟩) },
     [.compared call found v, .blocked call ptr])

def endWait (s : State) (call : Call) (w : Waiter) (ret : CondResult) : State × List Event :=
  ({ s with
      waiterList := if w.linked then s.waiterList.erase call else s.waiterList
      waiter := Function.update s.waiter call none },
   [.returned call (if ret = .timedOut then .timedOut else .ok)])

def jsAtomicsNotify (s : State) (ptr : Ptr) (shared : Bool) (count : Nat) : State × List Event :=
  if shared ∧ 0 < count then
    let (kept, moved) := notifyLoop (s.isAt ptr) count 0 s.waiterList
    ({ s with waiterList := kept, waiter := s.unlink moved },
     moved.map (.removed · ptr) ++ moved.map .signalled ++ [.notified moved.length])
  else (s, [.notified 0])

def step (s : State) : Action → Option (State × List Event)
  | .write memory => some ({ s with memory }, [])
  | .wait ptr isInt64 v timed => some (jsAtomicsWait s ptr isInt64 v timed)
  | .wake call ret =>
    match s.waiter call with
    | none => none
    | some w => if ret = .timedOut ∧ w.timed = false then none else some (endWait s call w ret)
  | .notify ptr shared count => some (jsAtomicsNotify s ptr shared count)

def start (memory : Bytes) : State := ⟨memory, [], fun _ => none, 0⟩

variable (log : List Event)

def removedAt (ptr : Ptr) : List Call :=
  log.filterMap fun
    | .removed call ptr' => if ptr' = ptr then some call else none
    | _ => none

def removals : List Call :=
  log.filterMap fun
    | .removed call _ => some call
    | _ => none

def signals : List Call :=
  log.filterMap fun
    | .signalled call => some call
    | _ => none

def counts : List Nat :=
  log.filterMap fun
    | .notified count => some count
    | _ => none

def oks : List Call :=
  log.filterMap fun
    | .returned call .ok => some call
    | _ => none

end Atomics
