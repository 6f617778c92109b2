import Partikle.Lib.HashChain
import Partikle.Map.Core

/-!
All maps of a runtime. The records of a `WeakMap` or a `WeakSet` do not keep their keys alive: each is on a list of
its key object, and goes with everything on that list when the object dies.
-/

namespace JsMap

open ListHead Function

structure MapObject where
  isWeak : Bool
  state : MapState

/-- A record, with the map that its field `map` names. -/
structure WeakRef where
  map : Nat
  record : RecId
deriving DecidableEq

structure Runtime where
  maps : Nat → Option MapObject
  created : Nat
  firstWeakRef : Nat → Option WeakRef
  nextWeakRef : WeakRef → Option WeakRef

def newRuntime : Runtime := ⟨fun _ => none, 0, fun _ => none, fun _ => none⟩

def Runtime.change (w : Runtime) (m : Nat) (f : MapState → MapState) : Runtime :=
  { w with maps := update w.maps m ((w.maps m).map fun o => { o with state := f o.state }) }

def Runtime.record (w : Runtime) (ref : WeakRef) : Option (MapObject × Record) := do
  let o ← w.maps ref.map
  let mr ← o.state.record ref.record
  some (o, mr)

def Runtime.addWeakRef (w : Runtime) (p : Nat) (mr : WeakRef) : Runtime :=
  { w with
    nextWeakRef := update w.nextWeakRef mr (w.firstWeakRef p)
    firstWeakRef := update w.firstWeakRef p (some mr) }

inductive Slot
  | first (object : Nat)
  | next (mr : WeakRef)

def Runtime.read (w : Runtime) : Slot → Option WeakRef
  | .first p => w.firstWeakRef p
  | .next mr => w.nextWeakRef mr

def Runtime.write (w : Runtime) (value : Option WeakRef) : Slot → Runtime
  | .first p => { w with firstWeakRef := update w.firstWeakRef p value }
  | .next mr => { w with nextWeakRef := update w.nextWeakRef mr value }

def deleteWeakRefLoop (mr : WeakRef) : Nat → Slot → Runtime → Option Runtime
  | 0, _, _ => none
  | fuel + 1, pmr, w => do
      let mr1 ← w.read pmr
      let _ ← w.record mr1
      if mr1 = mr then some (w.write (w.nextWeakRef mr1) pmr)
      else deleteWeakRefLoop mr fuel (.next mr1) w

def deleteWeakRef (fuel : Nat) (mr : WeakRef) (w : Runtime) : Option Runtime := do
  let (_, record) ← w.record mr
  match record.key with
  | .object p => deleteWeakRefLoop mr fuel (.first p) w
  | _ => none

def MapState.unlink (s : MapState) (r : RecId) : MapState :=
  { s with hashLinks := listDel (.hashLink r) s.hashLinks, links := listDel (.link r) s.links }

/-- `js_free_rt(rt, mr);` on a record that is on no list, or whose list is given up. -/
def MapState.discard (s : MapState) (r : RecId) : MapState :=
  { s with record := update s.record r none }

def unlinkWeakRefs : Nat → Option WeakRef → Runtime → Option (Runtime × List WeakRef)
  | 0, _, _ => none
  | _ + 1, none, w => some (w, [])
  | fuel + 1, some mr, w => do
      let (o, record) ← w.record mr
      if o.isWeak && !record.empty && o.state.hashTable then
        let (w, rest) ← unlinkWeakRefs fuel (w.nextWeakRef mr) (w.change mr.map (·.unlink mr.record))
        some (w, mr :: rest)
      else none

def freeWeakRefs : Nat → Option WeakRef → Runtime → Option Runtime
  | 0, _, _ => none
  | _ + 1, none, w => some w
  | fuel + 1, some mr, w => do
      let _ ← w.record mr
      let mrNext := w.nextWeakRef mr
      freeWeakRefs fuel mrNext (w.change mr.map (·.discard mr.record))

def resetWeakRef (fuel : Nat) (p : Nat) (w : Runtime) : Option (Runtime × List WeakRef) := do
  let (w, lost) ← unlinkWeakRefs fuel (w.firstWeakRef p) w
  let w ← freeWeakRefs fuel (w.firstWeakRef p) w
  some ({ w with firstWeakRef := update w.firstWeakRef p none }, lost)

def finalizeKey (fuel : Nat) (mr : WeakRef) (w : Runtime) : Option Runtime := do
  let (o, record) ← w.record mr
  if o.isWeak && !record.empty then deleteWeakRef fuel mr w else some w

def finalizeRecords (m : Nat) : Nat → Option RecordNode → Runtime → Option Runtime
  | 0, _, _ => none
  | fuel + 1, el, w =>
    if el = some .records then some w else
      match el with
      | some (.link r) => do
          let (o, _) ← w.record ⟨m, r⟩
          let el1 := o.state.links.next (.link r)
          let w ← finalizeKey fuel ⟨m, r⟩ w
          finalizeRecords m fuel el1 (w.change m (·.discard r))
      | _ => none

def jsMapFinalizer (fuel : Nat) (m : Nat) (w : Runtime) : Option Runtime := do
  let o ← w.maps m
  let w ← finalizeRecords m fuel (o.state.links.next .records) w
  some { w with maps := update w.maps m none }

/-- What is freed: an iterator, an object that may be a weakly held key, or a map. -/
inductive Death
  | iterator (map i : Nat)
  | object (p : Nat)
  | map (m : Nat)
deriving DecidableEq

/-- A map whose finalizer ran first is not touched by the finalizers of its iterators. -/
def die (fuel : Nat) (death : Death) (w : Runtime) : Option (Runtime × List WeakRef) :=
  match death with
  | .iterator m i =>
    match w.maps m with
    | none => some (w, [])
    | some o => do
        let s ← jsMapIteratorFinalizer i o.state
        some (w.change m fun _ => s, [])
  | .object p => resetWeakRef fuel p w
  | .map m => do
      let w ← jsMapFinalizer fuel m w
      some (w, [])

/-- `JS_FreeValueRT` on a value, with everything that dies with it. What is released by a finalizer is queued, so
that the deaths come one after another. -/
def dieAll (fuel : Nat) : List Death → Runtime → Option (Runtime × List WeakRef)
  | [], w => some (w, [])
  | death :: rest, w => do
      let (w, lost) ← die fuel death w
      let (w, more) ← dieAll fuel rest w
      some (w, lost ++ more)

def mapDeleteWeak (fuel : Nat) (mr : WeakRef) (dying : List Death) (w : Runtime) :
    Option (Runtime × List WeakRef) := do
  let (o, record) ← w.record mr
  if record.empty then some (w, []) else
    if o.state.hashTable then do
      let w ← deleteWeakRef fuel mr (w.change mr.map (·.delFromBucket mr.record))
      let (w, lost) ← dieAll fuel dying w
      let (_, record) ← w.record mr
      some (w.change mr.map (·.dropRecord mr.record record), lost)
    else none

def weakMapSet (fuel : Nat) (m : Nat) (o : MapObject) (key value : JsValue) (alloc : Option RecId)
    (slack : Option Nat) (dying : List Death) (w : Runtime) : Option (Runtime × Output × List WeakRef) :=
  match mapNormalizeKey key with
  | .object p => do
      let value := if o.state.isSet then .undefined else value
      match ← mapFindRecord fuel o.state (.object p) with
      | some r => do
          let (w, lost) ← dieAll fuel dying w
          let (_, record) ← w.record ⟨m, r⟩
          some (w.change m (·.setRecord r { record with value := value }), .this, lost)
      | none => do
          match ← mapAddRecord fuel (.object p) alloc slack o.state with
          | (none, _) => some (w, .exception, [])
          | (some r, s) => do
              let record ← s.record r
              some ((w.addWeakRef p ⟨m, r⟩).change m fun _ => s.setRecord r { record with value := value },
                .this, [])
  | _ => some (w, .exception, [])

def weakMapDelete (fuel : Nat) (m : Nat) (o : MapObject) (key : JsValue) (dying : List Death) (w : Runtime) :
    Option (Runtime × Output × List WeakRef) := do
  match ← mapFindRecord fuel o.state (mapNormalizeKey key) with
  | none => some (w, .bool false, [])
  | some r => do
      let (w, lost) ← mapDeleteWeak fuel ⟨m, r⟩ dying w
      some (w, .bool true, lost)

/-- `call` is a call on a `Map`, a `Set` or an iterator. The values that it releases may take along iterators of
the same map, which `op` names, and whatever else dies after it. -/
inductive MapAction
  | create (isSet isWeak : Bool)
  | call (m : Nat) (op : Op)
  | weakSet (m : Nat) (key value : JsValue) (alloc : Option RecId) (slack : Option Nat) (dying : List Death)
  | weakDelete (m : Nat) (key : JsValue) (dying : List Death)
  | die (death : Death)

inductive Note
  | answer (out : Output)
  | lost (mr : WeakRef)
deriving DecidableEq

def act (fuel : Nat) (w : Runtime) : MapAction → Option (Runtime × List Note)
  | .create isSet isWeak =>
    some ({ w with
      maps := update w.maps w.created (some ⟨isWeak, newMap isSet⟩)
      created := w.created + 1 }, [.answer .this])
  | .call m op => do
      let o ← w.maps m
      if o.isWeak then some (w, [.answer .exception]) else do
        let (s, out) ← step fuel op o.state
        some (w.change m fun _ => s, [.answer out])
  | .weakSet m key value alloc slack dying => do
      let o ← w.maps m
      if o.isWeak then do
        let (w, out, lost) ← weakMapSet fuel m o key value alloc slack dying w
        some (w, .answer out :: lost.map .lost)
      else some (w, [.answer .exception])
  | .weakDelete m key dying => do
      let o ← w.maps m
      if o.isWeak then do
        let (w, out, lost) ← weakMapDelete fuel m o key dying w
        some (w, .answer out :: lost.map .lost)
      else some (w, [.answer .exception])
  | .die death => do
      let (w, lost) ← die fuel death w
      some (w, lost.map .lost)

end JsMap
