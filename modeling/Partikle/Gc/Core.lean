import Partikle.Lib.ListHead

/-!
The cycle collector's first two passes, `gc_decref` and `gc_scan`, over the
intrusive lists `gc_obj_list` and `tmp_obj_list`. A failed assertion, a `NULL`
link and exhausted loop fuel all make a pass return `none`.
-/

namespace Gc

open ListHead

abbrev Ptr := Nat

inductive MarkedValue
  | object (target : Ptr)
  | functionBytecode (target : Ptr)
  | other
deriving DecidableEq, Repr

def MarkedValue.targets : MarkedValue → List Ptr
  | .object target => [target]
  | .functionBytecode target => [target]
  | .other => []

inductive PropSlot
  | deleted
  | normal (value : MarkedValue)
  | getset (getter setter : Option Ptr)
  | varRef (target : Ptr)
  | autoInit (realm : Ptr)
deriving DecidableEq, Repr

def PropSlot.targets : PropSlot → List Ptr
  | .deleted => []
  | .normal value => value.targets
  | .getset getter setter => getter.toList ++ setter.toList
  | .varRef target => [target]
  | .autoInit realm => [realm]

/-- The fields of a GC object that `mark_children` reads, by `gc_obj_type`. The class
hook `gc_mark` and `JS_MarkContext` are given by the objects they report. -/
inductive GcObject
  | jsObject (shape : Ptr) (props : List PropSlot) (gcMark : List Ptr)
  | functionBytecode (cpool : List MarkedValue) (realm : Option Ptr)
  | varRef (isDetached : Bool) (value : MarkedValue) (asyncFunc : Option Ptr)
  | asyncFunction (isCompleted : Bool) (curFunc thisVal : MarkedValue)
      (frame : Option (List MarkedValue)) (resolve reject : MarkedValue)
  | shape (proto : Option Ptr)
  | jsContext (marked : List Ptr)
deriving Repr

def markChildren : GcObject → List Ptr
  | .jsObject shape props gcMark => shape :: props.flatMap PropSlot.targets ++ gcMark
  | .functionBytecode cpool realm => cpool.flatMap MarkedValue.targets ++ realm.toList
  | .varRef isDetached value asyncFunc => if isDetached then value.targets else asyncFunc.toList
  | .asyncFunction isCompleted curFunc thisVal frame resolve reject =>
    (if isCompleted then [] else
      curFunc.targets ++ thisVal.targets ++ (frame.getD []).flatMap MarkedValue.targets) ++
    resolve.targets ++ reject.targets
  | .shape proto => proto.toList
  | .jsContext marked => marked

inductive Node
  | gcObjList
  | tmpObjList
  | link (owner : Ptr)
deriving DecidableEq, Repr

structure Runtime where
  heap : Ptr → GcObject
  refCount : Ptr → Nat
  mark : Ptr → Nat
  links : Links Node

section

variable (rt : Runtime) (p : Ptr)

def Runtime.children : List Ptr := markChildren (rt.heap p)

def Runtime.setRefCount (count : Nat) : Runtime :=
  { rt with refCount := Function.update rt.refCount p count }

def Runtime.setMark (mark : Nat) : Runtime :=
  { rt with mark := Function.update rt.mark p mark }

def Runtime.moveTo (head : Node) : Runtime :=
  { rt with links := listAddTail (.link p) head (listDel (.link p) rt.links) }

end

def forChildren (markFunc : Ptr → Runtime → Option Runtime) (p : Ptr) (rt : Runtime) : Option Runtime :=
  (rt.children p).foldlM (fun state child => markFunc child state) rt

def gcDecrefChild (p : Ptr) (rt : Runtime) : Option Runtime :=
  if 0 < rt.refCount p then
    let rt := rt.setRefCount p (rt.refCount p - 1)
    if rt.refCount p = 0 ∧ rt.mark p = 1 then some (rt.moveTo p .tmpObjList) else some rt
  else none

def gcDecrefObject (p : Ptr) (rt : Runtime) : Option Runtime :=
  if rt.mark p = 0 then do
    let rt ← forChildren gcDecrefChild p rt
    let rt := rt.setMark p 1
    if rt.refCount p = 0 then some (rt.moveTo p .tmpObjList) else some rt
  else none

/-- `list_for_each_safe`: the successor is read before the body runs. -/
def forEachSafe (head : Node) (body : Ptr → Runtime → Option Runtime) :
    Nat → Option Node → Runtime → Option Runtime
  | 0, _, _ => none
  | fuel + 1, cursor, rt =>
    if cursor = some head then some rt else
      match cursor with
      | some (.link p) => do
          let el1 := rt.links.next (.link p)
          let rt ← body p rt
          forEachSafe head body fuel el1 rt
      | _ => none

/-- `list_for_each`: the successor is read after the body has run. -/
def forEach (head : Node) (body : Ptr → Runtime → Option Runtime) :
    Nat → Option Node → Runtime → Option Runtime
  | 0, _, _ => none
  | fuel + 1, cursor, rt =>
    if cursor = some head then some rt else
      match cursor with
      | some (.link p) => do
          let rt ← body p rt
          forEach head body fuel (rt.links.next (.link p)) rt
      | _ => none

def gcDecref (fuel : Nat) (rt : Runtime) : Option Runtime :=
  let rt := { rt with links := initListHead .tmpObjList rt.links }
  forEachSafe .gcObjList gcDecrefObject fuel (rt.links.next .gcObjList) rt

def gcScanIncrefChild (p : Ptr) (rt : Runtime) : Option Runtime :=
  let rt := rt.setRefCount p (rt.refCount p + 1)
  if rt.refCount p = 1 then some ((rt.moveTo p .gcObjList).setMark p 0) else some rt

def gcScanIncrefChild2 (p : Ptr) (rt : Runtime) : Option Runtime :=
  some (rt.setRefCount p (rt.refCount p + 1))

def gcScanObject (p : Ptr) (rt : Runtime) : Option Runtime :=
  if 0 < rt.refCount p then forChildren gcScanIncrefChild p (rt.setMark p 0) else none

def gcScan (fuel : Nat) (rt : Runtime) : Option Runtime := do
  let rt ← forEach .gcObjList gcScanObject fuel (rt.links.next .gcObjList) rt
  forEach .tmpObjList (forChildren gcScanIncrefChild2) fuel (rt.links.next .tmpObjList) rt

end Gc
