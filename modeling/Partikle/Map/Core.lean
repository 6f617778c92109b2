import Partikle.Lib.ListHead
import Partikle.Lib.Update
import Partikle.Map.Key

/-!
`Map` and `Set` with their iterators: records on a list and in a hash table, kept
as zombies while an iterator or a running `forEach` stands on them. Touching a
freed record, a failed assertion and exhausted loop fuel give `none`.
-/

namespace JsMap

open ListHead

abbrev RecId := Nat

inductive RecordNode
  | records
  | link (owner : RecId)
deriving DecidableEq

inductive HashNode
  | bucket (index : Nat)
  | hashLink (owner : RecId)
deriving DecidableEq

/-- `ref_count` is an `int`. It counts the map and the iterations that stand on the record
(`Linked.counted`), so it is exact where those are fewer than 2 ^ 31 - 1. -/
structure Record where
  refCount : Int
  empty : Bool
  key : JsValue
  value : JsValue
deriving DecidableEq

inductive IteratorKind
  | key
  | value
  | keyAndValue
deriving DecidableEq

inductive CursorKind
  | iterator (kind : IteratorKind)
  | forEach
deriving DecidableEq

/-- An iterator object, or one running call of `forEach`. It is `attached` until it
has run to the end, and an iterator object is `freed` by its finalizer. -/
structure Cursor where
  kind : CursorKind
  attached : Bool
  freed : Bool
  curRecord : Option RecId
deriving DecidableEq

/-- A `JSMapState` with the blocks it points to and every cursor on it. -/
structure MapState where
  isSet : Bool
  links : Links RecordNode
  hashLinks : Links HashNode
  /-- Whether the block `s->hash_table` is still allocated. -/
  hashTable : Bool
  record : RecId → Option Record
  recordCount : Nat
  hashSize : Nat
  recordCountThreshold : Nat
  cursors : List Cursor

def newMap (isSet : Bool) : MapState where
  isSet := isSet
  links := initListHead .records ⟨fun _ => none, fun _ => none⟩
  hashLinks := initListHead (.bucket 0) ⟨fun _ => none, fun _ => none⟩
  hashTable := true
  record := fun _ => none
  recordCount := 0
  hashSize := 1
  recordCountThreshold := 4
  cursors := []

def MapState.setRecord (s : MapState) (r : RecId) (record : Record) : MapState :=
  { s with record := Function.update s.record r (some record) }

def MapState.setCursor (s : MapState) (i : Nat) (cursor : Cursor) : MapState :=
  { s with cursors := s.cursors.set i cursor }

def MapState.freeRecord (s : MapState) (r : RecId) : MapState :=
  { s with links := listDel (.link r) s.links, record := Function.update s.record r none }

def hashIndex (key : JsValue) (hashSize : Nat) : Nat :=
  (mapHashKey key &&& (BitVec.ofNat 32 hashSize - 1)).toNat

def MapState.addToBucket (s : MapState) (size : Nat) (r : RecId) (key : JsValue) : MapState :=
  { s with hashLinks := listAddTail (.hashLink r) (.bucket (hashIndex key size)) s.hashLinks }

def MapState.delFromBucket (s : MapState) (r : RecId) : MapState :=
  { s with hashLinks := listDel (.hashLink r) s.hashLinks }

def findInBucket (s : MapState) (key : JsValue) (head : HashNode) :
    Nat → Option HashNode → Option (Option RecId)
  | 0, _ => none
  | fuel + 1, el =>
    if el = some head then some none else
      match el with
      | some (.hashLink r) => do
          let mr ← s.record r
          if sameValueZero mr.key key then some (some r)
          else findInBucket s key head fuel (s.hashLinks.next (.hashLink r))
      | _ => none

def mapFindRecord (fuel : Nat) (s : MapState) (key : JsValue) : Option (Option RecId) :=
  if s.hashTable then
    let head := HashNode.bucket (hashIndex key s.hashSize)
    findInBucket s key head fuel (s.hashLinks.next head)
  else none

def initBuckets (size : Nat) (links : Links HashNode) : Links HashNode :=
  (List.range size).foldl (fun links i => initListHead (.bucket i) links) links

def rehash (size : Nat) : Nat → Option RecordNode → MapState → Option MapState
  | 0, _, _ => none
  | fuel + 1, el, s =>
    if el = some .records then some s else
      match el with
      | some (.link r) => do
          let mr ← s.record r
          let s := if mr.empty then s else s.addToBucket size r mr.key
          rehash size fuel (s.links.next (.link r)) s
      | _ => none

def newHashSize (s : MapState) : Nat := if s.hashSize = 1 then 4 else s.hashSize * 2 % 2 ^ 32

/-- `slack` is what `js_realloc2` reports, in table entries, or `none` if it has no
memory. Asked for no bytes at all, it frees the table and returns `NULL`. -/
def mapHashResize (fuel : Nat) (slack : Option Nat) (s : MapState) : Option MapState :=
  if newHashSize s = 0 then some { s with hashTable := false } else
    match slack with
    | none => some s
    | some slack => do
        let size := (newHashSize s + slack) % 2 ^ 32
        let s := { s with hashLinks := initBuckets size s.hashLinks }
        let s ← rehash size fuel (s.links.next .records) s
        some { s with hashSize := size, recordCountThreshold := size * 2 % 2 ^ 32 }

def MapState.insertRecord (s : MapState) (r : RecId) (key : JsValue) : MapState :=
  let s := s.setRecord r { refCount := 1, empty := false, key := key, value := .undefined }
  let s := s.addToBucket s.hashSize r key
  { s with
    links := listAddTail (.link r) .records s.links
    recordCount := (s.recordCount + 1) % 2 ^ 32 }

/-- `alloc` is the block that `js_malloc` returns. -/
def mapAddRecord (fuel : Nat) (key : JsValue) (alloc : Option RecId) (slack : Option Nat)
    (s : MapState) : Option (Option RecId × MapState) :=
  match alloc with
  | none => some (none, s)
  | some r => do
      let s := s.insertRecord r key
      let s ← if s.recordCount ≥ s.recordCountThreshold then mapHashResize fuel slack s else some s
      some (some r, s)

def mapDecrefRecord (r : RecId) (s : MapState) : Option MapState := do
  let mr ← s.record r
  if mr.refCount - 1 = 0 then
    if mr.empty then some (s.freeRecord r) else none
  else some (s.setRecord r { mr with refCount := mr.refCount - 1 })

/-- Give up the record a cursor stands on. Its `cur_record` is overwritten, or the
cursor freed, before anything reads the pointer again. -/
def leaveRecord (i : Nat) (c : Cursor) (s : MapState) : Option MapState :=
  let s := s.setCursor i { c with curRecord := none }
  match c.curRecord with
  | none => some s
  | some r => mapDecrefRecord r s

def jsMapIteratorFinalizer (i : Nat) (s : MapState) : Option MapState :=
  match s.cursors[i]? with
  | none => some s
  | some c =>
    if c.kind = .forEach ∨ c.freed then some s
    else leaveRecord i { c with freed := true } s

/-- `JS_FreeValueRT` on values whose last owner is the map: `dying` are the iterators
of this map that are freed with them. -/
def freeValues (dying : List Nat) (s : MapState) : Option MapState :=
  dying.foldlM (fun s i => jsMapIteratorFinalizer i s) s

def MapState.dropRecord (s : MapState) (r : RecId) (mr : Record) : MapState :=
  let s := if mr.refCount - 1 = 0 then s.freeRecord r else
    s.setRecord r { refCount := mr.refCount - 1, empty := true, key := .undefined,
                    value := .undefined }
  { s with recordCount := (s.recordCount + 2 ^ 32 - 1) % 2 ^ 32 }

def mapDeleteRecord (r : RecId) (dying : List Nat) (s : MapState) : Option MapState := do
  let mr ← s.record r
  if mr.empty then some s else
    if s.hashTable then do
      let s ← freeValues dying (s.delFromBucket r)
      let mr ← s.record r
      some (s.dropRecord r mr)
    else none

inductive Item
  | value (value : JsValue)
  | pair (first second : JsValue)
deriving DecidableEq

inductive Output
  | this
  | undefined
  | bool (value : Bool)
  | exception
  | item (item : Item)
  | done
deriving DecidableEq

def makeItem (kind : CursorKind) (isSet : Bool) (key value : JsValue) : Item :=
  match kind with
  | .iterator .key => .value key
  | .iterator .value => .value (if isSet then key else value)
  | .iterator .keyAndValue => .pair key (if isSet then key else value)
  | .forEach => .pair (if isSet then key else value) key

def jsMapSet (fuel : Nat) (key value : JsValue) (alloc : Option RecId) (slack : Option Nat)
    (dying : List Nat) (s : MapState) : Option (MapState × Output) := do
  let key := mapNormalizeKey key
  let value := if s.isSet then .undefined else value
  match ← mapFindRecord fuel s key with
  | some r => do
      let s ← freeValues dying s
      let mr ← s.record r
      some (s.setRecord r { mr with value := value }, .this)
  | none => do
      match ← mapAddRecord fuel key alloc slack s with
      | (none, s) => some (s, .exception)
      | (some r, s) => do
          let mr ← s.record r
          some (s.setRecord r { mr with value := value }, .this)

def jsMapDelete (fuel : Nat) (key : JsValue) (dying : List Nat) (s : MapState) :
    Option (MapState × Output) := do
  match ← mapFindRecord fuel s (mapNormalizeKey key) with
  | none => some (s, .bool false)
  | some r => do
      let s ← mapDeleteRecord r dying s
      some (s, .bool true)

/-- The loop of `js_map_clear`; `dying r` are the iterators freed with the key and
the value of the record `r`. -/
def clearLoop (dying : RecId → List Nat) : Nat → Option RecordNode → MapState → Option MapState
  | 0, _, _ => none
  | fuel + 1, el, s =>
    if el = some .records then some s else
      match el with
      | some (.link r) => do
          let _ ← s.record r
          let el1 := s.links.next (.link r)
          let s ← mapDeleteRecord r (dying r) s
          clearLoop dying fuel el1 s
      | _ => none

def jsMapClear (fuel : Nat) (dying : RecId → List Nat) (s : MapState) : Option (MapState × Output) := do
  let s ← clearLoop dying fuel (s.links.next .records) s
  some (s, .undefined)

def firstLive (s : MapState) : Nat → Option RecordNode → Option (Option RecId)
  | 0, _ => none
  | fuel + 1, el =>
    if el = some .records then some none else
      match el with
      | some (.link r) => do
          let mr ← s.record r
          if mr.empty then firstLive s fuel (s.links.next (.link r)) else some (some r)
      | _ => none

def advance (fuel : Nat) (i : Nat) (c : Cursor) (el : Option RecordNode) (s : MapState) :
    Option (MapState × Output) := do
  match ← firstLive s fuel el with
  | none => some (s.setCursor i { c with attached := false, curRecord := none }, .done)
  | some r => do
      let mr ← s.record r
      let s := s.setRecord r { mr with refCount := mr.refCount + 1 }
      some (s.setCursor i { c with curRecord := some r },
        .item (makeItem c.kind s.isSet mr.key mr.value))

def nextNode (c : Cursor) (s : MapState) : Option RecordNode :=
  match c.curRecord with
  | none => s.links.next .records
  | some r => s.links.next (.link r)

def jsMapIteratorNext (fuel : Nat) (i : Nat) (s : MapState) : Option (MapState × Output) := do
  let c ← s.cursors[i]?
  if c.kind = .forEach ∨ c.freed then none
  else if c.attached then do
    let el := nextNode c s
    let s ← leaveRecord i c s
    advance fuel i c el s
  else some (s, .done)

def addCursor (kind : CursorKind) (s : MapState) : MapState :=
  { s with cursors := s.cursors ++ [⟨kind, true, false, none⟩] }

def forEachStart (fuel : Nat) (s : MapState) : Option (MapState × Output) :=
  advance fuel s.cursors.length ⟨.forEach, true, false, none⟩ (s.links.next .records)
    (addCursor .forEach s)

/-- `js_map_forEach` from the return of a callback until its record is unlocked;
`dyingArgs` are the iterators freed with the callback's arguments. -/
def forEachLeave (i : Nat) (c : Cursor) (dyingArgs : List Nat) (s : MapState) :
    Option (Option RecordNode × MapState) := do
  let s ← freeValues dyingArgs s
  let el := nextNode c s
  let s ← leaveRecord i c s
  some (el, s)

/-- `js_map_forEach` from the return of a callback to the next one; `dying` are the
iterators freed with the value the callback returned. -/
def forEachResume (fuel : Nat) (i : Nat) (throws : Bool) (dyingArgs dying : List Nat)
    (s : MapState) : Option (MapState × Output) := do
  let c ← s.cursors[i]?
  if c.kind = .forEach ∧ c.curRecord.isSome then do
    let (el, s) ← forEachLeave i c dyingArgs s
    if throws then
      some (s.setCursor i { c with attached := false, curRecord := none }, .exception)
    else do
      let s ← freeValues dying s
      advance fuel i c el s
  else none

/-- One call on the map or on a cursor. The memory blocks handed out and the
iterators that die with a released value are part of the input. -/
inductive Op
  | set (key value : JsValue) (alloc : Option RecId) (slack : Option Nat) (dying : List Nat)
  | delete (key : JsValue) (dying : List Nat)
  | clear (dying : RecId → List Nat)
  | createIterator (kind : IteratorKind)
  | next (iterator : Nat)
  | forEach
  | callbackReturns (call : Nat) (throws : Bool) (dyingArgs dying : List Nat)
  | finalize (iterator : Nat)

def step (fuel : Nat) (op : Op) (s : MapState) : Option (MapState × Output) :=
  match op with
  | .set key value alloc slack dying => jsMapSet fuel key value alloc slack dying s
  | .delete key dying => jsMapDelete fuel key dying s
  | .clear dying => jsMapClear fuel dying s
  | .createIterator kind => some (addCursor (.iterator kind) s, .this)
  | .next i => jsMapIteratorNext fuel i s
  | .forEach => forEachStart fuel s
  | .callbackReturns i throws dyingArgs dying => forEachResume fuel i throws dyingArgs dying s
  | .finalize i => (jsMapIteratorFinalizer i s).map (·, .undefined)

def run (fuel : Nat) : List Op → MapState → Option (MapState × List Output)
  | [], s => some (s, [])
  | op :: ops, s => do
      let (s, out) ← step fuel op s
      let (s, outs) ← run fuel ops s
      some (s, out :: outs)

end JsMap
