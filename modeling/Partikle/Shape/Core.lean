import Partikle.Lib.Update
import Mathlib.Data.Nat.Bitwise

/-!
Shapes: the property tables of objects, shared between objects through the shape hash
table of the runtime. A fault of the source (a freed shape, an access outside an array,
a failed assertion, a loop that does not end) gives `none`.
-/

namespace Shapes

open Function

abbrev Ptr := Nat

structure ShapeProperty where
  hashNext : BitVec 26
  flags : BitVec 6
  atom : BitVec 32
deriving DecidableEq

def JS_ATOM_NULL : BitVec 32 := 0
def JS_ATOM_length : BitVec 32 := 48

def JS_PROP_CONFIGURABLE : BitVec 6 := 1
def JS_PROP_WRITABLE : BitVec 6 := 2
def JS_PROP_LENGTH : BitVec 6 := 8

def JS_PROP_INITIAL_SIZE : Nat := 2
def JS_PROP_INITIAL_HASH_SIZE : Nat := 4

/-- The properties of a shape. `prop` has `prop_count` entries, and `propHash h` is
`prop_hash_end(sh)[-h - 1]`. -/
structure Props where
  prop : List ShapeProperty
  propSize : Nat
  deletedPropCount : Nat
  propHashMask : Nat
  propHash : Nat → Nat

/-- `ref_count` is an `int`. It is the number of holders of the shape (`Ok.counts`), so it is
exact where fewer than 2 ^ 31 - 2 objects share one. -/
structure Shape extends Props where
  refCount : Int
  isHashed : Bool
  hash : BitVec 32
  shapeHashNext : Option Ptr
  proto : BitVec 64

structure Object (V : Type) where
  shape : Ptr
  prop : Nat → V
  propAlloc : Nat

/-- The runtime. `gcObjList` holds the shapes of `gc_obj_list`, `arrayShape` is that of the
context, and a freed object leaves `none`. -/
structure Heap (V : Type) where
  shape : Ptr → Option Shape
  gcObjList : List Ptr
  shapeHash : Nat → Option Ptr
  shapeHashBits : Nat
  shapeHashCount : Int
  arrayShape : Option Ptr
  objects : List (Option (Object V))

/-- The answers of the allocator during one call. An address in use counts as a failure. -/
structure Memory where
  table : Bool
  object : Bool
  prop : Bool
  clone : Option Ptr
  shape : Option Ptr
  compact : Option Ptr
  shrink : Bool

def Props.bucket (props : Props) (atom : BitVec 32) : Nat := atom.toNat &&& props.propHashMask

def findLoop (prop : List ShapeProperty) (atom : BitVec 32) : Nat → Nat → Option (Option Nat)
  | 0, _ => none
  | fuel + 1, h =>
    if h = 0 then some none else do
      let pr ← prop[h - 1]?
      if pr.atom = atom then some (some (h - 1)) else findLoop prop atom fuel pr.hashNext.toNat

def findOwnProperty (props : Props) (atom : BitVec 32) : Option (Option Nat) :=
  findLoop props.prop atom (props.prop.length + 1) (props.propHash (props.bucket atom))

def deleteLoop (prop : List ShapeProperty) (atom : BitVec 32) :
    Nat → Option Nat → Nat → Option (Option (Nat × Option Nat))
  | 0, _, _ => none
  | fuel + 1, lpr, h =>
    if h = 0 then some none else do
      let pr ← prop[h - 1]?
      if pr.atom = atom then some (some (h - 1, lpr))
      else deleteLoop prop atom fuel (some (h - 1)) pr.hashNext.toNat

def doubleUntil (newSize : Nat) : Nat → Nat → Nat
  | 0, hashSize => hashSize
  | fuel + 1, hashSize => if hashSize < newSize then doubleUntil newSize fuel (2 * hashSize) else hashSize

def halveWhile (newSize : Nat) : Nat → Nat → Nat
  | 0, hashSize => hashSize
  | fuel + 1, hashSize => if hashSize / 2 ≥ newSize then halveWhile newSize fuel (hashSize / 2) else hashSize

def relink (mask : Nat) : List ShapeProperty → Nat → (Nat → Nat) → List ShapeProperty × (Nat → Nat)
  | [], _, hash => ([], hash)
  | pr :: rest, i, hash =>
    if pr.atom ≠ JS_ATOM_NULL then
      let h := pr.atom.toNat &&& mask
      let (rest, hash') := relink mask rest (i + 1) (update hash h (i + 1))
      ({ pr with hashNext := BitVec.ofNat 26 (hash h) } :: rest, hash')
    else
      let (rest, hash') := relink mask rest (i + 1) hash
      (pr :: rest, hash')

/-- `max_int(count, sh->prop_size * 3 / 2)`, with the product in `int` arithmetic. -/
def newPropSize (count propSize : Nat) : Nat :=
  max count ((BitVec.ofNat 32 (propSize * 3)).toInt.tdiv 2).toNat

def grownHashSize (count : Nat) (props : Props) : Nat :=
  let newSize := newPropSize count props.propSize
  doubleUntil newSize newSize (props.propHashMask + 1)

def resizedProps (count : Nat) (props : Props) : Props :=
  let newSize := newPropSize count props.propSize
  if grownHashSize count props ≠ props.propHashMask + 1 then
    let newHashMask := grownHashSize count props - 1
    let (prop, propHash) := relink newHashMask props.prop 0 fun _ => 0
    { props with
      prop := prop
      propHash := propHash
      propHashMask := newHashMask
      propSize := newSize }
  else { props with propSize := newSize }

/-- The last part of `add_shape_property`. The property does not fit if the array is full. -/
def appendProp (atom : BitVec 32) (flags : BitVec 6) (props : Props) : Option Props :=
  if props.prop.length < props.propSize then
    let h := props.bucket atom
    let pr : ShapeProperty := ⟨BitVec.ofNat 26 (props.propHash h), flags, atom⟩
    some { props with
      prop := props.prop ++ [pr]
      propHash := update props.propHash h (props.prop.length + 1) }
  else none

def removeProp (i : Nat) (lpr : Option Nat) (h1 : Nat) (props : Props) : Option Props := do
  let pr ← props.prop[i]?
  let gone : ShapeProperty := { pr with flags := 0, atom := JS_ATOM_NULL }
  match lpr with
  | none =>
    some { props with
      prop := props.prop.set i gone
      propHash := update props.propHash h1 pr.hashNext.toNat
      deletedPropCount := props.deletedPropCount + 1 }
  | some l => do
      let before ← props.prop[l]?
      let prop := props.prop.set l { before with hashNext := pr.hashNext }
      some { props with
        prop := prop.set i gone
        deletedPropCount := props.deletedPropCount + 1 }

def compactLoop {V : Type} (mask : Nat) :
    List ShapeProperty → Nat → Nat → (Nat → Nat) → (Nat → V) →
      List ShapeProperty × (Nat → Nat) × (Nat → V)
  | [], _, _, hash, values => ([], hash, values)
  | pr :: rest, i, j, hash, values =>
    if pr.atom ≠ JS_ATOM_NULL then
      let h := pr.atom.toNat &&& mask
      let (rest, hash', values') := compactLoop mask rest (i + 1) (j + 1)
        (update hash h (j + 1)) (update values j (values i))
      ({ pr with hashNext := BitVec.ofNat 26 (hash h) } :: rest, hash', values')
    else compactLoop mask rest (i + 1) j hash values

def compactSize (props : Props) : Nat := max JS_PROP_INITIAL_SIZE (props.prop.length - props.deletedPropCount)

def shrunkHashSize (props : Props) : Nat :=
  halveWhile (compactSize props) (props.propHashMask + 1) (props.propHashMask + 1)

/-- The properties in the shape that `compact_properties` allocates, and the values. The
assertion that all live properties have been copied is checked. -/
def compactedProps {V : Type} (props : Props) (values : Nat → V) : Option (Props × (Nat → V)) :=
  let newHashMask := shrunkHashSize props - 1
  let (prop, propHash, values') := compactLoop newHashMask props.prop 0 0 (fun _ => 0) values
  if prop.length + props.deletedPropCount = props.prop.length then
    some (⟨prop, compactSize props, 0, newHashMask, propHash⟩, values')
  else none

section Heap

variable {V : Type}

def Heap.setShape (h : Heap V) (p : Ptr) (sh : Shape) : Heap V :=
  { h with shape := update h.shape p (some sh) }

def Heap.setObject (h : Heap V) (o : Nat) (obj : Object V) : Heap V :=
  { h with objects := h.objects.set o (some obj) }

def Heap.fresh (h : Heap V) (answer : Option Ptr) : Option Ptr := answer.filter fun p => (h.shape p).isNone

def Heap.chainFuel (h : Heap V) : Nat := h.gcObjList.length + 1

def shapeHash (h val : BitVec 32) : BitVec 32 := (h + val) * 0x9e370001

def getShapeHash (h : BitVec 32) (hashBits : Nat) : Nat := (h >>> (32 - hashBits)).toNat

def shapeInitialHash (proto : BitVec 64) : BitVec 32 :=
  shapeHash (shapeHash 1 (proto.setWidth 32)) ((proto >>> 32).setWidth 32)

def moveShapes (bits : Nat) :
    Nat → Option Ptr → Heap V → (Nat → Option Ptr) → Option (Heap V × (Nat → Option Ptr))
  | 0, _, _, _ => none
  | _ + 1, none, h, newHash => some (h, newHash)
  | fuel + 1, some p, h, newHash => do
      let sh ← h.shape p
      let b := getShapeHash sh.hash bits
      moveShapes bits fuel sh.shapeHashNext (h.setShape p { sh with shapeHashNext := newHash b })
        (update newHash b (some p))

def moveBuckets (bits : Nat) :
    List Nat → Heap V → (Nat → Option Ptr) → Option (Heap V × (Nat → Option Ptr))
  | [], h, newHash => some (h, newHash)
  | i :: rest, h, newHash => do
      let (h, newHash) ← moveShapes bits h.chainFuel (h.shapeHash i) h newHash
      moveBuckets bits rest h newHash

/-- Beyond 30 bits `1 << bits` is no size that can be allocated. -/
def resizeShapeHash (bits : Nat) (allocated : Bool) (h : Heap V) : Option (Heap V) :=
  if allocated ∧ bits ≤ 30 then do
    let (h, newHash) ← moveBuckets bits (List.range (2 ^ h.shapeHashBits)) h fun _ => none
    some { h with shapeHash := newHash, shapeHashBits := bits }
  else some h

def jsShapeHashLink (p : Ptr) (h : Heap V) : Option (Heap V) := do
  let sh ← h.shape p
  let b := getShapeHash sh.hash h.shapeHashBits
  some { h.setShape p { sh with shapeHashNext := h.shapeHash b } with
    shapeHash := update h.shapeHash b (some p)
    shapeHashCount := h.shapeHashCount + 1 }

def unlinkLoop (p : Ptr) (target : Option Ptr) (h : Heap V) : Nat → Option Ptr → Option (Heap V)
  | 0, _ => none
  | _ + 1, none => none
  | fuel + 1, some q => do
      let sh ← h.shape q
      if sh.shapeHashNext = some p then some (h.setShape q { sh with shapeHashNext := target })
      else unlinkLoop p target h fuel sh.shapeHashNext

def jsShapeHashUnlink (p : Ptr) (h : Heap V) : Option (Heap V) := do
  let sh ← h.shape p
  let b := getShapeHash sh.hash h.shapeHashBits
  let h ← if h.shapeHash b = some p then
      some { h with shapeHash := update h.shapeHash b sh.shapeHashNext }
    else unlinkLoop p sh.shapeHashNext h h.chainFuel (h.shapeHash b)
  some { h with shapeHashCount := h.shapeHashCount - 1 }

/-- A new empty shape for a prototype, or no shape if there is no memory. -/
def jsNewShape2 (proto : BitVec 64) (hashSize propSize : Nat) (mem : Memory) (h : Heap V) :
    Option (Option Ptr × Heap V) := do
  let h ← if 2 * (h.shapeHashCount + 1) > 2 ^ h.shapeHashBits then
      resizeShapeHash (h.shapeHashBits + 1) mem.table h
    else some h
  match h.fresh mem.shape with
  | none => some (none, h)
  | some p => do
      let sh : Shape :=
        { prop := []
          propSize := propSize
          deletedPropCount := 0
          propHashMask := hashSize - 1
          propHash := fun _ => 0
          refCount := 1
          isHashed := true
          hash := shapeInitialHash proto
          shapeHashNext := none
          proto := proto }
      let h ← jsShapeHashLink p { h.setShape p sh with gcObjList := h.gcObjList ++ [p] }
      some (some p, h)

def jsNewShape (proto : BitVec 64) (mem : Memory) (h : Heap V) : Option (Option Ptr × Heap V) :=
  jsNewShape2 proto JS_PROP_INITIAL_HASH_SIZE JS_PROP_INITIAL_SIZE mem h

def jsCloneShape (p : Ptr) (answer : Option Ptr) (h : Heap V) : Option (Option Ptr × Heap V) := do
  let sh1 ← h.shape p
  match h.fresh answer with
  | none => some (none, h)
  | some q =>
    some (some q, { h.setShape q { sh1 with refCount := 1, isHashed := false } with
      gcObjList := h.gcObjList ++ [q] })

def jsDupShape (p : Ptr) (h : Heap V) : Option (Heap V) := do
  let sh ← h.shape p
  some (h.setShape p { sh with refCount := sh.refCount + 1 })

def Heap.dropShape (h : Heap V) (p : Ptr) : Heap V :=
  { h with shape := update h.shape p none, gcObjList := h.gcObjList.erase p }

def jsFreeShape0 (p : Ptr) (h : Heap V) : Option (Heap V) := do
  let sh ← h.shape p
  if sh.refCount = 0 then do
    let h ← if sh.isHashed then jsShapeHashUnlink p h else some h
    some (h.dropShape p)
  else none

def jsFreeShape (p : Ptr) (h : Heap V) : Option (Heap V) := do
  let sh ← h.shape p
  let h := h.setShape p { sh with refCount := sh.refCount - 1 }
  if sh.refCount - 1 ≤ 0 then jsFreeShape0 p h else some h

def Heap.object (h : Heap V) (o : Nat) : Option (Object V) := h.objects[o]?.join

/-- Who refers to the shape that a function changes: an object or the context. -/
inductive Holder
  | object (o : Nat)
  | context
deriving DecidableEq

def Heap.held (h : Heap V) : Holder → Option Ptr
  | .object o => (h.object o).map Object.shape
  | .context => h.arrayShape

def Heap.setHeld (h : Heap V) (holder : Holder) (p : Ptr) : Option (Heap V) :=
  match holder with
  | .object o => do
      let obj ← h.object o
      some (h.setObject o { obj with shape := p })
  | .context => some { h with arrayShape := some p }

def Heap.moveShape (h : Heap V) (p q : Ptr) (sh : Shape) : Heap V :=
  { h.dropShape p with
    shape := update (h.dropShape p).shape q (some sh)
    gcObjList := (h.dropShape p).gcObjList ++ [q] }

def reallocProp (holder : Holder) (size : Nat) (allocated : Bool) (h : Heap V) : Option (Bool × Heap V) :=
  match holder with
  | .context => some (true, h)
  | .object o =>
    if allocated then do
      let obj ← h.object o
      some (true, h.setObject o { obj with propAlloc := size })
    else some (false, h)

/-- Make space for `count` properties in the shape `p` that the holder refers to. The
result is false if there is no memory. -/
def resizeProperties (holder : Holder) (p : Ptr) (count : Nat) (mem : Memory) (h : Heap V) :
    Option (Bool × Heap V) := do
  let sh ← h.shape p
  let (done, h) ← reallocProp holder (newPropSize count sh.propSize) mem.prop h
  if done then
    match h.fresh mem.shape with
    | none => some (false, h)
    | some q => do
        let h ← (h.moveShape p q { sh with toProps := resizedProps count sh.toProps }).setHeld holder q
        some (true, h)
  else some (false, h)

def finishAdd (holder : Holder) (atom : BitVec 32) (flags : BitVec 6) (newShapeHash : BitVec 32)
    (h : Heap V) : Option (Bool × Heap V) := do
  let p ← h.held holder
  let sh ← h.shape p
  let h ← if sh.isHashed then jsShapeHashLink p (h.setShape p { sh with hash := newShapeHash })
    else some h
  let sh ← h.shape p
  let props ← appendProp atom flags sh.toProps
  some (true, h.setShape p { sh with toProps := props })

def addShapeProperty (holder : Holder) (atom : BitVec 32) (flags : BitVec 6) (mem : Memory)
    (h : Heap V) : Option (Bool × Heap V) := do
  let p ← h.held holder
  let sh ← h.shape p
  let h ← if sh.isHashed then jsShapeHashUnlink p h else some h
  let newShapeHash := shapeHash (shapeHash sh.hash atom) (flags.setWidth 32)
  if sh.prop.length ≥ sh.propSize then do
    let (done, h) ← resizeProperties holder p (sh.prop.length + 1) mem h
    if done then finishAdd holder atom flags newShapeHash h
    else do
      let h ← if sh.isHashed then jsShapeHashLink p h else some h
      some (false, h)
  else finishAdd holder atom flags newShapeHash h

def searchLoop (wanted : Shape → Bool) (h : Heap V) : Nat → Option Ptr → Option (Option Ptr)
  | 0, _ => none
  | _ + 1, none => some none
  | fuel + 1, some p => do
      let sh ← h.shape p
      if wanted sh then some (some p) else searchLoop wanted h fuel sh.shapeHashNext

def Props.entries (props : Props) : List (BitVec 32 × BitVec 6) :=
  props.prop.map fun pr => (pr.atom, pr.flags)

def findHashedShapeProto (proto : BitVec 64) (h : Heap V) : Option (Option Ptr) :=
  let hash := shapeInitialHash proto
  searchLoop (fun sh1 => sh1.hash == hash && sh1.proto == proto && sh1.prop.length == 0) h h.chainFuel
    (h.shapeHash (getShapeHash hash h.shapeHashBits))

def findHashedShapeProp (sh : Shape) (atom : BitVec 32) (flags : BitVec 6) (h : Heap V) : Option (Option Ptr) :=
  let hash := shapeHash (shapeHash sh.hash atom) (flags.setWidth 32)
  searchLoop (fun sh1 => sh1.hash == hash && sh1.proto == sh.proto &&
      sh1.prop.length == sh.prop.length + 1 && sh1.entries == sh.entries ++ [(atom, flags)])
    h h.chainFuel (h.shapeHash (getShapeHash hash h.shapeHashBits))

def addInPlace (o : Nat) (atom : BitVec 32) (flags : BitVec 6) (mem : Memory) (h : Heap V) :
    Option (Option Nat × Heap V) := do
  let obj ← h.object o
  let sh ← h.shape obj.shape
  if sh.refCount = 1 then do
    let (done, h) ← addShapeProperty (.object o) atom flags mem h
    some (if done then some sh.prop.length else none, h)
  else none

def useShape (o : Nat) (obj : Object V) (sh newSh : Shape) (q : Ptr) (mem : Memory) (h : Heap V) :
    Option (Option Nat × Heap V) :=
  let resize := newSh.propSize ≠ sh.propSize
  if resize ∧ mem.prop = false then some (none, h) else do
    let propAlloc := if resize then newSh.propSize else obj.propAlloc
    let h ← jsDupShape q h
    let h ← jsFreeShape obj.shape (h.setObject o { obj with shape := q, propAlloc := propAlloc })
    some (some (newSh.prop.length - 1), h)

/-- The index of the new property, whose value is not set yet, or nothing if there is no
memory. -/
def addProperty (o : Nat) (atom : BitVec 32) (flags : BitVec 6) (mem : Memory) (h : Heap V) :
    Option (Option Nat × Heap V) := do
  let obj ← h.object o
  let sh ← h.shape obj.shape
  if sh.isHashed then do
    match ← findHashedShapeProp sh atom flags h with
    | some q => do
        let newSh ← h.shape q
        useShape o obj sh newSh q mem h
    | none =>
      if sh.refCount ≠ 1 then do
        match ← jsCloneShape obj.shape mem.clone h with
        | (none, h) => some (none, h)
        | (some q, h) => do
            let clone ← h.shape q
            let h ← jsShapeHashLink q (h.setShape q { clone with isHashed := true })
            let h ← jsFreeShape obj.shape (h.setObject o { obj with shape := q })
            addInPlace o atom flags mem h
      else addInPlace o atom flags mem h
  else addInPlace o atom flags mem h

/-- Ensure that the shape of an object can be modified; false if there is no memory. -/
def jsShapePrepareUpdate (o : Nat) (mem : Memory) (h : Heap V) : Option (Bool × Heap V) := do
  let obj ← h.object o
  let sh ← h.shape obj.shape
  if sh.isHashed then
    if sh.refCount ≠ 1 then do
      match ← jsCloneShape obj.shape mem.clone h with
      | (none, h) => some (false, h)
      | (some q, h) => do
          let h ← jsFreeShape obj.shape (h.setObject o { obj with shape := q })
          some (true, h)
    else do
      let h ← jsShapeHashUnlink obj.shape h
      let sh ← h.shape obj.shape
      some (true, h.setShape obj.shape { sh with isHashed := false })
  else some (true, h)

/-- The assertions are checked, and a failed allocation leaves the object as it is. -/
def compactProperties (o : Nat) (mem : Memory) (h : Heap V) : Option (Heap V) := do
  let obj ← h.object o
  let sh ← h.shape obj.shape
  let newSize := compactSize sh.toProps
  if sh.isHashed = false ∧ newSize ≤ sh.propSize then
    match h.fresh mem.compact with
    | none => some h
    | some q => do
        let (props, values) ← compactedProps sh.toProps obj.prop
        let propAlloc := if mem.shrink then newSize else obj.propAlloc
        some ((h.moveShape obj.shape q { sh with toProps := props }).setObject o
          ⟨q, values, propAlloc⟩)
  else none

inductive Result
  | exception
  | false
  | true
deriving DecidableEq

def writeProp (o i : Nat) (value : V) (h : Heap V) : Option (Heap V) := do
  let obj ← h.object o
  if i < obj.propAlloc then some (h.setObject o { obj with prop := update obj.prop i value })
  else none

def changeProps (o : Nat) (change : Props → Option Props) (h : Heap V) : Option (Heap V) := do
  let obj ← h.object o
  let sh ← h.shape obj.shape
  let props ← change sh.toProps
  some (h.setShape obj.shape { sh with toProps := props })

def deleteProperty [Inhabited V] (o : Nat) (atom : BitVec 32) (mem : Memory) (h : Heap V) :
    Option (Result × Heap V) := do
  let obj ← h.object o
  let sh ← h.shape obj.shape
  let h1 := sh.bucket atom
  match ← deleteLoop sh.prop atom (sh.prop.length + 1) none (sh.propHash h1) with
  | none => some (.true, h)
  | some (i, lpr) => do
      let pr ← sh.prop[i]?
      if pr.flags &&& JS_PROP_CONFIGURABLE = 0 then some (.false, h)
      else do
        let (done, h) ← jsShapePrepareUpdate o mem h
        if done then do
          let h ← changeProps o (removeProp i lpr h1) h
          let h ← writeProp o i default h
          let obj ← h.object o
          let sh ← h.shape obj.shape
          if sh.deletedPropCount ≥ 8 ∧ sh.deletedPropCount ≥ sh.prop.length / 2 then do
            let h ← compactProperties o mem h
            some (.true, h)
          else some (.true, h)
        else some (.exception, h)

def setFlags (i : Nat) (flags : BitVec 6) (props : Props) : Option Props := do
  let pr ← props.prop[i]?
  some { props with prop := props.prop.set i { pr with flags := flags } }

def jsUpdatePropertyFlags (o i : Nat) (flags : BitVec 6) (mem : Memory) (h : Heap V) :
    Option (Result × Heap V) := do
  let obj ← h.object o
  let sh ← h.shape obj.shape
  let pr ← sh.prop[i]?
  if flags ≠ pr.flags then do
    let (done, h) ← jsShapePrepareUpdate o mem h
    if done then do
      let h ← changeProps o (setFlags i flags) h
      some (.true, h)
    else some (.exception, h)
  else some (.true, h)

def jsNewObjectFromShape [Inhabited V] (p : Ptr) (values : Nat → V) (mem : Memory) (h : Heap V) :
    Option (Result × Heap V) := do
  let sh ← h.shape p
  if mem.object && mem.prop then
    some (.true, { h with objects := h.objects ++ [some ⟨p, values, sh.propSize⟩] })
  else do
    let h ← jsFreeShape p h
    some (.exception, h)

def jsNewObjectProto [Inhabited V] (proto : BitVec 64) (mem : Memory) (h : Heap V) :
    Option (Result × Heap V) := do
  match ← findHashedShapeProto proto h with
  | some p => do
      let h ← jsDupShape p h
      jsNewObjectFromShape p (fun _ => default) mem h
  | none => do
      match ← jsNewShape proto mem h with
      | (none, h) => some (.exception, h)
      | (some p, h) => jsNewObjectFromShape p (fun _ => default) mem h

def freeArrayShape (h : Heap V) : Option (Heap V) :=
  match h.arrayShape with
  | none => some h
  | some p => jsFreeShape p { h with arrayShape := none }

def initArrayShape (proto : BitVec 64) (mem : Memory) (h : Heap V) : Option (Result × Heap V) := do
  match ← jsNewShape2 proto JS_PROP_INITIAL_HASH_SIZE 1 mem h with
  | (none, h) => some (.exception, h)
  | (some p, h) => do
      let (_, h) ← addShapeProperty .context JS_ATOM_length (JS_PROP_WRITABLE ||| JS_PROP_LENGTH) mem
        { h with arrayShape := some p }
      some (.true, h)

def jsNewArray [Inhabited V] (zero : V) (mem : Memory) (h : Heap V) : Option (Result × Heap V) :=
  match h.arrayShape with
  | none => some (.false, h)
  | some p => do
      let h ← jsDupShape p h
      jsNewObjectFromShape p (update (fun _ => default) 0 zero) mem h

/-- The search in front of `add_property`, which all its callers make. -/
def defineOwn (o : Nat) (atom : BitVec 32) (flags : BitVec 6) (value : V) (mem : Memory) (h : Heap V) :
    Option (Result × Heap V) := do
  let obj ← h.object o
  let sh ← h.shape obj.shape
  match ← findOwnProperty sh.toProps atom with
  | some _ => some (.false, h)
  | none => do
      match ← addProperty o atom flags mem h with
      | (none, h) => some (.exception, h)
      | (some i, h) => do
          let h ← writeProp o i value h
          some (.true, h)

def updateOwn (o : Nat) (atom : BitVec 32) (flags : BitVec 6) (mem : Memory) (h : Heap V) :
    Option (Result × Heap V) := do
  let obj ← h.object o
  let sh ← h.shape obj.shape
  match ← findOwnProperty sh.toProps atom with
  | none => some (.false, h)
  | some i => jsUpdatePropertyFlags o i flags mem h

def setOwn (o : Nat) (atom : BitVec 32) (value : V) (h : Heap V) : Option (Result × Heap V) := do
  let obj ← h.object o
  let sh ← h.shape obj.shape
  match ← findOwnProperty sh.toProps atom with
  | none => some (.false, h)
  | some i => do
      let h ← writeProp o i value h
      some (.true, h)

def reserve (o count : Nat) (mem : Memory) (h : Heap V) : Option (Result × Heap V) := do
  let (done, h) ← jsShapePrepareUpdate o mem h
  if done then do
    let obj ← h.object o
    let sh ← h.shape obj.shape
    if count > sh.propSize then do
      let (done, h) ← resizeProperties (.object o) obj.shape count mem h
      some (if done then .true else .exception, h)
    else some (.true, h)
  else some (.exception, h)

def setPrototype (o : Nat) (proto : BitVec 64) (mem : Memory) (h : Heap V) : Option (Result × Heap V) := do
  let (done, h) ← jsShapePrepareUpdate o mem h
  if done then do
    let obj ← h.object o
    let sh ← h.shape obj.shape
    some (.true, h.setShape obj.shape { sh with proto := proto })
  else some (.exception, h)

def freeObject (o : Nat) (h : Heap V) : Option (Heap V) := do
  let obj ← h.object o
  jsFreeShape obj.shape { h with objects := h.objects.set o none }

end Heap

/-- One call. Objects are numbered in the order of their creation. -/
inductive Op (V : Type)
  | newObject (proto : BitVec 64) (mem : Memory)
  | initArrayShape (proto : BitVec 64) (mem : Memory)
  | freeArrayShape
  | newArray (zero : V) (mem : Memory)
  | add (o : Nat) (atom : BitVec 32) (flags : BitVec 6) (value : V) (mem : Memory)
  | delete (o : Nat) (atom : BitVec 32) (mem : Memory)
  | updateFlags (o : Nat) (atom : BitVec 32) (flags : BitVec 6) (mem : Memory)
  | setValue (o : Nat) (atom : BitVec 32) (value : V)
  | reserve (o count : Nat) (mem : Memory)
  | setPrototype (o : Nat) (proto : BitVec 64) (mem : Memory)
  | freeObject (o : Nat)

section Run

variable {V : Type} [Inhabited V]

def Heap.on (h : Heap V) (o : Nat) (f : Heap V → Option (Result × Heap V)) : Option (Result × Heap V) :=
  match h.object o with
  | none => some (.false, h)
  | some _ => f h

def step (op : Op V) (h : Heap V) : Option (Result × Heap V) :=
  match op with
  | .newObject proto mem => jsNewObjectProto proto mem h
  | .initArrayShape proto mem =>
    match h.arrayShape with
    | none => initArrayShape proto mem h
    | some _ => some (.false, h)
  | .freeArrayShape => (freeArrayShape h).map (Prod.mk .true)
  | .newArray zero mem => jsNewArray zero mem h
  | .add o atom flags value mem =>
    if atom = JS_ATOM_NULL then some (.false, h) else h.on o (defineOwn o atom flags value mem)
  | .delete o atom mem => if atom = JS_ATOM_NULL then some (.false, h) else h.on o (deleteProperty o atom mem)
  | .updateFlags o atom flags mem =>
    if atom = JS_ATOM_NULL then some (.false, h) else h.on o (updateOwn o atom flags mem)
  | .setValue o atom value => if atom = JS_ATOM_NULL then some (.false, h) else h.on o (setOwn o atom value)
  | .reserve o count mem => h.on o (reserve o count mem)
  | .setPrototype o proto mem => h.on o (setPrototype o proto mem)
  | .freeObject o => h.on o fun h => (freeObject o h).map (Prod.mk .true)

def run : List (Op V) → Heap V → Option (List Result × Heap V)
  | [], h => some ([], h)
  | op :: ops, h => do
      let (result, h) ← step op h
      let (results, h) ← run ops h
      some (result :: results, h)

def emptyHeap (V : Type) : Heap V where
  shape := fun _ => none
  gcObjList := []
  shapeHash := fun _ => none
  shapeHashBits := 4
  shapeHashCount := 0
  arrayShape := none
  objects := []

end Run

end Shapes
