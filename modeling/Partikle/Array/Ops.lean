import Partikle.Array.Length

/-!
Reading, writing, defining and deleting properties of an array, and listing its keys. The
elements of a fast array are in `values` until an operation needs something that only the
property table can express.
-/

namespace Arrays

variable {V : Type}

/-- What the prototypes of the array say about a key that the array does not have. -/
inductive Inherited (V : Type) where
  | free
  | readOnly
  | setter (f : Option V)

/-- What an operation reads apart from the array. `plain` says that all prototypes are fast
arrays or objects without a small array index. -/
structure Env (V : Type) where
  undefined : V
  ofLength : Nat → V
  toLength : V → Option Nat
  isSymbol : BitVec 32 → Bool
  inherited : Key → Inherited V
  plain : Bool
  plain_free : plain = true → ∀ idx < 2 ^ 31, inherited (.index idx) = .free

/-- The flags and values of `JS_DefineProperty`. A getter or setter that is not a function is
`none`. Without `JS_PROP_HAS_VALUE` there is no value, and `val` is `undefined`. -/
structure Desc (V : Type) where
  hasConfigurable : Bool
  configurable : Bool
  hasWritable : Bool
  writable : Bool
  hasEnumerable : Bool
  enumerable : Bool
  value : Option V
  hasGet : Bool
  getter : Option V
  hasSet : Bool
  setter : Option V

def Desc.isAccessor (desc : Desc V) : Bool := desc.hasGet || desc.hasSet

def Desc.val (env : Env V) (desc : Desc V) : V := desc.value.getD env.undefined

def Desc.ofValue (v : V) : Desc V := ⟨true, true, true, true, true, true, some v, false, none, false, none⟩

def Desc.givesAll (desc : Desc V) (default : Bool) : Bool :=
  (if desc.hasConfigurable then desc.configurable else default) &&
    (if desc.hasWritable then desc.writable else default) &&
    (if desc.hasEnumerable then desc.enumerable else default)

inductive Outcome (V : Type) where
  | result (r : Except JsError Bool)
  | value (v : V)
  | getter (f : V)
  | setter (f v : V)
  | inherited
  | keys (l : List (Key × Bool))

abbrev Step (V : Type) := Outcome V × JsArray V

def ok (a : JsArray V) : Step V := (.result (.ok true), a)

def fails (throws : Bool) (error : JsError) (a : JsArray V) : Step V := (.result (reject throws error), a)

def tagged (idx : Nat) : Bool := idx < 2 ^ 31

def findSlot (slots : Slots V) (key : Key) : Option (Nat × Property V) :=
  (findOwnProperty slots key).bind fun i => slots[i]?.join.map fun pr => (i, pr)

def JsArray.fastElement (a : JsArray V) (key : Key) : Option V :=
  match key with
  | .index idx => if a.fastArray && tagged idx then a.values[idx]? else none
  | .name _ => none

def lengthKey : Key := .name JS_ATOM_length

section Get

def readPayload (env : Env V) : Payload V → Outcome V
  | .value v => .value v
  | .getset none _ => .value env.undefined
  | .getset (some f) _ => .getter f

def getProperty (env : Env V) (a : JsArray V) (key : Key) : Outcome V :=
  if key = lengthKey then .value (env.ofLength a.length)
  else
    match findSlot a.slots key with
    | some (_, pr) => readPayload env pr.payload
    | none =>
      match a.fastElement key with
      | some v => .value v
      | none => .inherited

def getPropertyValue (env : Env V) (a : JsArray V) (idx : Nat) : Outcome V :=
  match a.values[idx]? with
  | some v => .value v
  | none => getProperty env a (.index idx)

end Get

section Create

def convertFastArrayToArray (a : JsArray V) : JsArray V :=
  { a with
    slots := a.slots ++ (a.values.mapIdx element).map some
    values := []
    fastArray := false }

/-- A length of 2^31 is not an `int` any more, and the array is broken. -/
def addFastArrayElement (a : JsArray V) (v : V) (throws : Bool) : Option (Step V) :=
  let newLen := a.values.length + 1
  if newLen ≥ 2 ^ 31 then none
  else if newLen > a.length then
    if ¬a.lengthWritable then some (fails throws (.readOnly lengthKey) a)
    else some (ok { a with length := newLen, values := a.values ++ [v] })
  else some (ok { a with values := a.values ++ [v] })

def newProperty (env : Env V) (key : Key) (desc : Desc V) : Property V :=
  if desc.isAccessor then
    ⟨key, desc.configurable, false, desc.enumerable,
      .getset (if desc.hasGet then desc.getter else none) (if desc.hasSet then desc.setter else none)⟩
  else
    ⟨key, desc.configurable, desc.writable, desc.enumerable,
      .value (desc.val env)⟩

variable (env : Env V) (a : JsArray V) (key : Key) (desc : Desc V) (throws : Bool)

def addProperty : Step V :=
  if ¬a.extensible then fails throws .notExtensible a
  else ok { a with slots := a.slots ++ [some (newProperty env key desc)] }

/-- `JS_CreateProperty` on the property table. The length is updated first. -/
def createSlow : Step V :=
  match key with
  | .index idx =>
    if idx + 1 > a.length then
      if ¬a.lengthWritable then fails throws (.readOnly lengthKey) a
      else addProperty env { a with length := idx + 1 } key desc throws
    else addProperty env a key desc throws
  | .name _ => addProperty env a key desc throws

def createProperty : Option (Step V) :=
  match key with
  | .index idx =>
    if a.fastArray then
      if tagged idx ∧ idx = a.values.length then
        if ¬a.extensible then some (fails throws .notExtensible a)
        else if desc.isAccessor ∨ ¬desc.givesAll false then
          some (createSlow env (convertFastArrayToArray a) key desc throws)
        else addFastArrayElement a (desc.val env) throws
      else some (createSlow env (convertFastArrayToArray a) key desc throws)
    else some (createSlow env a key desc throws)
  | .name _ => some (createSlow env a key desc throws)

end Create

section Set

def setLength (env : Env V) (a : JsArray V) (v : V) (throws : Bool) : Step V :=
  match env.toLength v with
  | none => (.result (.error .invalidArrayLength), a)
  | some n => ((.result (setArrayLength a n throws).1), (setArrayLength a n throws).2)

def callSetter (f : Option V) (v : V) (throws : Bool) (a : JsArray V) : Step V :=
  match f with
  | some f => (.setter f v, a)
  | none => fails throws .noSetter a

def setSlot (a : JsArray V) (i : Nat) (pr : Property V) (v : V) (throws : Bool) : Step V :=
  match pr.payload with
  | .getset _ setter => callSetter setter v throws a
  | .value _ =>
    if pr.writable then ok { a with slots := a.slots.set i (some { pr with payload := .value v }) }
    else fails throws (.readOnly pr.key) a

def setProperty (env : Env V) (a : JsArray V) (key : Key) (v : V) (throws : Bool) : Option (Step V) :=
  if key = lengthKey then some (setLength env a v throws)
  else
    match findSlot a.slots key with
    | some (i, pr) => some (setSlot a i pr v throws)
    | none =>
      match key, a.fastElement key with
      | .index idx, some _ => some (ok { a with values := a.values.set idx v })
      | _, _ =>
        match env.inherited key with
        | .setter f => some (callSetter f v throws a)
        | .readOnly => some (fails throws (.readOnly key) a)
        | .free =>
          if ¬a.extensible then some (fails throws .notExtensible a)
          else
            match key with
            | .index idx =>
              if a.fastArray ∧ tagged idx ∧ idx = a.values.length then addFastArrayElement a v throws
              else createProperty env a key (.ofValue v) throws
            | .name _ => createProperty env a key (.ofValue v) throws

def setPropertyValue (env : Env V) (a : JsArray V) (idx : Nat) (v : V) (throws : Bool) : Option (Step V) :=
  if idx < a.values.length then some (ok { a with values := a.values.set idx v })
  else if idx = a.values.length ∧ a.fastArray ∧ a.extensible ∧ env.plain then addFastArrayElement a v throws
  else setProperty env a (.index idx) v throws

end Set

section Define

variable [DecidableEq V]

def checkDefinePropFlags (configurable writable enumerable isGetset : Bool) (desc : Desc V) : Bool :=
  if configurable then true
  else if desc.hasConfigurable && desc.configurable then false
  else if desc.hasEnumerable && desc.enumerable != enumerable then false
  else if desc.value.isSome || desc.hasWritable || desc.isAccessor then
    if desc.isAccessor != isGetset then false
    else !(!desc.isAccessor && !isGetset && !writable && desc.hasWritable && desc.writable)
  else true

def Payload.isGetset : Payload V → Bool
  | .value _ => false
  | .getset _ _ => true

def definePayload (env : Env V) (pr : Property V) (desc : Desc V) : Option (Bool × Payload V) :=
  if desc.isAccessor then
    match pr.payload with
    | .value _ =>
      some (false, .getset (if desc.hasGet then desc.getter else none) (if desc.hasSet then desc.setter else none))
    | .getset getter setter =>
      if ¬pr.configurable ∧ (desc.hasGet ∧ desc.getter ≠ getter ∨ desc.hasSet ∧ desc.setter ≠ setter) then none
      else
        some (pr.writable,
          .getset (if desc.hasGet then desc.getter else getter) (if desc.hasSet then desc.setter else setter))
  else if desc.value.isSome || desc.hasWritable then
    match pr.payload with
    | .getset _ _ =>
      some (if desc.hasWritable then desc.writable else false,
        .value (desc.val env))
    | .value v =>
      if ¬pr.configurable ∧ ¬pr.writable ∧ desc.value.isSome ∧ desc.value ≠ some v then none
      else
        some (if desc.hasWritable then desc.writable else pr.writable,
          .value (desc.value.getD v))
  else some (pr.writable, pr.payload)

/-- What `JS_DefineProperty` makes of a property it has found, unless it refuses the change. -/
def redefine (env : Env V) (pr : Property V) (desc : Desc V) : Option (Property V) :=
  if checkDefinePropFlags pr.configurable pr.writable pr.enumerable pr.payload.isGetset desc then
    (definePayload env pr desc).map fun (writable, payload) =>
      { pr with
        configurable := if desc.hasConfigurable then desc.configurable else pr.configurable
        enumerable := if desc.hasEnumerable then desc.enumerable else pr.enumerable
        writable, payload }
  else none

def defineSlot (env : Env V) (a : JsArray V) (i : Nat) (pr : Property V) (desc : Desc V) (throws : Bool) :
    Step V :=
  match redefine env pr desc with
  | none => fails throws .propertyNotConfigurable a
  | some pr => ok { a with slots := a.slots.set i (some pr) }

/-- The writable flag of `length` is cleared whether the length could be set or not. -/
def clearWritable (desc : Desc V) (step : Step V) : Step V :=
  (step.1, if desc.hasWritable && !desc.writable then { step.2 with lengthWritable := false } else step.2)

def defineLength (env : Env V) (a : JsArray V) (desc : Desc V) (throws : Bool) : Step V :=
  let allowed := checkDefinePropFlags false a.lengthWritable false false desc
  match desc.value with
  | none => if ¬allowed then fails throws .propertyNotConfigurable a else clearWritable desc (ok a)
  | some v =>
    match env.toLength v with
    | none => (.result (.error .invalidArrayLength), a)
    | some n =>
      if ¬allowed then fails throws .propertyNotConfigurable a
      else if ¬a.lengthWritable then
        if n = a.length then ok a else fails throws .propertyNotConfigurable a
      else clearWritable desc (.result (setArrayLength a n throws).1, (setArrayLength a n throws).2)

def defineProperty (env : Env V) (a : JsArray V) (key : Key) (desc : Desc V) (throws : Bool) :
    Option (Step V) :=
  if key = lengthKey then some (defineLength env a desc throws)
  else
    match findSlot a.slots key with
    | some (i, pr) => some (defineSlot env a i pr desc throws)
    | none =>
      match key, a.fastElement key with
      | .index idx, some _ =>
        if ¬desc.givesAll true ∨ desc.isAccessor then
          let a := convertFastArrayToArray a
          match findSlot a.slots key with
          | some (i, pr) => some (defineSlot env a i pr desc throws)
          | none => none
        else
          match desc.value with
          | some v => some (ok { a with values := a.values.set idx v })
          | none => some (ok a)
      | _, _ => createProperty env a key desc throws

end Define

section Delete

def deleteKey (a : JsArray V) (key : Key) (throws : Bool) : Step V :=
  let done (r : Bool × JsArray V) : Step V := if r.1 then ok r.2 else fails throws .couldNotDelete r.2
  if key = lengthKey then done (false, a)
  else
    match findOwnProperty a.slots key, key with
    | none, .index idx =>
      if a.fastArray ∧ idx < a.values.length then
        -- the last element of a fast array is dropped
        if idx = a.values.length - 1 then done (true, { a with values := a.values.take idx })
        else
          let a := convertFastArrayToArray a
          done ((deleteProperty a.slots key).1, { a with slots := (deleteProperty a.slots key).2 })
      else done (true, a)
    | none, .name _ => done (true, a)
    | some _, _ => done ((deleteProperty a.slots key).1, { a with slots := (deleteProperty a.slots key).2 })

end Delete

section Keys

def indexEntry (pr : Property V) : Option (Nat × Bool) :=
  match pr.key with
  | .index idx => some (idx, pr.enumerable)
  | .name _ => none

def nameEntry (pr : Property V) : Option (BitVec 32 × Bool) :=
  match pr.key with
  | .index _ => none
  | .name atom => some (atom, pr.enumerable)

/-- The array indices, in increasing order, then the strings and then the symbols in the order
in which they were added. `length` is the first string. -/
def ownKeys (env : Env V) (a : JsArray V) : List (Key × Bool) :=
  let indices := (a.own.filterMap indexEntry).mergeSort fun x y => x.1 ≤ y.1
  let names := (live a.slots).filterMap nameEntry
  indices.map (fun x => (.index x.1, x.2)) ++
    (((JS_ATOM_length, false) :: names).filter fun x => !env.isSymbol x.1).map (fun x => (.name x.1, x.2)) ++
    (names.filter fun x => env.isSymbol x.1).map (fun x => (.name x.1, x.2))

end Keys

inductive Op (V : Type) where
  | get (key : Key)
  | getValue (idx : Nat)
  | set (key : Key) (v : V) (throws : Bool)
  | setValue (idx : Nat) (v : V) (throws : Bool)
  | define (key : Key) (desc : Desc V) (throws : Bool)
  | delete (key : Key) (throws : Bool)
  | ownKeys

/-- One operation. The integers of the fast paths are not negative. -/
def step [DecidableEq V] (env : Env V) (a : JsArray V) : Op V → Option (Step V)
  | .get key => some (getProperty env a key, a)
  | .getValue idx => some (getPropertyValue env a idx, a)
  | .set key v throws => setProperty env a key v throws
  | .setValue idx v throws => setPropertyValue env a idx v throws
  | .define key desc throws => defineProperty env a key desc throws
  | .delete key throws => some (deleteKey a key throws)
  | .ownKeys => some (.keys (ownKeys env a), a)

end Arrays
