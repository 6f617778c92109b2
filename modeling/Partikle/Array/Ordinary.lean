import Partikle.Array.Same

/-!
`JS_DefineProperty` on an ordinary object, compared with `ValidateAndApplyPropertyDescriptor`
of ECMAScript. Such an object is not exotic and has no fast elements, so all its properties
are in the property table; one that is only instantiated when it is used counts as
instantiated. Memory does not run out, and `js_same_value` is the equality of `V`.
-/

namespace Ordinary

open Arrays Option List

variable {V : Type}

section Specification

inductive Content (V : Type) where
  | data (value : V) (writable : Bool)
  | accessor (get set : Option V)

structure Attributes (V : Type) where
  content : Content V
  enumerable : Bool
  configurable : Bool

/-- A property descriptor, any field of which may be absent. The functions `get` and `set` may
be `undefined`. -/
structure Descriptor (V : Type) where
  value : Option V
  writable : Option Bool
  get : Option (Option V)
  set : Option (Option V)
  enumerable : Option Bool
  configurable : Option Bool
  one_kind : get.isSome || set.isSome → value = none ∧ writable = none

def Descriptor.isAccessor (desc : Descriptor V) : Bool := desc.get.isSome || desc.set.isSome

def Descriptor.isData (desc : Descriptor V) : Bool := desc.value.isSome || desc.writable.isSome

def Descriptor.create (undefined : V) (desc : Descriptor V) : Attributes V where
  content :=
    if desc.isAccessor then .accessor (desc.get.getD none) (desc.set.getD none)
    else .data (desc.value.getD undefined) (desc.writable.getD false)
  enumerable := desc.enumerable.getD false
  configurable := desc.configurable.getD false

def Descriptor.update (undefined : V) (desc : Descriptor V) (current : Attributes V) : Attributes V where
  content :=
    match current.content with
    | .data value writable =>
      if desc.isAccessor then .accessor (desc.get.getD none) (desc.set.getD none)
      else .data (desc.value.getD value) (desc.writable.getD writable)
    | .accessor get set =>
      if desc.isData then .data (desc.value.getD undefined) (desc.writable.getD false)
      else .accessor (desc.get.getD get) (desc.set.getD set)
  enumerable := desc.enumerable.getD current.enumerable
  configurable := desc.configurable.getD current.configurable

variable [DecidableEq V]

/-- The validation of a change to a property that is not configurable. -/
def Descriptor.keeps (desc : Descriptor V) (current : Attributes V) : Bool :=
  if desc.configurable.getD false then false
  else if desc.enumerable.any (· ≠ current.enumerable) then false
  else
    match current.content with
    | .accessor get set =>
      if desc.isData && !desc.isAccessor then false
      else if desc.get.any (· ≠ get) then false
      else !desc.set.any (· ≠ set)
    | .data value writable =>
      if desc.isAccessor then false
      else if writable then true
      else if desc.writable.getD false then false
      else !desc.value.any (· ≠ value)

def validateAndApply (undefined : V) (extensible : Bool) (desc : Descriptor V) :
    Option (Attributes V) → Option (Attributes V)
  | none => if extensible then some (desc.create undefined) else none
  | some current =>
    if current.configurable || desc.keeps current then some (desc.update undefined current) else none

end Specification

section Code

structure JsObject (V : Type) where
  slots : Slots V
  extensible : Bool

/-- The flags and values that `js_obj_to_desc` reads from a descriptor. -/
def Descriptor.flags (desc : Descriptor V) : Desc V where
  hasConfigurable := desc.configurable.isSome
  configurable := desc.configurable.getD false
  hasWritable := desc.writable.isSome
  writable := desc.writable.getD false
  hasEnumerable := desc.enumerable.isSome
  enumerable := desc.enumerable.getD false
  value := desc.value
  hasGet := desc.get.isSome
  getter := desc.get.getD none
  hasSet := desc.set.isSome
  setter := desc.set.getD none

def attributes (pr : Property V) : Attributes V where
  content :=
    match pr.payload with
    | .value v => .data v pr.writable
    | .getset getter setter => .accessor getter setter
  enumerable := pr.enumerable
  configurable := pr.configurable

def findProperty (slots : Slots V) (key : Key) : Option (Property V) := (findSlot slots key).map Prod.snd

def JsObject.getOwnProperty (o : JsObject V) (key : Key) : Option (Attributes V) :=
  (findProperty o.slots key).map attributes

def JsObject.createProperty (env : Env V) (o : JsObject V) (key : Key) (desc : Desc V) (throws : Bool) :
    Except JsError Bool × JsObject V :=
  if ¬o.extensible then (reject throws .notExtensible, o)
  else (.ok true, { o with slots := o.slots ++ [some (newProperty env key desc)] })

variable [DecidableEq V]

def JsObject.defineProperty (env : Env V) (o : JsObject V) (key : Key) (desc : Desc V) (throws : Bool) :
    Except JsError Bool × JsObject V :=
  match findSlot o.slots key with
  | none => o.createProperty env key desc throws
  | some (i, pr) =>
    match redefine env pr desc with
    | none => (reject throws .propertyNotConfigurable, o)
    | some pr => (.ok true, { o with slots := o.slots.set i (some pr) })

end Code

section Slots

variable {slots : Slots V} {key : Key} {pr pr' : Property V}

theorem findSlot_cons (slot : Option (Property V)) (slots : Slots V) (key : Key) : findSlot (slot :: slots) key =
      if slot.any fun pr => pr.key = key then slot.map fun pr => (0, pr)
      else (findSlot slots key).map fun found => (found.1 + 1, found.2) := by
  unfold findSlot findOwnProperty
  rw [findIdx?_cons]
  split
  · simp
  · cases findIdx? _ slots <;> simp [Function.comp_def]

theorem findProperty_cons (slot : Option (Property V)) (slots : Slots V) (key : Key) :
    findProperty (slot :: slots) key = if slot.any fun pr => pr.key = key then slot else findProperty slots key := by
  unfold findProperty
  rw [findSlot_cons]
  split <;> simp [Function.comp_def]

theorem findProperty_append (absent : findProperty slots pr.key = none) (other : Key) :
    findProperty (slots ++ [some pr]) other = if other = pr.key then some pr else findProperty slots other := by
  induction slots with
  | nil =>
    rw [nil_append, findProperty_cons]
    simp [eq_comm]
  | cons slot slots ih =>
    rw [findProperty_cons] at absent
    rw [cons_append, findProperty_cons, findProperty_cons]
    cases slot <;> grind

theorem findProperty_set {i : Nat} (found : findSlot slots pr'.key = some (i, pr)) (other : Key) :
    findProperty (slots.set i (some pr')) other = if other = pr'.key then some pr' else findProperty slots other := by
  induction slots generalizing i with
  | nil => cases found
  | cons slot slots ih =>
    rw [findSlot_cons] at found
    split at found
    · obtain ⟨first, rfl, same⟩ := map_eq_some_iff.mp found
      cases same
      rw [set_cons_zero, findProperty_cons, findProperty_cons]
      grind
    · obtain ⟨⟨j, pr⟩, there, same⟩ := map_eq_some_iff.mp found
      cases same
      rw [set_cons_succ, findProperty_cons, findProperty_cons]
      cases slot <;> grind

end Slots

section Refines

variable {env : Env V}

theorem attributes_newProperty (env : Env V) (key : Key) (desc : Descriptor V) :
    attributes (newProperty env key desc.flags) = desc.create env.undefined := by
  obtain ⟨value, writable, get, set, enumerable, configurable, one_kind⟩ := desc
  unfold newProperty Descriptor.create attributes
  cases get <;> cases set <;> simp [Descriptor.flags, Desc.isAccessor, Descriptor.isAccessor, Desc.val]

variable [DecidableEq V]

theorem checkDefinePropFlags_iff (env : Env V) (pr : Property V) (desc : Descriptor V) :
    (checkDefinePropFlags pr.configurable pr.writable pr.enumerable pr.payload.isGetset desc.flags &&
      (definePayload env pr desc.flags).isSome) = (pr.configurable || desc.keeps (attributes pr)) := by
  obtain ⟨value, writable, get, set, enumerable, configurable, one_kind⟩ := desc
  obtain ⟨name, isConfigurable, isWritable, isEnumerable, payload⟩ := pr
  cases isConfigurable with
  | true =>
    cases payload <;> cases get <;> cases set <;> cases value <;> cases writable <;>
      simp [checkDefinePropFlags, definePayload, Descriptor.flags, Desc.isAccessor]
  | false =>
    cases payload <;> cases get <;> cases set <;> cases value <;> cases writable <;> simp at one_kind <;>
      simp [checkDefinePropFlags, definePayload, Descriptor.flags, Desc.isAccessor, Payload.isGetset, Descriptor.keeps,
        attributes, Descriptor.isAccessor, Descriptor.isData] <;> cases enumerable <;> cases configurable <;> grind

theorem definePayload_update {pr : Property V} {desc : Descriptor V} {writable : Bool} {payload : Payload V}
    (defined : definePayload env pr desc.flags = some (writable, payload)) : attributes { pr with
      configurable := if desc.flags.hasConfigurable then desc.flags.configurable else pr.configurable
      enumerable := if desc.flags.hasEnumerable then desc.flags.enumerable else pr.enumerable
      writable, payload } = desc.update env.undefined (attributes pr) := by
  obtain ⟨value, isWritable, get, set, enumerable, configurable, one_kind⟩ := desc
  unfold attributes Descriptor.update
  congr 1
  · cases current : pr.payload <;> cases get <;> cases set <;> cases value <;> cases isWritable <;> simp at one_kind <;>
      simp_all [definePayload, Desc.val, Descriptor.flags, Desc.isAccessor, Descriptor.isAccessor,
        Descriptor.isData] <;> grind
  · cases enumerable <;> rfl
  · cases configurable <;> rfl

theorem redefine_eq (env : Env V) (extensible : Bool) (pr : Property V) (desc : Descriptor V) :
    (redefine env pr desc.flags).map attributes =
      validateAndApply env.undefined extensible desc (some (attributes pr)) := by
  have accepts := checkDefinePropFlags_iff env pr desc
  change _ = if pr.configurable || desc.keeps (attributes pr) then some (desc.update _ _) else none
  rw [← accepts]
  unfold redefine
  cases checkDefinePropFlags pr.configurable pr.writable pr.enumerable pr.payload.isGetset desc.flags with
  | false => rfl
  | true =>
    cases defined : definePayload env pr desc.flags with
    | none => rfl
    | some made => simpa using definePayload_update defined

/-- The object accepts exactly the changes that ECMAScript allows and makes them, on this property only; otherwise it
is left as it was. -/
theorem JsObject.defineProperty_conforms (env : Env V) (o : JsObject V) (key : Key) (desc : Descriptor V)
    (throws : Bool) :
    let (result, after) := o.defineProperty env key desc.flags throws
    match validateAndApply env.undefined o.extensible desc (o.getOwnProperty key) with
    | none => (∃ error, result = reject throws error) ∧ after = o
    | some state =>
      result = .ok true ∧ after.extensible = o.extensible ∧
        ∀ other, after.getOwnProperty other = if other = key then some state else o.getOwnProperty other := by
  unfold JsObject.defineProperty JsObject.getOwnProperty
  cases found : findSlot o.slots key with
  | none =>
    have absent : findProperty o.slots key = none := by rw [findProperty, found, map_none]
    rw [absent]
    simp only [JsObject.createProperty, validateAndApply, map_none]
    cases o.extensible with
    | false => exact ⟨⟨_, rfl⟩, rfl⟩
    | true =>
      refine ⟨rfl, rfl, fun other => ?_⟩
      rw [← newProperty_key env key desc.flags] at absent
      change (findProperty (o.slots ++ _) other).map attributes = _
      rw [findProperty_append absent, newProperty_key, apply_ite (Option.map attributes), map_some,
        attributes_newProperty]
  | some place =>
    obtain ⟨i, pr⟩ := place
    have present : findProperty o.slots key = some pr := by rw [findProperty, found, map_some]
    rw [present, map_some, ← redefine_eq]
    dsimp only
    cases made : redefine env pr desc.flags with
    | none => exact ⟨⟨_, rfl⟩, rfl⟩
    | some pr' =>
      refine ⟨rfl, rfl, fun other => ?_⟩
      have isKey : pr'.key = key := (redefine_key made).trans (findSlot_some found).2
      rw [← isKey] at found
      rw [findProperty_set found, isKey, apply_ite (Option.map attributes), map_some]

end Refines

end Ordinary
