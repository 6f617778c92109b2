import Partikle.Array.Same

/-!
Definitions and stores of an element that are rejected or throw. Memory may run out wherever an
array grows, and the length is written before the element is there.
-/

namespace Arrays

open Option

variable {V : Type}

/-- Whether there is memory for one more element in `values`, for all of them in the property
table, and for one more property. -/
structure Allocations where
  expand : Bool
  convert : Bool
  add : Bool

/-- There is no outcome but an exception when memory has run out. -/
abbrev Attempt (V : Type) := Option (Outcome V) × JsArray V

def returns (s : Step V) : Attempt V := (some s.1, s.2)

def outOfMemory (a : JsArray V) : Attempt V := (none, a)

namespace Allocations

variable (mem : Allocations) (env : Env V)

section Create

def storeLast (a : JsArray V) (v : V) : Attempt V :=
  if mem.expand then returns (ok { a with values := a.values ++ [v] }) else outOfMemory a

def addFastArrayElement (a : JsArray V) (v : V) (throws : Bool) : Option (Attempt V) :=
  let newLen := a.values.length + 1
  if newLen ≥ 2 ^ 31 then none
  else if newLen > a.length then
    if ¬a.lengthWritable then some (returns (fails throws (.readOnly lengthKey) a))
    else some (mem.storeLast { a with length := newLen } v)
  else some (mem.storeLast a v)

variable (a : JsArray V) (idx : Nat) (desc : Desc V) (throws : Bool)

def addProperty : Attempt V :=
  if a.extensible ∧ ¬mem.add then outOfMemory a
  else returns (Arrays.addProperty env a (.index idx) desc throws)

def createSlow : Attempt V :=
  if idx + 1 > a.length then
    if ¬a.lengthWritable then returns (fails throws (.readOnly lengthKey) a)
    else mem.addProperty env { a with length := idx + 1 } idx desc throws
  else mem.addProperty env a idx desc throws

def createConverted : Attempt V :=
  if mem.convert then mem.createSlow env (convertFastArrayToArray a) idx desc throws else outOfMemory a

def createProperty : Option (Attempt V) :=
  if a.fastArray then
    if tagged idx ∧ idx = a.values.length then
      if ¬a.extensible then some (returns (fails throws .notExtensible a))
      else if desc.isAccessor ∨ ¬desc.givesAll false then some (mem.createConverted env a idx desc throws)
      else mem.addFastArrayElement a (desc.val env) throws
    else some (mem.createConverted env a idx desc throws)
  else some (mem.createSlow env a idx desc throws)

end Create

def setProperty (a : JsArray V) (idx : Nat) (v : V) (throws : Bool) : Option (Attempt V) :=
  match findSlot a.slots (.index idx), a.fastElement (.index idx) with
  | some (i, pr), _ => some (returns (setSlot a i pr v throws))
  | none, some _ => some (returns (ok { a with values := a.values.set idx v }))
  | none, none =>
    match env.inherited (.index idx) with
    | .setter f => some (returns (callSetter f v throws a))
    | .readOnly => some (returns (fails throws (.readOnly (.index idx)) a))
    | .free =>
      if ¬a.extensible then some (returns (fails throws .notExtensible a))
      else if a.fastArray ∧ tagged idx ∧ idx = a.values.length then mem.addFastArrayElement a v throws
      else mem.createProperty env a idx (.ofValue v) throws

def setPropertyValue (a : JsArray V) (idx : Nat) (v : V) (throws : Bool) : Option (Attempt V) :=
  if idx < a.values.length then some (returns (ok { a with values := a.values.set idx v }))
  else if idx = a.values.length ∧ a.fastArray ∧ a.extensible ∧ env.plain then mem.addFastArrayElement a v throws
  else mem.setProperty env a idx v throws

def defineProperty [DecidableEq V] (a : JsArray V) (idx : Nat) (desc : Desc V) (throws : Bool) :
    Option (Attempt V) :=
  match findSlot a.slots (.index idx), a.fastElement (.index idx) with
  | some (i, pr), _ => some (returns (defineSlot env a i pr desc throws))
  | none, some _ =>
    if ¬desc.givesAll true ∨ desc.isAccessor then
      if ¬mem.convert then some (outOfMemory a)
      else
        let a := convertFastArrayToArray a
        (findSlot a.slots (.index idx)).map fun found => returns (defineSlot env a found.1 found.2 desc throws)
    else
      match desc.value with
      | some v => some (returns (ok { a with values := a.values.set idx v }))
      | none => some (returns (ok a))
  | none, none => mem.createProperty env a idx desc throws

end Allocations

inductive ElementOp (V : Type) where
  | set (idx : Nat) (v : V) (throws : Bool)
  | setValue (idx : Nat) (v : V) (throws : Bool)
  | define (idx : Nat) (desc : Desc V) (throws : Bool)

def attempt [DecidableEq V] (mem : Allocations) (env : Env V) (a : JsArray V) : ElementOp V → Option (Attempt V)
  | .set idx v throws => mem.setProperty env a idx v throws
  | .setValue idx v throws => mem.setPropertyValue env a idx v throws
  | .define idx desc throws => mem.defineProperty env a idx desc throws

def failed : Option (Outcome V) → Bool
  | none => true
  | some (.result (.ok done)) => !done
  | some (.result (.error _)) => true
  | some _ => false

def Keeps (a : JsArray V) (s : Attempt V) : Prop := failed s.1 = true → view s.2 = view a

/-- An element that is new is defined behind the end, and something is missing for it that is only
asked for when the length has been written. -/
def Raises (mem : Allocations) (a : JsArray V) (idx : Nat) (plain : Bool) : Prop :=
  a.length ≤ idx ∧ a.lengthWritable = true ∧
    if a.fastArray = true ∧ tagged idx = true ∧ idx = a.values.length ∧ (a.extensible = true → plain = true) then
      a.extensible = true ∧ mem.expand = false
    else (a.fastArray = true → mem.convert = true) ∧ (a.extensible = true → mem.add = false)

def KeepsLength (mem : Allocations) (env : Env V) (a : JsArray V) : ElementOp V → Prop
  | .set idx _ _ | .setValue idx _ _ =>
    env.inherited (.index idx) = .free → a.extensible = true → ¬Raises mem a idx true
  | .define idx desc _ => ¬Raises mem a idx (!desc.isAccessor && desc.givesAll false)

variable {v : V} {desc : Desc V} {pr : Property V}

section Keeps

variable {mem : Allocations} {env : Env V} {a b : JsArray V} {idx : Nat} {throws : Bool} {s : Attempt V}

theorem keeps_ok : Keeps a (returns (ok b)) := by
  intro no
  cases no

theorem keeps_same (outcome : Option (Outcome V)) (same : view b = view a) : Keeps a (outcome, b) := fun _ => same

theorem not_keeps {outcome : Option (Outcome V)} (fails : failed outcome = true) (longer : a.length < b.length) :
    ¬Keeps a (outcome, b) := by
  intro keeps
  exact Nat.ne_of_gt longer (congrArg View.length (keeps fails))

theorem storeLast_keeps (v : V) (b : JsArray V) (longer : a.length < b.length) :
    Keeps a (mem.storeLast b v) ↔ mem.expand = true := by
  unfold Allocations.storeLast
  cases mem.expand with
  | true => exact iff_of_true keeps_ok rfl
  | false => exact iff_of_false (not_keeps rfl longer) nofun

theorem addFastArrayElement_keeps (runs : mem.addFastArrayElement a v throws = some s) :
    Keeps a s ↔ ¬(a.length ≤ a.values.length ∧ a.lengthWritable = true ∧ mem.expand = false) := by
  unfold Allocations.addFastArrayElement at runs
  by_cases tooLong : a.values.length + 1 ≥ 2 ^ 31
  · simp only [if_pos tooLong] at runs
    cases runs
  simp only [if_neg tooLong] at runs
  by_cases grows : a.values.length + 1 > a.length
  · rw [if_pos grows] at runs
    have beyond : a.length ≤ a.values.length := Nat.le_of_lt_succ grows
    cases writable : a.lengthWritable with
    | false =>
      simp only [writable, Bool.false_eq_true, not_false_eq_true, if_true, some.injEq] at runs
      cases runs
      exact iff_of_true (keeps_same _ rfl) (by simp)
    | true =>
      simp only [writable, not_true_eq_false, if_false, some.injEq] at runs
      cases runs
      rw [storeLast_keeps v _ grows]
      simp [beyond]
  · rw [if_neg grows] at runs
    cases runs
    refine iff_of_true ?_ fun ⟨beyond, _⟩ => grows (Nat.lt_succ_of_le beyond)
    unfold Allocations.storeLast
    split
    · exact keeps_ok
    · exact keeps_same _ rfl

theorem addProperty_longer (desc : Desc V) (longer : a.length < b.length) :
    Keeps a (mem.addProperty env b idx desc throws) ↔ b.extensible = true ∧ mem.add = true := by
  unfold Allocations.addProperty Arrays.addProperty
  cases b.extensible with
  | false => exact iff_of_false (not_keeps (by cases throws <;> rfl) longer) nofun
  | true =>
    cases mem.add with
    | false => exact iff_of_false (not_keeps rfl longer) nofun
    | true => exact iff_of_true keeps_ok ⟨rfl, rfl⟩

theorem createSlow_keeps (desc : Desc V) (same : view b = view a) : Keeps a (mem.createSlow env b idx desc throws) ↔
      ¬(a.length ≤ idx ∧ a.lengthWritable = true ∧ (a.extensible = true → mem.add = false)) := by
  have length : b.length = a.length := congrArg View.length same
  have writable : b.lengthWritable = a.lengthWritable := congrArg View.lengthWritable same
  have extensible : b.extensible = a.extensible := congrArg View.extensible same
  unfold Allocations.createSlow
  rw [length, writable]
  by_cases beyond : a.length ≤ idx
  · rw [if_pos (Nat.lt_succ_of_le beyond)]
    cases a.lengthWritable with
    | false => exact iff_of_true (keeps_same _ same) (by simp)
    | true =>
      rw [if_neg (by simp), addProperty_longer desc (Nat.lt_succ_of_le beyond), extensible]
      simp [beyond]
  · rw [if_neg (by omega)]
    refine iff_of_true ?_ fun raises => beyond raises.1
    unfold Allocations.addProperty Arrays.addProperty
    split
    · exact keeps_same _ same
    · split
      · exact keeps_same _ same
      · exact keeps_ok

theorem createConverted_keeps (valid : a.Valid) (desc : Desc V) : Keeps a (mem.createConverted env a idx desc throws) ↔
      ¬(a.length ≤ idx ∧ a.lengthWritable = true ∧ mem.convert = true ∧ (a.extensible = true → mem.add = false)) := by
  unfold Allocations.createConverted
  cases mem.convert with
  | false => exact iff_of_true (keeps_same _ rfl) (by simp)
  | true =>
    rw [if_pos rfl, createSlow_keeps desc (convert_view valid).2]
    simp

theorem createProperty_keeps (valid : a.Valid) (runs : mem.createProperty env a idx desc throws = some s) :
    Keeps a s ↔ ¬Raises mem a idx (!desc.isAccessor && desc.givesAll false) := by
  unfold Allocations.createProperty at runs
  unfold Raises
  cases fast : a.fastArray with
  | false =>
    rw [fast, if_neg nofun] at runs
    cases runs
    rw [createSlow_keeps desc rfl]
    simp
  | true =>
    rw [fast, if_pos rfl] at runs
    by_cases last : tagged idx = true ∧ idx = a.values.length
    · rw [if_pos last] at runs
      cases extensible : a.extensible with
      | false =>
        rw [extensible] at runs
        cases runs
        rw [if_pos ⟨rfl, last.1, last.2, nofun⟩]
        exact iff_of_true (keeps_same _ rfl) (by simp)
      | true =>
        rw [extensible, if_neg (by simp)] at runs
        by_cases special : desc.isAccessor = true ∨ ¬desc.givesAll false = true
        · rw [if_pos special] at runs
          cases runs
          have notPlain : (!desc.isAccessor && desc.givesAll false) = false := by
            rcases special with accessor | partly
            · simp [accessor]
            · simp [partly]
          rw [createConverted_keeps valid, notPlain, extensible]
          simp
        · rw [if_neg special] at runs
          have plain : (!desc.isAccessor && desc.givesAll false) = true := by simpa using special
          rw [addFastArrayElement_keeps runs, plain, ← last.2]
          simp [last.1]
    · rw [if_neg last] at runs
      cases runs
      rw [createConverted_keeps valid, if_neg fun at' => last ⟨at'.2.1, at'.2.2.1⟩]
      simp

theorem below_of_find (valid : a.Valid) (found : a.find (.index idx) = some pr) : idx < a.length := by
  obtain ⟨valid', same⟩ := convert_view valid
  rw [← find_convert valid] at found
  obtain ⟨there, isIndex⟩ := valid'.find_eq_some.mp found
  exact valid'.below pr there idx isIndex

theorem not_raises (valid : a.Valid) {plain : Bool} (found : a.find (.index idx) = some pr) :
    ¬Raises mem a idx plain := fun raises => Nat.not_le_of_lt (below_of_find valid found) raises.1

/-- The fast path of a store does what the definition of a new element does. -/
theorem createProperty_ofValue (extensible : a.extensible = true)
    (last : a.fastArray = true ∧ tagged idx = true ∧ idx = a.values.length) :
    mem.createProperty env a idx (.ofValue v) throws = mem.addFastArrayElement a v throws := by
  rw [Allocations.createProperty, if_pos last.1, if_pos last.2, if_neg (by simp [extensible])]
  rfl

theorem callSetter_keeps (f : Option V) (v : V) : Keeps a (returns (callSetter f v throws a)) := by
  cases f with
  | none => exact keeps_same _ rfl
  | some f => exact nofun

theorem setProperty_keeps (valid : a.Valid) (runs : mem.setProperty env a idx v throws = some s) :
    Keeps a s ↔ (env.inherited (.index idx) = .free → a.extensible = true → ¬Raises mem a idx true) := by
  unfold Allocations.setProperty at runs
  cases slot : findSlot a.slots (.index idx) with
  | some found =>
    rw [slot] at runs
    cases runs
    refine iff_of_true ?_ fun _ _ => not_raises valid (valid.find_slot slot)
    unfold setSlot
    split
    · exact callSetter_keeps _ v
    · split
      · exact keeps_ok
      · exact keeps_same _ rfl
  | none =>
    cases element : a.fastElement (.index idx) with
    | some old =>
      rw [slot, element] at runs
      cases runs
      obtain ⟨idx, ⟨⟩, -, value⟩ := fastElement_some element
      exact iff_of_true keeps_ok fun _ _ => not_raises valid (valid.find_element value)
    | none =>
      simp only [slot, element] at runs
      cases proto : env.inherited (.index idx) with
      | setter f =>
        simp only [proto, some.injEq] at runs
        exact iff_of_true (runs ▸ callSetter_keeps f v) nofun
      | readOnly =>
        simp only [proto, some.injEq] at runs
        exact iff_of_true (runs ▸ keeps_same _ rfl) nofun
      | free =>
        simp only [proto] at runs
        cases extensible : a.extensible with
        | false =>
          rw [extensible] at runs
          cases runs
          exact iff_of_true (keeps_same _ rfl) nofun
        | true =>
          rw [extensible, if_neg (by simp)] at runs
          have creates : mem.createProperty env a idx (.ofValue v) throws = some s := by
            split at runs
            · next last => exact (createProperty_ofValue extensible last).trans runs
            · exact runs
          rw [createProperty_keeps valid creates]
          exact ⟨fun keeps _ _ => keeps, fun keeps => keeps rfl rfl⟩

theorem setPropertyValue_keeps (valid : a.Valid) (runs : mem.setPropertyValue env a idx v throws = some s) :
    Keeps a s ↔ (env.inherited (.index idx) = .free → a.extensible = true → ¬Raises mem a idx true) := by
  unfold Allocations.setPropertyValue at runs
  by_cases inside : idx < a.values.length
  · rw [if_pos inside] at runs
    cases runs
    exact iff_of_true keeps_ok fun _ _ => not_raises valid (valid.find_element (List.getElem?_eq_getElem inside))
  rw [if_neg inside] at runs
  by_cases last : idx = a.values.length ∧ a.fastArray = true ∧ a.extensible = true ∧ env.plain = true
  · obtain ⟨last, fast, extensible, plain⟩ := last
    rw [if_pos ⟨last, fast, extensible, plain⟩] at runs
    have small : idx < 2 ^ 31 := last ▸ (valid.fast fast).2.2
    have creates : mem.createProperty env a idx (.ofValue v) throws = some s :=
      (createProperty_ofValue extensible ⟨fast, by simpa [tagged] using small, last⟩).trans runs
    rw [createProperty_keeps valid creates]
    exact ⟨fun keeps _ _ => keeps, fun keeps => keeps (env.plain_free plain idx small) extensible⟩
  · rw [if_neg last] at runs
    exact setProperty_keeps valid runs

theorem defineSlot_keeps [DecidableEq V] {i : Nat} (same : view b = view a) :
    Keeps a (returns (defineSlot env b i pr desc throws)) := by
  unfold defineSlot
  split
  · exact keeps_same _ same
  · exact keeps_ok

theorem defineProperty_keeps [DecidableEq V] (valid : a.Valid)
    (runs : mem.defineProperty env a idx desc throws = some s) :
    Keeps a s ↔ ¬Raises mem a idx (!desc.isAccessor && desc.givesAll false) := by
  unfold Allocations.defineProperty at runs
  cases slot : findSlot a.slots (.index idx) with
  | some found =>
    rw [slot] at runs
    cases runs
    exact iff_of_true (defineSlot_keeps rfl) (not_raises valid (valid.find_slot slot))
  | none =>
    cases element : a.fastElement (.index idx) with
    | none =>
      simp only [slot, element] at runs
      exact createProperty_keeps valid runs
    | some old =>
      simp only [slot, element] at runs
      obtain ⟨idx, ⟨⟩, -, value⟩ := fastElement_some element
      refine iff_of_true ?_ (not_raises valid (valid.find_element value))
      split at runs
      · split at runs
        · cases runs
          exact keeps_same _ rfl
        · obtain ⟨found, -, rfl⟩ := map_eq_some_iff.mp runs
          exact defineSlot_keeps (convert_view valid).2
      · split at runs
        · cases runs
          exact keeps_ok
        · cases runs
          exact keeps_ok

end Keeps

/-- A definition or a store of an element that is rejected or throws leaves the array as it was,
exactly if it does not make the array longer before it fails. -/
theorem failure_keeps_array [DecidableEq V] (mem : Allocations) (env : Env V) (a : LiveArray V) (op : ElementOp V)
    {s : Attempt V} (runs : attempt mem env a.toJsArray op = some s) :
    (failed s.1 = true → view s.2 = view a.toJsArray) ↔ KeepsLength mem env a.toJsArray op := by
  cases op with
  | set idx v throws => exact setProperty_keeps a.valid runs
  | setValue idx v throws => exact setPropertyValue_keeps a.valid runs
  | define idx desc throws => exact defineProperty_keeps a.valid runs

theorem failure_keeps_array_sealed :
    ∃ s, attempt ⟨true, true, true⟩ numbers sealed.toJsArray (.define 0 (.ofValue 7) false) = some s ∧
      failed s.1 = true ∧ view s.2 = view sealed.toJsArray := by
  have keeps : KeepsLength ⟨true, true, true⟩ numbers sealed.toJsArray (.define 0 (.ofValue 7) false) := by
    simp [KeepsLength, Raises, sealed, tagged]
  exact ⟨_, rfl, rfl, (failure_keeps_array _ _ sealed _ rfl).mpr keeps rfl⟩

/-- An element is defined on a slow array that is not extensible, or there is no memory for an element
of a fast one: this fails, and the array is longer. -/
theorem failure_lengthens : (∃ s, attempt ⟨true, true, true⟩ numbers (convertFastArrayToArray sealed.toJsArray)
      (.define 5 (.ofValue 7) false) = some s ∧ s.1 = some (.result (.ok false)) ∧
        (convertFastArrayToArray sealed.toJsArray).length = 0 ∧ s.2.length = 6) ∧
    ∃ s, attempt ⟨false, true, true⟩ numbers pair.toJsArray (.set 2 9 true) = some s ∧ s.1 = none ∧
      pair.toJsArray.length = 2 ∧ s.2.length = 3 :=
  ⟨⟨_, rfl, rfl, rfl, rfl⟩, _, rfl, rfl, rfl, rfl⟩

end Arrays
