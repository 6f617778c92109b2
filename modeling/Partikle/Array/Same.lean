import Partikle.Array.View

/-!
Both representations of an array refine one abstract array, so a program cannot tell them
apart, unless it assigns a length whose walk passes over a property, defines an element at
the end of an array that is not extensible, or has 2^31 - 1 elements.
-/

namespace Arrays

open List

variable {V : Type}

namespace View

abbrev Step (V : Type) := Outcome V × View V

def ok (w : View V) : View.Step V := (.result (.ok true), w)

def fails (throws : Bool) (error : JsError) (w : View V) : View.Step V := (.result (reject throws error), w)

section

variable (env : Env V) (w : View V) (key : Key)

def get : Outcome V :=
  if key = lengthKey then .value (env.ofLength w.length)
  else
    match w.own key with
    | some pr => readPayload env pr.payload
    | none => .inherited

def addNew (desc : Desc V) (throws : Bool) : View.Step V :=
  if ¬w.extensible then fails throws .notExtensible w else ok (w.add (newProperty env key desc))

def create (desc : Desc V) (throws : Bool) : View.Step V :=
  match key with
  | .index idx =>
    if idx + 1 > w.length then
      if ¬w.lengthWritable then fails throws (.readOnly lengthKey) w
      else addNew env { w with length := idx + 1 } key desc throws
    else addNew env w key desc throws
  | .name _ => addNew env w key desc throws

end

def IsFinal (own : Key → Option (Property V)) (n m : Nat) : Prop :=
  m = n ∧ (∀ idx pr, own (.index idx) = some pr → n ≤ idx → pr.configurable = true) ∨
    ∃ idx pr, own (.index idx) = some pr ∧ n ≤ idx ∧ pr.configurable = false ∧ m = idx + 1 ∧
      ∀ idx' pr', own (.index idx') = some pr' → n ≤ idx' → pr'.configurable = false → idx' ≤ idx

noncomputable def final (w : View V) (n : Nat) : Nat := Classical.epsilon (IsFinal w.own n)

def cut (n : Nat) : Key → Bool
  | .index idx => n ≤ idx
  | .name _ => false

noncomputable def truncate (w : View V) (n : Nat) : View V :=
  { w with length := w.final n, own := fun key => if cut (w.final n) key then none else w.own key }

noncomputable def assignLength (w : View V) (n : Nat) (throws : Bool) : View.Step V :=
  if ¬w.lengthWritable then fails throws (.readOnly lengthKey) w
  else (.result (if w.final n > n then reject throws .notConfigurable else .ok true), w.truncate n)

noncomputable def setLength (env : Env V) (w : View V) (v : V) (throws : Bool) : View.Step V :=
  match env.toLength v with
  | none => (.result (.error .invalidArrayLength), w)
  | some n => w.assignLength n throws

def callSetter (f : Option V) (v : V) (throws : Bool) (w : View V) : View.Step V :=
  match f with
  | some f => (.setter f v, w)
  | none => fails throws .noSetter w

noncomputable def set (env : Env V) (w : View V) (key : Key) (v : V) (throws : Bool) : View.Step V :=
  if key = lengthKey then w.setLength env v throws
  else
    match w.own key with
    | some pr =>
      match pr.payload with
      | .getset _ setter => callSetter setter v throws w
      | .value _ =>
        if pr.writable then ok (w.put { pr with payload := .value v }) else fails throws (.readOnly pr.key) w
    | none =>
      match env.inherited key with
      | .setter f => callSetter f v throws w
      | .readOnly => fails throws (.readOnly key) w
      | .free => if ¬w.extensible then fails throws .notExtensible w else w.create env key (.ofValue v) throws

section

variable [DecidableEq V]

def clearWritable (desc : Desc V) (step : View.Step V) : View.Step V :=
  (step.1, if desc.hasWritable && !desc.writable then { step.2 with lengthWritable := false } else step.2)

noncomputable def defineLength (env : Env V) (w : View V) (desc : Desc V) (throws : Bool) : View.Step V :=
  let allowed := checkDefinePropFlags false w.lengthWritable false false desc
  match desc.value with
  | none => if ¬allowed then fails throws .propertyNotConfigurable w else clearWritable desc (ok w)
  | some v =>
    match env.toLength v with
    | none => (.result (.error .invalidArrayLength), w)
    | some n =>
      if ¬allowed then fails throws .propertyNotConfigurable w
      else if ¬w.lengthWritable then
        if n = w.length then ok w else fails throws .propertyNotConfigurable w
      else clearWritable desc (w.assignLength n throws)

noncomputable def define (env : Env V) (w : View V) (key : Key) (desc : Desc V) (throws : Bool) : View.Step V :=
  if key = lengthKey then w.defineLength env desc throws
  else
    match w.own key with
    | some pr =>
      match redefine env pr desc with
      | none => fails throws .propertyNotConfigurable w
      | some new => ok (w.put new)
    | none => w.create env key desc throws

end

def delete (w : View V) (key : Key) (throws : Bool) : View.Step V :=
  if key = lengthKey then fails throws .couldNotDelete w
  else
    match w.own key with
    | none => ok w
    | some pr => if pr.configurable then ok (w.remove key) else fails throws .couldNotDelete w

end View

def Refines (s : Step V) (spec : View.Step V) : Prop := s.1 = spec.1 ∧ s.2.Valid ∧ view s.2 = spec.2

variable {s : Step V} {m idx i : Nat} {v : V} {desc : Desc V} {pr : Property V} {key : Key} {env : Env V}

section Basic

variable {a : JsArray V}

theorem refines_fails (valid : a.Valid) (throws : Bool) (error : JsError) :
    Refines (fails throws error a) (View.fails throws error (view a)) := ⟨rfl, valid, rfl⟩

section Ite

variable {c : Prop} [Decidable c] {t t' : View.Step V}

theorem refines_ite {s' : Step V} (yes : c → Refines s t) (no : ¬c → Refines s' t') :
    Refines (if c then s else s') (if c then t else t') := by
  split
  · exact yes ‹_›
  · exact no ‹_›

theorem exists_refines_ite {o o' : Option (Step V)} (yes : c → ∃ s, o = some s ∧ Refines s t)
    (no : ¬c → ∃ s, o' = some s ∧ Refines s t') :
    ∃ s, (if c then o else o') = some s ∧ Refines s (if c then t else t') := by
  split
  · exact yes ‹_›
  · exact no ‹_›

end Ite

theorem view_own : (view a).own = a.find := rfl

theorem getProperty_view (env : Env V) (valid : a.Valid) (key : Key) :
    getProperty env a key = View.get env (view a) key := by
  unfold getProperty View.get
  by_cases isLength : key = lengthKey
  · rw [if_pos isLength, if_pos isLength]
    rfl
  rw [if_neg isLength, if_neg isLength]
  cases slot : findSlot a.slots key with
  | some found => rw [view_own, valid.find_slot slot]
  | none =>
    cases fast : a.fastElement key with
    | none => rw [view_own, valid.find_none slot fast]
    | some v =>
      obtain ⟨idx, rfl, -, value⟩ := fastElement_some fast
      rw [view_own, valid.find_element value]
      rfl

theorem getPropertyValue_view (env : Env V) (valid : a.Valid) (idx : Nat) :
    getPropertyValue env a idx = View.get env (view a) (.index idx) := by
  unfold getPropertyValue
  cases value : a.values[idx]? with
  | none => exact getProperty_view env valid _
  | some v =>
    rw [View.get, if_neg (by simp [lengthKey]),
      view_own, valid.find_element value]
    rfl

theorem JsArray.Valid.lengthen (valid : a.Valid) {n : Nat} (longer : a.length ≤ n) : { a with length := n }.Valid := by
  refine ⟨valid.distinct, valid.named, ?_, fun fast => ?_, valid.slow⟩
  · intro pr there idx is
    exact (valid.below pr there idx is).trans_le longer
  · obtain ⟨names, short, small⟩ := valid.fast fast
    exact ⟨names, short.trans longer, small⟩

end Basic

section Create

variable {a : JsArray V}

theorem newProperty_key (env : Env V) (key : Key) (desc : Desc V) : (newProperty env key desc).key = key := by
  unfold newProperty
  split <;> rfl

theorem newProperty_all (data : desc.isAccessor = false) (all : desc.givesAll false = true) :
    newProperty env key desc = newProperty env key (.ofValue (desc.val env)) := by
  have flags : desc.configurable = true ∧ desc.writable = true ∧ desc.enumerable = true := by
    simp only [Desc.givesAll, Bool.and_eq_true] at all
    refine ⟨?_, ?_, ?_⟩ <;> by_contra off <;> simp_all
  have plain : (Desc.ofValue (desc.val env)).isAccessor = false := rfl
  simp only [newProperty, data, plain, Bool.false_eq_true, if_false, flags]
  simp [Desc.ofValue, Desc.val]

variable (valid : a.Valid)

include valid

theorem addProperty_refines (absent : a.find key = none) (notLength : key ≠ lengthKey)
    (inside : ∀ idx, key = .index idx → a.fastArray = false ∧ idx < a.length) (throws : Bool) :
    Refines (addProperty env a key desc throws) (View.addNew env (view a) key desc throws) := by
  refine refines_ite (fun _ => refines_fails valid _ _) fun _ => ?_
  rw [← newProperty_key env key desc] at absent notLength inside
  exact ⟨rfl, addProperty_view valid absent notLength inside⟩

theorem createSlow_refines (absent : a.find key = none) (notLength : key ≠ lengthKey)
    (slow : ∀ idx, key = .index idx → a.fastArray = false) (throws : Bool) :
    Refines (createSlow env a key desc throws) (View.create env (view a) key desc throws) := by
  cases key with
  | name atom => exact addProperty_refines valid absent notLength (by simp) throws
  | index idx =>
    refine refines_ite (fun longer => refines_ite (fun _ => refines_fails valid _ _) fun _ => ?_) fun low => ?_
    · have valid' : { a with length := idx + 1 }.Valid := valid.lengthen (by omega)
      refine addProperty_refines valid' absent notLength ?_ throws
      rintro _ ⟨⟩
      exact ⟨slow idx rfl, Nat.lt_succ_self idx⟩
    · refine addProperty_refines valid absent notLength ?_ throws
      rintro _ ⟨⟩
      exact ⟨slow idx rfl, by omega⟩

theorem addFastArrayElement_refines (env : Env V) (fast : a.fastArray = true)
    (room : a.values.length + 1 < 2 ^ 31) (extensible : a.extensible = true) (v : V) (throws : Bool) :
    ∃ s, addFastArrayElement a v throws = some s ∧
      Refines s (View.create env (view a) (.index a.values.length) (.ofValue v) throws) := by
  have new : newProperty env (.index a.values.length) (Desc.ofValue v) = element a.values.length v := rfl
  have open' : ¬¬(view a).extensible = true := not_not_intro extensible
  simp only [addFastArrayElement, View.create, View.addNew, new, if_neg open']
  rw [if_neg (by omega)]
  refine exists_refines_ite (fun longer => exists_refines_ite (fun _ => ⟨_, rfl, refines_fails valid _ _⟩) fun _ => ?_)
    fun low => ⟨_, rfl, rfl, pushValue_view valid fast (by omega) room v⟩
  have valid' : { a with length := a.values.length + 1 }.Valid := valid.lengthen (by omega)
  exact ⟨_, rfl, rfl, pushValue_view valid' fast (Nat.lt_succ_self _) room v⟩

def Room (a : JsArray V) (key : Key) : Prop := key = .index a.values.length → a.values.length + 1 < 2 ^ 31

/-- A definition of the element behind the last one of a fast array that is not extensible must
not have to change the length. -/
def Definable (a : JsArray V) (key : Key) (throws : Bool) : Prop :=
  a.fastArray = true → key = .index a.values.length →
    a.extensible = true ∨ a.values.length < a.length ∨ a.lengthWritable = false ∧ throws = false

theorem createProperty_refines (env : Env V) (desc : Desc V) (absent : a.find key = none)
    (notLength : key ≠ lengthKey) (room : Room a key) {throws : Bool} (definable : Definable a key throws) :
    ∃ s, createProperty env a key desc throws = some s ∧ Refines s (View.create env (view a) key desc throws) := by
  cases key with
  | name atom => exact ⟨_, rfl, createSlow_refines valid absent notLength (by simp) throws⟩
  | index idx =>
    obtain ⟨valid', same⟩ := convert_view valid
    have converted : Refines (createSlow env (convertFastArrayToArray a) (.index idx) desc throws)
        (View.create env (view a) (.index idx) desc throws) := by
      rw [← same]
      exact createSlow_refines valid' (by rwa [find_convert valid]) notLength (fun _ _ => rfl) throws
    simp only [createProperty]
    by_cases fast : a.fastArray = true
    · rw [if_pos fast]
      by_cases last : tagged idx = true ∧ idx = a.values.length
      · rw [if_pos last]
        by_cases closed : ¬a.extensible = true
        · rw [if_pos closed]
          refine ⟨_, rfl, ?_⟩
          simp only [View.create, View.addNew]
          by_cases low : ¬idx + 1 > a.length
          · rw [if_neg (show ¬idx + 1 > (view a).length from low),
              if_pos (show ¬(view a).extensible = true from closed)]
            exact refines_fails valid _ _
          · -- the two errors are different, but none is thrown
            obtain ⟨fixed, rfl⟩ : a.lengthWritable = false ∧ throws = false := by
              rcases definable fast (by rw [last.2]) with open' | inside | fixed
              · exact absurd open' closed
              · omega
              · exact fixed
            rw [if_pos (show idx + 1 > (view a).length from not_not.mp low),
              if_pos (show ¬(view a).lengthWritable = true by simp [view, fixed])]
            exact refines_fails valid _ _
        · rw [if_neg closed]
          by_cases special : desc.isAccessor = true ∨ ¬desc.givesAll false = true
          · rw [if_pos special]
            exact ⟨_, rfl, converted⟩
          · rw [if_neg special]
            simp only [not_or, Bool.not_eq_true, Bool.not_eq_false] at special
            obtain ⟨s, added, refines⟩ := addFastArrayElement_refines valid env fast (room (by rw [last.2]))
              (by simpa using closed) (desc.val env) throws
            refine ⟨s, added, ?_⟩
            rw [last.2]
            simp only [View.create, View.addNew, newProperty_all special.1 special.2] at refines ⊢
            exact refines
      · rw [if_neg last]
        exact ⟨_, rfl, converted⟩
    · rw [if_neg fast]
      refine ⟨_, rfl, createSlow_refines valid absent notLength (fun _ _ => ?_) throws⟩
      simpa using fast

end Create

section Length

variable {a : JsArray V} {n : Nat}

theorem doomed_eq_cut (pr : Property V) : doomed n pr = View.cut n pr.key := by
  unfold doomed View.cut
  cases pr.key <;> rfl

theorem clearWritable_refines {spec : View.Step V} (desc : Desc V) (refines : Refines s spec) :
    Refines (clearWritable desc s) (View.clearWritable desc spec) := by
  obtain ⟨outcome, valid, same⟩ := refines
  unfold clearWritable View.clearWritable
  split
  · refine ⟨outcome, { valid with }, ?_⟩
    rw [← same]
    rfl
  · exact ⟨outcome, valid, same⟩

variable (valid : a.Valid)

include valid

theorem isFinal_view : IsFinal a.own n m ↔ View.IsFinal a.find n m := by
  have members : ∀ {idx pr}, a.find (.index idx) = some pr ↔ pr ∈ a.own ∧ pr.key = .index idx :=
    valid.find_eq_some
  refine or_congr (and_congr_right fun _ => ?_) ?_
  · constructor
    · intro all idx pr found
      obtain ⟨there, is⟩ := members.mp found
      exact all pr there idx is
    · intro all pr there idx is
      exact all idx pr (members.mpr ⟨there, is⟩)
  · constructor
    · rintro ⟨pr, there, idx, is, high, fixed, rfl, most⟩
      refine ⟨idx, pr, members.mpr ⟨there, is⟩, high, fixed, rfl, fun idx' pr' found => ?_⟩
      obtain ⟨there', is'⟩ := members.mp found
      exact most pr' there' idx' is'
    · rintro ⟨idx, pr, found, high, fixed, rfl, most⟩
      obtain ⟨there, is⟩ := members.mp found
      exact ⟨pr, there, idx, is, high, fixed, rfl, fun pr' there' idx' is' =>
        most idx' pr' (members.mpr ⟨there', is'⟩)⟩

def Walkable (a : JsArray V) (n : Nat) : Prop :=
  a.fastArray = false → a.lengthWritable = true → Sparse a n → ¬Misses a n

theorem truncates_view {a' : JsArray V} (valid' : a'.Valid) (cut : Truncates a a' n)
    (writable : a'.lengthWritable = a.lengthWritable) (extensible : a'.extensible = a.extensible)
    (names : (live a'.slots).filterMap nameOf = (live a.slots).filterMap nameOf) :
    (view a).final n = a'.length ∧ view a' = (view a).truncate n := by
  have final : (view a).final n = a'.length := by
    have chosen : View.IsFinal a.find n ((view a).final n) :=
      Classical.epsilon_spec ⟨a'.length, (isFinal_view valid).mp cut.final⟩
    exact ((isFinal_view valid).mpr chosen).unique cut.final
  have own : a'.find = fun key => if View.cut a'.length key then none else a.find key := by
    funext key
    apply Option.ext
    intro pr
    rw [valid'.find_eq_some, cut.own, mem_filter, doomed_eq_cut]
    by_cases gone : View.cut a'.length key = true
    · rw [if_pos gone]
      refine iff_of_false ?_ (by simp)
      rintro ⟨⟨-, kept⟩, rfl⟩
      simp [gone] at kept
    · rw [if_neg gone, valid.find_eq_some]
      refine ⟨fun ⟨⟨there, _⟩, is⟩ => ⟨there, is⟩, fun ⟨there, is⟩ => ⟨⟨there, ?_⟩, is⟩⟩
      rw [is]
      simpa using gone
  refine ⟨final, ?_⟩
  simp only [View.truncate, final]
  simp [view, own, writable, extensible, names]

theorem truncated_valid {slots : Slots V} (slow : a.fastArray = false)
    (left : live slots = (live a.slots).filter fun pr => !doomed m pr) : { a with slots, length := m }.Valid := by
  have kept : ∀ pr ∈ live slots, pr ∈ live a.slots ∧ doomed m pr = false := by
    intro pr there
    rw [left] at there
    simpa using mem_filter.mp there
  refine ⟨?_, fun pr there => valid.named pr (kept pr there).1, ?_, fun fast => ?_, valid.slow⟩
  · unfold Distinct
    rw [left]
    exact valid.distinct.sublist (Sublist.map _ filter_sublist)
  · intro pr there idx is
    by_contra high
    have cut : doomed m pr = true := doomed_iff.mpr ⟨idx, is, not_lt.mp high⟩
    simp [(kept pr there).2] at cut
  · simp [show a.fastArray = true from fast] at slow

theorem setArrayLength_refines (walkable : Walkable a n) (throws : Bool) :
    Refines (.result (setArrayLength a n throws).1, (setArrayLength a n throws).2)
      ((view a).assignLength n throws) := by
  by_cases fixed : ¬a.lengthWritable = true
  · have result : setArrayLength a n throws = (reject throws (.readOnly lengthKey), a) := if_pos fixed
    rw [View.assignLength, if_pos (show ¬(view a).lengthWritable = true from fixed), result]
    exact refines_fails valid _ _
  · have writable : a.lengthWritable = true := by simpa using fixed
    rw [View.assignLength, if_neg (show ¬¬(view a).lengthWritable = true from fixed)]
    cases fast : a.fastArray with
    | true =>
      have cut := setArrayLength_fast (n := n) ⟨a, valid⟩ writable fast throws
      have result : setArrayLength a n throws =
          (.ok true, { a with values := a.values.take n, length := n }) := setArrayLength_fast_eq writable fast
      obtain ⟨names, short, small⟩ := valid.fast fast
      have valid' : { a with values := a.values.take n, length := n }.Valid := by
        refine ⟨valid.distinct, valid.named, fun pr there idx is => absurd is (names pr there idx),
          fun _ => ⟨names, ?_, ?_⟩, fun slow => ?_⟩
        · simp
        · simp only [length_take]
          omega
        · simp [show a.fastArray = false from slow] at fast
      rw [result] at cut ⊢
      obtain ⟨final, after⟩ := truncates_view valid valid' cut rfl rfl rfl
      refine ⟨?_, valid', after⟩
      rw [final]
      simp
    | false =>
      have cut := (truncates_slow (n := n) ⟨a, valid⟩ writable fast throws).mpr (walkable fast writable)
      have result : setArrayLength a n throws =
          (if (truncate n a.length a.slots).1 > n then reject throws .notConfigurable else .ok true,
            { a with slots := (truncate n a.length a.slots).2, length := (truncate n a.length a.slots).1 }) := by
        simp [setArrayLength, writable, fast]
      rw [result] at cut ⊢
      have left : live (truncate n a.length a.slots).2 =
          (live a.slots).filter fun pr => !doomed (truncate n a.length a.slots).1 pr := by
        have own := cut.own
        simpa [JsArray.own, valid.slow fast] using own
      have valid' := truncated_valid valid fast left
      obtain ⟨final, after⟩ := truncates_view valid valid' cut rfl rfl (by
        rw [show live _ = _ from left, filterMap_filter]
        congr 1
        funext pr
        cases is : pr.key <;> simp [nameOf, doomed, is])
      refine ⟨?_, valid', after⟩
      rw [final]

theorem setLength_refines (env : Env V) (walkable : ∀ n, env.toLength v = some n → Walkable a n) (throws : Bool) :
    Refines (setLength env a v throws) ((view a).setLength env v throws) := by
  unfold setLength View.setLength
  cases is : env.toLength v with
  | none => exact ⟨rfl, valid, rfl⟩
  | some n => exact setArrayLength_refines valid (walkable n is) throws

theorem defineLength_refines (env : Env V)
    (walkable : ∀ v n, desc.value = some v → env.toLength v = some n → Walkable a n) (throws : Bool) :
    Refines (defineLength env a desc throws) ((view a).defineLength env desc throws) := by
  unfold defineLength View.defineLength
  have allowed : checkDefinePropFlags false (view a).lengthWritable false false desc =
      checkDefinePropFlags false a.lengthWritable false false desc := rfl
  simp only [allowed]
  cases value : desc.value with
  | none =>
    simp only
    split
    · exact refines_fails valid _ _
    · exact clearWritable_refines desc ⟨rfl, valid, rfl⟩
  | some v =>
    simp only
    cases is : env.toLength v with
    | none => exact ⟨rfl, valid, rfl⟩
    | some n =>
      simp only
      split
      · exact refines_fails valid _ _
      exact refines_ite (fun _ => refines_ite (fun _ => ⟨rfl, valid, rfl⟩) fun _ => refines_fails valid _ _) fun _ =>
        clearWritable_refines desc (setArrayLength_refines valid (walkable v n value is) throws)

end Length

section Main

variable {a : JsArray V}

theorem View.put_self {w : View V} (there : w.own pr.key = some pr) : w.put pr = w := by
  rw [View.put, ← there, Function.update_eq_self]

variable (valid : a.Valid)

include valid

theorem callSetter_refines (f : Option V) (v : V) (throws : Bool) :
    Refines (callSetter f v throws a) (View.callSetter f v throws (view a)) := by
  cases f with
  | none => exact refines_fails valid _ _
  | some f => exact ⟨rfl, valid, rfl⟩

theorem setNew_refines (absent : a.find key = none) (notLength : key ≠ lengthKey)
    (extensible : a.extensible = true) (room : Room a key) (v : V) (throws : Bool) :
    ∃ s, (match key with
      | .index idx =>
        if a.fastArray ∧ tagged idx ∧ idx = a.values.length then addFastArrayElement a v throws
        else createProperty env a key (.ofValue v) throws
      | .name _ => createProperty env a key (.ofValue v) throws) = some s ∧
      Refines s ((view a).create env key (.ofValue v) throws) := by
  have created := createProperty_refines valid env (.ofValue v) absent notLength room
    (show Definable a key throws from fun _ _ => .inl extensible)
  cases key with
  | name atom => exact created
  | index idx =>
    simp only
    split
    · next last =>
        obtain ⟨fast, -, rfl⟩ := last
        exact addFastArrayElement_refines valid env fast (room rfl) extensible v throws
    · exact created

theorem setProperty_refines (throws : Bool) (walkable : key = lengthKey → ∀ n, env.toLength v = some n → Walkable a n)
    (room : Room a key) : ∃ s, setProperty env a key v throws = some s ∧ Refines s ((view a).set env key v throws) := by
  unfold setProperty View.set
  by_cases isLength : key = lengthKey
  · rw [if_pos isLength, if_pos isLength]
    exact ⟨_, rfl, setLength_refines valid env (walkable isLength) throws⟩
  rw [if_neg isLength, if_neg isLength]
  cases slot : findSlot a.slots key with
  | some found =>
    obtain ⟨here, -⟩ := findSlot_some slot
    rw [view_own, valid.find_slot slot]
    refine ⟨_, rfl, ?_⟩
    simp only [setSlot]
    cases found.2.payload with
    | getset getter setter => exact callSetter_refines valid setter v throws
    | value old =>
      simp only
      split
      · exact ⟨rfl, setSlot_view valid here rfl⟩
      · exact refines_fails valid _ _
  | none =>
    cases fast : a.fastElement key with
    | some old =>
      obtain ⟨idx, rfl, -, value⟩ := fastElement_some fast
      have inside := (List.getElem?_eq_some_iff.mp value).1
      rw [view_own, valid.find_element value]
      exact ⟨_, rfl, rfl, setValue_view valid inside v⟩
    | none =>
      have absent := valid.find_none slot fast
      rw [view_own, absent]
      simp only
      cases env.inherited key with
      | setter f => exact ⟨_, rfl, callSetter_refines valid f v throws⟩
      | readOnly => exact ⟨_, rfl, refines_fails valid _ _⟩
      | free =>
        exact exists_refines_ite (fun _ => ⟨_, rfl, refines_fails valid _ _⟩) fun closed =>
          setNew_refines valid absent isLength (by simpa using closed) room v throws

theorem JsArray.Valid.find_end (fast : a.fastArray = true) : a.find (.index a.values.length) = none := by
  apply valid.find_none (findSlot_none.mpr fun pr there => (valid.fast fast).1 pr there _)
  simp [JsArray.fastElement]

theorem setPropertyValue_refines (v : V) (throws : Bool) (room : Room a (.index idx)) :
    ∃ s, setPropertyValue env a idx v throws = some s ∧ Refines s ((view a).set env (.index idx) v throws) := by
  have notLength : Key.index idx ≠ lengthKey := by simp [lengthKey]
  unfold setPropertyValue
  by_cases inside : idx < a.values.length
  · rw [if_pos inside, View.set, if_neg notLength,
      view_own, valid.find_element (getElem?_eq_getElem inside)]
    exact ⟨_, rfl, rfl, setValue_view valid inside v⟩
  rw [if_neg inside]
  by_cases last : idx = a.values.length ∧ a.fastArray ∧ a.extensible ∧ env.plain
  · rw [if_pos last]
    obtain ⟨rfl, fast, extensible, plain⟩ := last
    rw [View.set, if_neg notLength, view_own, valid.find_end fast]
    simp only [env.plain_free plain _ (valid.fast fast).2.2]
    rw [if_neg (show ¬¬(view a).extensible = true from not_not_intro extensible)]
    exact addFastArrayElement_refines valid env fast (room rfl) extensible v throws
  · rw [if_neg last]
    exact setProperty_refines valid throws (fun isLength => absurd isLength notLength) room

theorem findSlot_convert (value : a.values[idx]? = some v) :
    ∃ i, findSlot (convertFastArrayToArray a).slots (.index idx) = some (i, element idx v) := by
  obtain ⟨valid', same⟩ := convert_view valid
  have own : (convertFastArrayToArray a).find (.index idx) = some (element idx v) := by
    rw [find_convert valid]
    exact valid.find_element value
  cases slot : findSlot (convertFastArrayToArray a).slots (.index idx) with
  | none =>
    simp [valid'.find_none slot rfl] at own
  | some found =>
    rw [valid'.find_slot (i := found.1) slot] at own
    exact ⟨found.1, by rw [← Option.some.inj own]⟩

end Main

section Define

variable [DecidableEq V] {a : JsArray V}

theorem redefine_key (made : redefine env pr desc = some pr') : pr'.key = pr.key := by
  unfold redefine at made
  split at made
  · obtain ⟨payload, -, rfl⟩ := Option.map_eq_some_iff.mp made
    rfl
  · cases made

theorem defineSlot_refines (valid : a.Valid) (slot : a.slots[i]? = some (some pr)) (desc : Desc V) (throws : Bool) :
    Refines (defineSlot env a i pr desc throws)
      (match redefine env pr desc with
      | none => View.fails throws .propertyNotConfigurable (view a)
      | some new => View.ok ((view a).put new)) := by
  unfold defineSlot
  cases made : redefine env pr desc with
  | none => exact refines_fails valid _ _
  | some new => exact ⟨rfl, setSlot_view valid slot (redefine_key made)⟩

theorem redefine_element (idx : Nat) (old : V) (all : desc.givesAll true = true) (data : desc.isAccessor = false) :
    redefine env (element idx old) desc = some (element idx (desc.value.getD old)) := by
  have flags : (if desc.hasConfigurable then desc.configurable else true) = true ∧
      (if desc.hasWritable then desc.writable else true) = true ∧
      (if desc.hasEnumerable then desc.enumerable else true) = true := by
    simpa only [Desc.givesAll, Bool.and_eq_true, and_assoc] using all
  have payload : definePayload env (element idx old) desc = some (true, .value (desc.value.getD old)) := by
    unfold definePayload
    rw [data]
    cases desc.value with
    | none =>
      cases has : desc.hasWritable with
      | false => rfl
      | true => simpa [element, has] using flags.2.1
    | some v => simpa [element] using flags.2.1
  have check : checkDefinePropFlags true true true false desc = true := rfl
  rw [redefine, payload]
  simp [element, Payload.isGetset, check, flags.1, flags.2.2]

theorem defineProperty_refines (valid : a.Valid) (throws : Bool)
    (walkable : key = lengthKey → ∀ v n, desc.value = some v → env.toLength v = some n → Walkable a n)
    (room : Room a key) (definable : Definable a key throws) :
    ∃ s, defineProperty env a key desc throws = some s ∧ Refines s ((view a).define env key desc throws) := by
  unfold defineProperty View.define
  by_cases isLength : key = lengthKey
  · rw [if_pos isLength, if_pos isLength]
    exact ⟨_, rfl, defineLength_refines valid env (walkable isLength) throws⟩
  rw [if_neg isLength, if_neg isLength]
  cases slot : findSlot a.slots key with
  | some found =>
    obtain ⟨here, -⟩ := findSlot_some slot
    rw [view_own, valid.find_slot slot]
    exact ⟨_, rfl, defineSlot_refines valid here desc throws⟩
  | none =>
    cases fast : a.fastElement key with
    | none =>
      have absent := valid.find_none slot fast
      rw [view_own, absent]
      cases key <;> exact createProperty_refines valid env desc absent isLength room definable
    | some old =>
      obtain ⟨idx, rfl, -, value⟩ := fastElement_some fast
      have own : (view a).own (.index idx) = some (element idx old) := valid.find_element value
      rw [own]
      simp only
      by_cases special : ¬desc.givesAll true = true ∨ desc.isAccessor = true
      · rw [if_pos special]
        obtain ⟨valid', same⟩ := convert_view valid
        obtain ⟨i, converted⟩ := findSlot_convert valid value
        simp only [converted]
        rw [← same]
        exact ⟨_, rfl, defineSlot_refines valid' (findSlot_some converted).1 desc throws⟩
      · rw [if_neg special]
        simp only [not_or, Bool.not_eq_true, Bool.not_eq_false] at special
        rw [redefine_element idx old special.1 special.2]
        cases desc.value with
        | none =>
          refine ⟨_, rfl, rfl, valid, ?_⟩
          exact (View.put_self own).symm
        | some v =>
          exact ⟨_, rfl, rfl, setValue_view valid (List.getElem?_eq_some_iff.mp value).1 v⟩

end Define

section Delete

variable {a : JsArray V}

theorem deleteSlot_refines (valid : a.Valid) (slot : a.slots[i]? = some (some pr)) (throws : Bool) : Refines
      (if (deleteProperty a.slots pr.key).1 then ok { a with slots := (deleteProperty a.slots pr.key).2 }
      else fails throws .couldNotDelete { a with slots := (deleteProperty a.slots pr.key).2 })
      (if pr.configurable then View.ok ((view a).remove pr.key) else View.fails throws .couldNotDelete (view a)) := by
  rw [valid.distinct.deleteProperty slot]
  split
  · exact ⟨rfl, removeSlot_view valid slot⟩
  · exact refines_fails valid _ _

theorem deleteKey_refines (valid : a.Valid) (key : Key) (throws : Bool) :
    Refines (deleteKey a key throws) ((view a).delete key throws) := by
  unfold deleteKey View.delete
  by_cases isLength : key = lengthKey
  · simp only [if_pos isLength]
    exact refines_fails valid _ _
  simp only [if_neg isLength]
  cases place : findOwnProperty a.slots key with
  | some i =>
    obtain ⟨pr, slot, rfl⟩ := findOwnProperty_spec place
    have own : (view a).own pr.key = some pr :=
      valid.find_eq_some.mpr ⟨mem_own.mpr (.inr (mem_live.mpr (mem_of_getElem? slot))), rfl⟩
    simp only [own]
    exact deleteSlot_refines valid slot throws
  | none =>
    have noSlot := findSlot_none.mpr (findOwnProperty_eq_none.mp place)
    cases key with
    | name atom =>
      rw [view_own, valid.find_none noSlot rfl]
      exact ⟨rfl, valid, rfl⟩
    | index idx =>
      simp only
      by_cases inside : a.fastArray = true ∧ idx < a.values.length
      · have value := getElem?_eq_getElem inside.2
        rw [if_pos inside, view_own, valid.find_element value]
        by_cases last : idx = a.values.length - 1
        · rw [if_pos last]
          exact ⟨rfl, dropValue_view valid (by omega)⟩
        · rw [if_neg last]
          obtain ⟨valid', same⟩ := convert_view valid
          obtain ⟨i, converted⟩ := findSlot_convert valid value
          rw [← same]
          exact deleteSlot_refines valid' (findSlot_some converted).1 throws
      · rw [if_neg inside]
        have noElement : a.fastElement (.index idx) = none := by
          refine Option.eq_none_iff_forall_ne_some.mpr fun v found => inside ?_
          obtain ⟨_, ⟨⟩, fast, value⟩ := fastElement_some found
          exact ⟨fast, (List.getElem?_eq_some_iff.mp value).1⟩
        rw [view_own, valid.find_none noSlot noElement]
        exact ⟨rfl, valid, rfl⟩

end Delete

section Keys

variable {a b : JsArray V}

theorem own_perm (valid : a.Valid) (valid' : b.Valid) (same : view a = view b) : a.own.Perm b.own := by
  refine (perm_ext_iff_of_nodup valid.nodup.of_map valid'.nodup.of_map).mpr fun pr => ?_
  have find : a.find pr.key = b.find pr.key := congrFun (congrArg View.own same) pr.key
  have there : a.find pr.key = some pr ↔ pr ∈ a.own ∧ pr.key = pr.key := valid.find_eq_some
  have there' : b.find pr.key = some pr ↔ pr ∈ b.own ∧ pr.key = pr.key := valid'.find_eq_some
  rw [find] at there
  simpa using there.symm.trans there'

theorem mergeSort_eq {l l' : List (Nat × Bool)} (perm : l.Perm l') (nodup : (l.map Prod.fst).Nodup) :
    (l.mergeSort fun x y => x.1 ≤ y.1) = l'.mergeSort fun x y => x.1 ≤ y.1 := by
  have perm' := ((mergeSort_perm l fun x y => x.1 ≤ y.1).trans perm).trans
    (mergeSort_perm l' fun x y => x.1 ≤ y.1).symm
  have sorted : ∀ l : List (Nat × Bool),
      (l.mergeSort fun x y => x.1 ≤ y.1).Pairwise fun x y => decide (x.1 ≤ y.1) = true :=
    pairwise_mergeSort (by simp only [decide_eq_true_eq]; omega)
      (by simp only [Bool.or_eq_true, decide_eq_true_eq]; omega)
  refine perm'.eq_of_pairwise ?_ (sorted l) (sorted l')
  intro x y first second below above
  have same : x.1 = y.1 := by
    simp only [decide_eq_true_eq] at below above
    omega
  exact inj_on_of_nodup_map nodup (mem_mergeSort.mp first)
    (perm.mem_iff.mpr (mem_mergeSort.mp second)) same

theorem nodup_indices (valid : a.Valid) : ((a.own.filterMap indexEntry).map Prod.fst).Nodup := by
  have keys : (((a.own.filterMap indexEntry).map Prod.fst).map Key.index).Sublist (a.own.map Property.key) := by
    induction a.own with
    | nil => exact Sublist.slnil
    | cons pr rest ih =>
      cases is : pr.key with
      | index idx => simpa [indexEntry, is] using ih
      | name atom => simpa [indexEntry, is] using ih.cons _
  exact (valid.nodup.sublist keys).of_map

theorem names_view (valid : a.Valid) : (live a.slots).filterMap nameEntry = (view a).names.map fun atom =>
      (atom, ((view a).own (.name atom)).any Property.enumerable) := by
  rw [show (view a).names = (live a.slots).filterMap nameOf from rfl, map_filterMap]
  refine filterMap_congr fun pr there => ?_
  cases is : pr.key with
  | index idx => simp [nameOf, nameEntry, is]
  | name atom =>
    have own : (view a).own (.name atom) = some pr := valid.find_eq_some.mpr ⟨mem_own.mpr (.inr there), is⟩
    simp [nameOf, nameEntry, is, own]

theorem ownKeys_view (env : Env V) (valid : a.Valid) (valid' : b.Valid) (same : view a = view b) :
    ownKeys env a = ownKeys env b := by
  have indices := mergeSort_eq ((own_perm valid valid' same).filterMap indexEntry) (nodup_indices valid)
  simp [ownKeys, names_view valid, names_view valid', same, indices]

end Keys

/-- The operation is none of those on which the two representations of an array differ. -/
def Allowed (env : Env V) (a : JsArray V) : Op V → Prop
  | .set key v _ => (key = lengthKey → ∀ n, env.toLength v = some n → Walkable a n) ∧ Room a key
  | .setValue idx _ _ => Room a (.index idx)
  | .define key desc throws =>
    (key = lengthKey → ∀ v n, desc.value = some v → env.toLength v = some n → Walkable a n) ∧
      Room a key ∧ Definable a key throws
  | _ => True

section Run

variable [DecidableEq V]

def run (env : Env V) (a : JsArray V) : List (Op V) → Option (List (Outcome V))
  | [] => some []
  | op :: ops =>
    match step env a op with
    | none => none
    | some s => (run env s.2 ops).map (s.1 :: ·)

def AllowedRun (env : Env V) (a : JsArray V) : List (Op V) → Prop
  | [] => True
  | op :: ops => Allowed env a op ∧ ∀ s, step env a op = some s → AllowedRun env s.2 ops

theorem step_same {a b : JsArray V} (valid : a.Valid) (valid' : b.Valid) (same : view a = view b)
    {op : Op V} (allowed : Allowed env a op) (allowed' : Allowed env b op) :
    ∃ s s', step env a op = some s ∧ step env b op = some s' ∧ s.1 = s'.1 ∧ s.2.Valid ∧ s'.2.Valid ∧
      view s.2 = view s'.2 := by
  have both : ∀ (spec : View V → View.Step V) {o o' : Option (Step V)},
      (∃ s, o = some s ∧ Refines s (spec (view a))) → (∃ s, o' = some s ∧ Refines s (spec (view b))) →
      ∃ s s', o = some s ∧ o' = some s' ∧ s.1 = s'.1 ∧ s.2.Valid ∧ s'.2.Valid ∧ view s.2 = view s'.2 := by
    rintro spec _ _ ⟨s, rfl, outcome, sound, after⟩ ⟨s', rfl, outcome', sound', after'⟩
    rw [same] at outcome after
    exact ⟨s, s', rfl, rfl, outcome.trans outcome'.symm, sound, sound', after.trans after'.symm⟩
  cases op with
  | get key =>
    refine ⟨_, _, rfl, rfl, ?_, valid, valid', same⟩
    simp [getProperty_view env valid, getProperty_view env valid', same]
  | getValue idx =>
    refine ⟨_, _, rfl, rfl, ?_, valid, valid', same⟩
    simp [getPropertyValue_view env valid, getPropertyValue_view env valid', same]
  | set key v throws =>
    exact both (fun w => w.set env key v throws) (setProperty_refines valid throws allowed.1 allowed.2)
      (setProperty_refines valid' throws allowed'.1 allowed'.2)
  | setValue idx v throws =>
    exact both (fun w => w.set env (.index idx) v throws)
      (setPropertyValue_refines valid v throws allowed) (setPropertyValue_refines valid' v throws allowed')
  | define key desc throws =>
    exact both (fun w => w.define env key desc throws) (defineProperty_refines valid throws allowed.1 allowed.2.1
      allowed.2.2) (defineProperty_refines valid' throws allowed'.1 allowed'.2.1 allowed'.2.2)
  | delete key throws =>
    exact both (fun w => w.delete key throws)
      ⟨_, rfl, deleteKey_refines valid key throws⟩ ⟨_, rfl, deleteKey_refines valid' key throws⟩
  | ownKeys =>
    refine ⟨_, _, rfl, rfl, ?_, valid, valid', same⟩
    simp [ownKeys_view env valid valid' same]

theorem run_same {a b : JsArray V} (valid : a.Valid) (valid' : b.Valid)
    (same : view a = view b) {ops : List (Op V)} (allowed : AllowedRun env a ops)
    (allowed' : AllowedRun env b ops) : ∃ outcomes, run env a ops = some outcomes ∧ run env b ops = some outcomes := by
  induction ops generalizing a b with
  | nil => exact ⟨[], rfl, rfl⟩
  | cons op ops ih =>
    obtain ⟨s, s', done, done', outcome, sound, sound', after⟩ :=
      step_same valid valid' same allowed.1 allowed'.1
    obtain ⟨outcomes, rest, rest'⟩ := ih sound sound' after (allowed.2 s done) (allowed'.2 s' done')
    refine ⟨s.1 :: outcomes, ?_, ?_⟩
    · simp [run, done, rest]
    · simp [run, done', rest', outcome]

/-- In a run that does nothing on which the representations differ, an array and its conversion
give the same outcomes. -/
theorem run_convertFastArrayToArray (env : Env V) (a : LiveArray V) (ops : List (Op V))
    (allowed : AllowedRun env a.toJsArray ops) (allowed' : AllowedRun env (convertFastArrayToArray a.toJsArray) ops) :
    ∃ outcomes, run env a.toJsArray ops = some outcomes ∧
      run env (convertFastArrayToArray a.toJsArray) ops = some outcomes := by
  obtain ⟨valid, same⟩ := convert_view a.valid
  exact run_same a.valid valid same.symm allowed allowed'

end Run

section Runs

def numbers : Env Nat where
  undefined := 0
  ofLength := id
  toLength := some
  isSymbol _ := false
  inherited _ := .free
  plain := true
  plain_free _ _ _ := rfl

def pair : LiveArray Nat where
  length := 2
  lengthWritable := true
  slots := []
  fastArray := true
  values := [7, 8]
  extensible := true
  valid := ⟨by simp [Distinct], by simp, by simp, fun _ => ⟨by simp, by simp, by simp⟩, by simp⟩

def shrink : List (Op Nat) :=
  [.delete (.index 0) true, .set (.index 2) 9 true, .set lengthKey 2 true, .ownKeys]

theorem allowed_shrink (b : JsArray Nat) (is : b = pair.toJsArray ∨ b = convertFastArrayToArray pair.toJsArray) :
    AllowedRun numbers b shrink := by
  rcases is with rfl | rfl
  all_goals
    refine ⟨trivial, ?_⟩
    rintro _ ⟨⟩
    refine ⟨⟨by simp [lengthKey], fun _ => by decide⟩, ?_⟩
    rintro _ ⟨⟩
    refine ⟨⟨?_, fun _ => by decide⟩, ?_⟩
    · -- three properties are not few for a length of three
      rintro - _ ⟨⟩ - - ⟨-, few⟩
      exact absurd few (by decide)
    · rintro _ ⟨⟩
      exact ⟨trivial, fun _ _ => trivial⟩

theorem run_convertFastArrayToArray_pair :
    ∃ outcomes, run numbers pair.toJsArray shrink = some outcomes ∧
      run numbers (convertFastArrayToArray pair.toJsArray) shrink = some outcomes :=
  run_convertFastArrayToArray numbers pair shrink (allowed_shrink _ (.inl rfl)) (allowed_shrink _ (.inr rfl))

def sealed : LiveArray Nat where
  length := 0
  lengthWritable := true
  slots := []
  fastArray := true
  values := []
  extensible := false
  valid := ⟨by simp [Distinct], by simp, by simp, fun _ => ⟨by simp, by simp, by simp⟩, by simp⟩

/-- Defining an element fails on both arrays, but the slow one becomes longer. -/
theorem sealed_differ :
    run numbers sealed.toJsArray [.define (.index 0) (.ofValue 7) false, .get lengthKey] = some
        [.result (.ok false), .value 0] ∧
      run numbers (convertFastArrayToArray sealed.toJsArray) [.define (.index 0) (.ofValue 7) false, .get lengthKey] =
        some [.result (.ok false), .value 1] :=
  ⟨rfl, rfl⟩

end Runs

end Arrays
