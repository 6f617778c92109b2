import Partikle.Map.Core

/-!
`Map` and `Set` as ECMAScript defines them: an ordered list of entries in which
deleting an entry leaves an empty place, and cursors that are indices into it.
-/

namespace JsMap

open List Option

def firstFrom {E : Type} (wanted : E → Bool) (data : List E) (index : Nat) : Option Nat :=
  ((data.drop index).findIdx? wanted).map (· + index)

section FirstFrom

variable {E : Type} {wanted : E → Bool} {data : List E} {index : Nat}

theorem firstFrom_eq_some {i : Nat} {entry : E} (after : index ≤ i) (there : data[i]? = some entry)
    (holds : wanted entry = true)
    (before : ∀ j other, index ≤ j → j < i → data[j]? = some other → wanted other = false) :
    firstFrom wanted data index = some i := by
  have found : (data.drop index).findIdx? wanted = some (i - index) := by
    obtain ⟨bound, same⟩ := List.getElem?_eq_some_iff.mp there
    rw [findIdx?_eq_some_iff_getElem]
    refine ⟨by simp; omega, ?_, ?_⟩
    · have place : index + (i - index) = i := by omega
      simp [place, same, holds]
    · intro j small
      have out := before (index + j) (data.get ⟨index + j, by omega⟩) (by omega) (by omega)
      simpa using out
  simp [firstFrom, found, after]

theorem firstFrom_eq_none (before : ∀ j other, index ≤ j → data[j]? = some other → wanted other = false) :
    firstFrom wanted data index = none := by
  have absent : (data.drop index).findIdx? wanted = none := by
    rw [findIdx?_eq_none_iff]
    intro entry member
    obtain ⟨j, bound, same⟩ := getElem_of_mem member
    rw [getElem_drop] at same
    exact before (index + j) entry (by omega) (by rw [← same]; exact getElem?_eq_getElem _)
  simp [firstFrom, absent]

theorem firstFrom_found {i : Nat} (found : firstFrom wanted data index = some i) :
    ∃ entry, data[i]? = some entry ∧ wanted entry = true := by
  simp only [firstFrom, map_eq_some_iff] at found
  obtain ⟨offset, there, rfl⟩ := found
  obtain ⟨bound, holds, -⟩ := findIdx?_eq_some_iff_getElem.mp there
  rw [getElem_drop] at holds
  refine ⟨_, ?_, holds⟩
  rw [Nat.add_comm offset index]
  exact getElem?_eq_getElem _

end FirstFrom

abbrev MapData := List (Option (JsValue × JsValue))

/-- A cursor's kind and the index it continues at, `none` once it has finished. -/
structure EcmaCursor where
  kind : CursorKind
  index : Option Nat
deriving DecidableEq

structure EcmaState where
  isSet : Bool
  data : MapData
  cursors : List EcmaCursor
deriving DecidableEq

def hasKey (key : JsValue) : Option (JsValue × JsValue) → Bool
  | some (existing, _) => sameValueZero existing key
  | none => false

def ecmaFind (key : JsValue) (data : MapData) : Option Nat := firstFrom (hasKey key) data 0

def ecmaSet (key value : JsValue) (allocated : Bool) (es : EcmaState) : EcmaState × Output :=
  let key := mapNormalizeKey key
  let value := if es.isSet then .undefined else value
  match ecmaFind key es.data with
  | some i => ({ es with data := es.data.modify i (Option.map fun entry => (entry.1, value)) }, .this)
  | none =>
    if allocated then ({ es with data := es.data ++ [some (key, value)] }, .this)
    else (es, .exception)

def ecmaDelete (key : JsValue) (es : EcmaState) : EcmaState × Output :=
  match ecmaFind (mapNormalizeKey key) es.data with
  | some i => ({ es with data := es.data.set i none }, .bool true)
  | none => (es, .bool false)

def ecmaClear (es : EcmaState) : EcmaState × Output :=
  ({ es with data := es.data.map fun _ => none }, .undefined)

def ecmaAdvance (i : Nat) (kind : CursorKind) (index : Nat) (es : EcmaState) : EcmaState × Output :=
  match firstFrom Option.isSome es.data index with
  | none => ({ es with cursors := es.cursors.set i ⟨kind, none⟩ }, .done)
  | some place =>
    match es.data[place]? with
    | some (some (key, value)) =>
      ({ es with cursors := es.cursors.set i ⟨kind, some (place + 1)⟩ },
        .item (makeItem kind es.isSet key value))
    | _ => (es, .done)

def ecmaNext (i : Nat) (es : EcmaState) : EcmaState × Output :=
  match es.cursors[i]? with
  | some ⟨kind, some index⟩ => ecmaAdvance i kind index es
  | _ => (es, .done)

def ecmaStep (op : Op) (es : EcmaState) : EcmaState × Output :=
  match op with
  | .set key value alloc _ _ => ecmaSet key value alloc.isSome es
  | .delete key _ => ecmaDelete key es
  | .clear _ => ecmaClear es
  | .createIterator kind => ({ es with cursors := es.cursors ++ [⟨.iterator kind, some 0⟩] }, .this)
  | .next i => ecmaNext i es
  | .forEach =>
    ecmaAdvance es.cursors.length .forEach 0
      { es with cursors := es.cursors ++ [⟨.forEach, some 0⟩] }
  | .callbackReturns i throws _ _ =>
    if throws then
      ({ es with cursors := es.cursors.set i ⟨.forEach, none⟩ }, .exception)
    else ecmaNext i es
  | .finalize _ => (es, .undefined)

def ecmaRun : List Op → EcmaState → EcmaState × List Output
  | [], es => (es, [])
  | op :: ops, es =>
    let (es, out) := ecmaStep op es
    let (es, outs) := ecmaRun ops es
    (es, out :: outs)

def newEcma (isSet : Bool) : EcmaState := ⟨isSet, [], []⟩

variable {es : EcmaState} {i : Nat} {kind : CursorKind}

theorem ecmaAdvance_other {j index : Nat} (different : j ≠ i) :
    (ecmaAdvance j kind index es).1.cursors[i]? = es.cursors[i]? := by
  unfold ecmaAdvance
  split
  · exact getElem?_set_ne different
  · split
    · exact getElem?_set_ne different
    · rfl

theorem ecmaNext_finished (finished : es.cursors[i]? = some ⟨kind, none⟩) : ecmaNext i es = (es, .done) := by
  simp [ecmaNext, finished]

theorem ecmaStep_finished (op : Op) (finished : es.cursors[i]? = some ⟨kind, none⟩) :
    ∃ kind', (ecmaStep op es).1.cursors[i]? = some ⟨kind', none⟩ := by
  have inside : i < es.cursors.length := (List.getElem?_eq_some_iff.mp finished).1
  have next : ∀ j, (ecmaNext j es).1.cursors[i]? = some ⟨kind, none⟩ := by
    intro j
    by_cases same : j = i
    · rwa [same, ecmaNext_finished finished]
    · unfold ecmaNext
      split
      · rwa [ecmaAdvance_other same]
      · exact finished
  cases op with
  | set key value alloc slack dying =>
    refine ⟨kind, ?_⟩
    simp only [ecmaStep, ecmaSet]
    split
    · exact finished
    · split <;> exact finished
  | delete key dying =>
    refine ⟨kind, ?_⟩
    simp only [ecmaStep, ecmaDelete]
    split <;> exact finished
  | clear _ | finalize _ => exact ⟨kind, finished⟩
  | createIterator kind' => exact ⟨kind, by simpa [ecmaStep, getElem?_append_left inside] using finished⟩
  | next j => exact ⟨kind, next j⟩
  | forEach =>
    refine ⟨kind, ?_⟩
    have different : es.cursors.length ≠ i := by omega
    simp only [ecmaStep, ecmaAdvance_other different, getElem?_append_left inside]
    exact finished
  | callbackReturns j throws dyingArgs dying =>
    cases throws with
    | false => exact ⟨kind, next j⟩
    | true =>
      simp only [ecmaStep, ↓reduceIte]
      by_cases same : j = i
      · exact ⟨.forEach, by simp [same, inside]⟩
      · exact ⟨kind, by rwa [getElem?_set_ne same]⟩

theorem ecmaNext_done (inside : i < es.cursors.length) (done : (ecmaNext i es).2 = .done) :
    ∃ kind, (ecmaNext i es).1.cursors[i]? = some ⟨kind, none⟩ := by
  have there := getElem?_eq_getElem inside
  cases shape : es.cursors[i] with
  | mk kind index =>
    rw [shape] at there
    cases index with
    | none =>
      rw [ecmaNext_finished there]
      exact ⟨kind, there⟩
    | some index =>
      simp only [ecmaNext, there] at done ⊢
      unfold ecmaAdvance at done ⊢
      cases found : firstFrom Option.isSome es.data index with
      | none => exact ⟨kind, by simp [inside]⟩
      | some place =>
        obtain ⟨entry, present, filled⟩ := firstFrom_found found
        obtain ⟨pair, rfl⟩ := isSome_iff_exists.mp filled
        simp [found, present] at done

theorem ecmaRun_finished {ops : List Op} (finished : es.cursors[i]? = some ⟨kind, none⟩) {k : Nat}
    (called : ops[k]? = some (.next i)) : (ecmaRun ops es).2[k]? = some .done := by
  induction ops generalizing es kind k with
  | nil => simp at called
  | cons op ops ih =>
    cases k with
    | zero =>
      simp only [getElem?_cons_zero, some.injEq] at called
      subst called
      simp [ecmaRun, ecmaStep, ecmaNext_finished finished]
    | succ k =>
      obtain ⟨kind', still⟩ := ecmaStep_finished op finished
      simpa [ecmaRun] using ih still (by simpa using called)

end JsMap
