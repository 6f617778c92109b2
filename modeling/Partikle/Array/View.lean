import Partikle.Array.Ops
import Mathlib.Data.List.Sort
import Mathlib.Logic.Function.Basic

/-!
What an array is to a program, whether it is fast or not: a map from keys to properties, the
order of its names, and its length.
-/

namespace Arrays

open Function List

variable {V : Type}

structure View (V : Type) where
  length : Nat
  lengthWritable : Bool
  extensible : Bool
  own : Key → Option (Property V)
  names : List (BitVec 32)

def nameOf (pr : Property V) : Option (BitVec 32) :=
  match pr.key with
  | .index _ => none
  | .name atom => some atom

def JsArray.find (a : JsArray V) (key : Key) : Option (Property V) := a.own.find? fun pr => pr.key = key

def view (a : JsArray V) : View V :=
  ⟨a.length, a.lengthWritable, a.extensible, a.find, (live a.slots).filterMap nameOf⟩

variable {values : List V} {slots : Slots V} {i idx : Nat} {v : V}

section Find

variable {a a' : JsArray V} {pr : Property V} {key : Key}

theorem mem_elements : pr ∈ values.mapIdx element ↔ ∃ idx v, values[idx]? = some v ∧ element idx v = pr := by
  rw [mem_mapIdx]
  constructor
  · rintro ⟨idx, inside, rfl⟩
    exact ⟨idx, values[idx], getElem?_eq_getElem inside, rfl⟩
  · rintro ⟨idx, v, there, rfl⟩
    obtain ⟨inside, rfl⟩ := List.getElem?_eq_some_iff.mp there
    exact ⟨idx, inside, rfl⟩

theorem mem_own : pr ∈ a.own ↔ (∃ idx v, a.values[idx]? = some v ∧ element idx v = pr) ∨ pr ∈ live a.slots := by
  rw [JsArray.own, mem_append, mem_elements]

theorem findSlot_some (found : findSlot slots key = some (i, pr)) : slots[i]? = some (some pr) ∧ pr.key = key := by
  obtain ⟨j, place, here⟩ := Option.bind_eq_some_iff.mp found
  obtain ⟨pr', slot, same⟩ := findOwnProperty_spec place
  simp only [slot, Option.join_some, Option.map_some, Option.some.injEq, Prod.mk.injEq] at here
  obtain ⟨rfl, rfl⟩ := here
  exact ⟨slot, same⟩

theorem findSlot_none : findSlot slots key = none ↔ ∀ pr ∈ live slots, pr.key ≠ key := by
  rw [← findOwnProperty_eq_none]
  unfold findSlot
  cases place : findOwnProperty slots key with
  | none => simp
  | some i =>
    obtain ⟨pr, slot, -⟩ := findOwnProperty_spec place
    simp [slot]

theorem fastElement_some (found : a.fastElement key = some v) :
    ∃ idx, key = .index idx ∧ a.fastArray = true ∧ a.values[idx]? = some v := by
  unfold JsArray.fastElement at found
  cases key with
  | name atom => cases found
  | index idx =>
    simp only at found
    split at found
    · next fast => exact ⟨idx, rfl, by simp_all, found⟩
    · cases found

variable (valid : a.Valid)

include valid

theorem JsArray.Valid.key_ne (value : a.values[idx]? = some v) (there : pr ∈ live a.slots) : pr.key ≠ .index idx := by
  cases fast : a.fastArray with
  | true => exact (valid.fast fast).1 pr there idx
  | false =>
    rw [valid.slow fast] at value
    simp at value

theorem JsArray.Valid.nodup : (a.own.map Property.key).Nodup := by
  rw [JsArray.own, map_append, nodup_append]
  refine ⟨?_, valid.distinct, ?_⟩
  · rw [nodup_iff_injective_getElem]
    intro i j same
    simpa [element, Fin.ext_iff] using same
  · rintro key first _ second rfl
    obtain ⟨pr, there, rfl⟩ := mem_map.mp first
    obtain ⟨other, there', same⟩ := mem_map.mp second
    obtain ⟨idx, v, value, rfl⟩ := mem_elements.mp there
    exact valid.key_ne value there' same

theorem JsArray.Valid.find_eq_some : a.find key = some pr ↔ pr ∈ a.own ∧ pr.key = key := by
  unfold JsArray.find
  constructor
  · intro found
    exact ⟨mem_of_find?_eq_some found, by simpa using find?_some found⟩
  · rintro ⟨there, rfl⟩
    cases found : a.own.find? fun other => other.key = pr.key with
    | none =>
      have other := find?_eq_none.mp found pr there
      simp at other
    | some other =>
      have same : other.key = pr.key := by simpa using find?_some found
      rw [inj_on_of_nodup_map valid.nodup (mem_of_find?_eq_some found) there same]

theorem JsArray.Valid.find_eq_none : a.find key = none ↔ ∀ pr ∈ a.own, pr.key ≠ key := by
  rw [Option.eq_none_iff_forall_ne_some]
  constructor
  · intro none pr there same
    exact none pr (valid.find_eq_some.mpr ⟨there, same⟩)
  · intro none pr found
    obtain ⟨there, same⟩ := valid.find_eq_some.mp found
    exact none pr there same

theorem find_update (key : Key) (new : Option (Property V)) (valid' : a'.Valid)
    (isKey : ∀ pr, new = some pr → pr.key = key)
    (members : ∀ pr, pr ∈ a'.own ↔ new = some pr ∨ pr ∈ a.own ∧ pr.key ≠ key) : a'.find = update a.find key new := by
  funext k
  apply Option.ext
  intro pr
  rw [valid'.find_eq_some, members]
  rcases eq_or_ne k key with rfl | same
  · rw [update_self]
    constructor
    · rintro ⟨is | ⟨-, other⟩, isKey'⟩
      · exact is
      · exact absurd isKey' other
    · intro is
      exact ⟨.inl is, isKey pr is⟩
  · rw [update_of_ne same, valid.find_eq_some]
    constructor
    · rintro ⟨is | ⟨there, -⟩, rfl⟩
      · exact absurd (isKey pr is) same
      · exact ⟨there, rfl⟩
    · rintro ⟨there, rfl⟩
      exact ⟨.inr ⟨there, same⟩, rfl⟩

theorem JsArray.Valid.find_slot (found : findSlot a.slots key = some (i, pr)) : a.find key = some pr := by
  obtain ⟨slot, same⟩ := findSlot_some found
  exact valid.find_eq_some.mpr ⟨mem_own.mpr (.inr (mem_live.mpr (mem_of_getElem? slot))), same⟩

theorem JsArray.Valid.find_element (there : a.values[idx]? = some v) : a.find (.index idx) = some (element idx v) :=
  valid.find_eq_some.mpr ⟨mem_own.mpr (.inl ⟨idx, v, there, rfl⟩), rfl⟩

theorem JsArray.Valid.find_none (noSlot : findSlot a.slots key = none)
    (noElement : a.fastElement key = none) : a.find key = none := by
  rw [valid.find_eq_none]
  intro pr there same
  rcases mem_own.mp there with ⟨idx, v, value, rfl⟩ | slot
  · subst same
    cases fast : a.fastArray with
    | true =>
      have inside := (List.getElem?_eq_some_iff.mp value).1
      have small := (valid.fast fast).2.2
      have isTagged : tagged idx = true := by
        unfold tagged
        simp
        omega
      simp [JsArray.fastElement, element, fast, isTagged] at noElement
      omega
    | false =>
      rw [valid.slow fast] at value
      simp at value
  · exact findSlot_none.mp noSlot pr slot same

end Find

namespace View

def put (w : View V) (pr : Property V) : View V := { w with own := update w.own pr.key (some pr) }

def add (w : View V) (pr : Property V) : View V := { w.put pr with names := w.names ++ (nameOf pr).toList }

def remove (w : View V) (key : Key) : View V :=
  { w with
    own := update w.own key none
    names := w.names.filter fun atom => .name atom ≠ key }

end View

section Changes

variable {a : JsArray V} {pr new : Property V}

theorem live_set (slots : Slots V) (i : Nat) (inside : i < slots.length) (new : Property V) :
    live (slots.set i (some new)) = live (slots.take i) ++ new :: live (slots.drop (i + 1)) := by
  rw [set_eq_take_append_cons_drop, if_pos inside, live_append, live_cons_some]

theorem filterMap_nameOf (props : List (Property V)) : props.filterMap nameOf = (props.map Property.key).filterMap fun
      | .index _ => none
      | .name atom => some atom := by
  rw [filterMap_map]
  rfl

variable (valid : a.Valid)

include valid

theorem JsArray.Valid.of_keys (distinct : Distinct slots)
    (keys : ∀ pr ∈ live slots, ∃ old ∈ live a.slots, old.key = pr.key) : { a with slots }.Valid := by
  refine ⟨distinct, ?_, ?_, ?_, valid.slow⟩
  · intro pr there
    obtain ⟨old, there', same⟩ := keys pr there
    exact same ▸ valid.named old there'
  · intro pr there idx is
    obtain ⟨old, there', same⟩ := keys pr there
    exact valid.below old there' idx (same.trans is)
  · intro fast
    refine ⟨fun pr there idx is => ?_, (valid.fast fast).2⟩
    obtain ⟨old, there', same⟩ := keys pr there
    exact (valid.fast fast).1 old there' idx (same.trans is)

theorem setSlot_view (slot : a.slots[i]? = some (some pr)) (same : new.key = pr.key) :
    { a with slots := a.slots.set i (some new) }.Valid ∧
      view { a with slots := a.slots.set i (some new) } = (view a).put new := by
  have inside := (List.getElem?_eq_some_iff.mp slot).1
  have before := live_split slot
  have after := live_set a.slots i inside new
  have others := valid.distinct.others slot
  have keys : (live (a.slots.set i (some new))).map Property.key = (live a.slots).map Property.key := by
    rw [after, before]
    simp [same]
  have valid' := valid.of_keys ((congrArg Nodup keys).mpr valid.distinct) fun pr there =>
    mem_map.mp (keys ▸ mem_map_of_mem there)
  refine ⟨valid', ?_⟩
  have own := find_update valid new.key (some new) valid' (by simp) fun other => by
    have elements : ∀ idx v, a.values[idx]? = some v → element idx v = other → other.key ≠ new.key := by
      rintro idx v value rfl isKey
      exact valid.key_ne value (mem_live.mpr (mem_of_getElem? slot)) (same.symm.trans isKey.symm)
    have rest := others other
    rw [← same] at rest
    rw [mem_own, mem_own, after, before]
    simp only [mem_append, mem_cons, Option.some.injEq] at rest ⊢
    constructor
    · rintro (⟨idx, v, value, is⟩ | front | rfl | back)
      · exact .inr ⟨.inl ⟨idx, v, value, is⟩, elements idx v value is⟩
      · exact .inr ⟨.inr (.inl front), rest (.inl front)⟩
      · exact .inl rfl
      · exact .inr ⟨.inr (.inr (.inr back)), rest (.inr back)⟩
    · rintro (rfl | ⟨⟨idx, v, value, is⟩ | front | rfl | back, key⟩)
      · exact .inr (.inr (.inl rfl))
      · exact .inl ⟨idx, v, value, is⟩
      · exact .inr (.inl front)
      · exact absurd same.symm key
      · exact .inr (.inr (.inr back))
  have names : (live (a.slots.set i (some new))).filterMap nameOf = (live a.slots).filterMap nameOf := by
    rw [filterMap_nameOf, filterMap_nameOf, keys]
  simp [view, View.put, own, names]

theorem addProperty_view (absent : a.find new.key = none) (notLength : new.key ≠ lengthKey)
    (inside : ∀ idx, new.key = .index idx → a.fastArray = false ∧ idx < a.length) :
    { a with slots := a.slots ++ [some new] }.Valid ∧
      view { a with slots := a.slots ++ [some new] } = (view a).add new := by
  have others := valid.find_eq_none.mp absent
  have after : live (a.slots ++ [some new]) = live a.slots ++ [new] := by simp
  have valid' : { a with slots := a.slots ++ [some new] }.Valid := by
    refine ⟨?_, ?_, ?_, ?_, valid.slow⟩
    · unfold Distinct
      rw [after, map_append, nodup_append]
      refine ⟨valid.distinct, by simp, ?_⟩
      rintro key old _ fresh rfl
      obtain ⟨pr, there, rfl⟩ := mem_map.mp old
      exact others pr (mem_own.mpr (.inr there)) (by simpa using fresh)
    · rw [after]
      simp only [forall_mem_append, forall_mem_singleton]
      exact ⟨valid.named, notLength⟩
    · rw [after]
      simp only [forall_mem_append, forall_mem_singleton]
      exact ⟨valid.below, fun idx is => (inside idx is).2⟩
    · intro fast
      rw [after]
      simp only [forall_mem_append, forall_mem_singleton]
      refine ⟨⟨(valid.fast fast).1, fun idx is => ?_⟩, (valid.fast fast).2⟩
      exact absurd (inside idx is).1 (by simpa using fast)
  refine ⟨valid', ?_⟩
  have own := find_update valid new.key (some new) valid' (by simp) fun other => by
    have rest := others other
    rw [mem_own] at rest ⊢
    rw [mem_own, after, mem_append, mem_singleton, ← or_assoc, or_comm, Option.some.injEq]
    exact or_congr eq_comm ⟨fun there => ⟨there, rest there⟩, And.left⟩
  simp only [view, View.add, View.put, own, after, filterMap_append]
  congr 2

theorem removeSlot_view (slot : a.slots[i]? = some (some pr)) : { a with slots := removeSlot a.slots i }.Valid ∧
      view { a with slots := removeSlot a.slots i } = (view a).remove pr.key := by
  have after := valid.distinct.live_removeSlot slot
  have valid' := valid.of_keys (valid.distinct.removeSlot i) fun other there =>
    ⟨other, (mem_filter.mp (after ▸ there)).1, rfl⟩
  refine ⟨valid', ?_⟩
  have own := find_update valid pr.key none valid' (by simp) fun other => by
    have elements : ∀ idx v, a.values[idx]? = some v → element idx v = other → other.key ≠ pr.key := by
      rintro idx v value rfl isKey
      exact valid.key_ne value (mem_live.mpr (mem_of_getElem? slot)) isKey.symm
    rw [mem_own, mem_own, after, mem_filter]
    simp only [reduceCtorEq, false_or, or_and_right, decide_eq_true_eq]
    refine or_congr ⟨fun element => ⟨element, ?_⟩, And.left⟩ .rfl
    obtain ⟨idx, v, value, is⟩ := element
    exact elements idx v value is
  have names : (live (removeSlot a.slots i)).filterMap nameOf =
      ((live a.slots).filterMap nameOf).filter fun atom => .name atom ≠ pr.key := by
    rw [after, filter_filterMap, filterMap_filter]
    congr 1
    funext other
    cases is : other.key with
    | index idx => simp [nameOf, is]
    | name atom =>
      have named : nameOf other = some atom := by simp [nameOf, is]
      rw [named]
      by_cases same : Key.name atom = pr.key <;> simp [same, Option.filter]
  simp only [view, View.remove, own, names]

theorem find_values (k : Nat) (valid' : { a with values }.Valid)
    (noSlot : ∀ pr ∈ live a.slots, pr.key ≠ .index k) (others : ∀ j, j ≠ k → values[j]? = a.values[j]?) :
    { a with values }.find = update a.find (.index k) (values[k]?.map (element k)) := by
  refine find_update valid _ _ valid' ?_ fun other => ?_
  · intro pr is
    obtain ⟨v, -, rfl⟩ := Option.map_eq_some_iff.mp is
    rfl
  rw [mem_own, mem_own, Option.map_eq_some_iff]
  constructor
  · rintro (⟨idx, v, value, rfl⟩ | slot)
    · rcases eq_or_ne idx k with rfl | same
      · exact .inl ⟨v, value, rfl⟩
      · exact .inr ⟨.inl ⟨idx, v, (others idx same).symm.trans value, rfl⟩, by simpa [element] using same⟩
    · exact .inr ⟨.inr slot, noSlot other slot⟩
  · rintro (⟨v, value, rfl⟩ | ⟨⟨idx, v, value, rfl⟩ | slot, key⟩)
    · exact .inl ⟨k, v, value, rfl⟩
    · have different : idx ≠ k := by simpa [element] using key
      exact .inl ⟨idx, v, (others idx different).trans value, rfl⟩
    · exact .inr slot

theorem setValue_view (inside : idx < a.values.length) (v : V) : { a with values := a.values.set idx v }.Valid ∧
      view { a with values := a.values.set idx v } = (view a).put (element idx v) := by
  have valid' : { a with values := a.values.set idx v }.Valid := by
    refine ⟨valid.distinct, valid.named, valid.below, fun fast => ?_, fun slow => ?_⟩
    · simpa using valid.fast fast
    · rw [valid.slow slow] at inside
      simp at inside
  refine ⟨valid', ?_⟩
  have own := find_values valid idx valid'
    (fun pr there => valid.key_ne (getElem?_eq_getElem inside) there)
    fun j other => getElem?_set_ne other.symm
  rw [getElem?_set_self inside] at own
  simp only [view, View.put, own]
  rfl

theorem pushValue_view (fast : a.fastArray = true) (inside : a.values.length < a.length)
    (small : a.values.length + 1 < 2 ^ 31) (v : V) : { a with values := a.values ++ [v] }.Valid ∧
      view { a with values := a.values ++ [v] } = (view a).add (element a.values.length v) := by
  have names := (valid.fast fast).1
  have valid' : { a with values := a.values ++ [v] }.Valid := by
    refine ⟨valid.distinct, valid.named, valid.below, fun _ => ?_, fun slow => ?_⟩
    · simp only [length_append, length_singleton]
      exact ⟨names, by omega, by omega⟩
    · simp [fast] at slow
  refine ⟨valid', ?_⟩
  have own := find_values valid a.values.length valid' (fun pr there => names pr there _) fun j other => by
    by_cases low : j < a.values.length
    · exact getElem?_append_left low
    · rw [getElem?_eq_none (by simp; omega), getElem?_eq_none (by omega)]
  simp only [view, View.add, View.put, own, nameOf, element]
  simp [element]

theorem dropValue_view (last : a.values.length = idx + 1) : { a with values := a.values.take idx }.Valid ∧
      view { a with values := a.values.take idx } = (view a).remove (.index idx) := by
  have valid' : { a with values := a.values.take idx }.Valid := by
    refine ⟨valid.distinct, valid.named, valid.below, fun fast => ?_, fun slow => ?_⟩
    · have := valid.fast fast
      simp only [length_take]
      exact ⟨this.1, by omega, by omega⟩
    · rw [valid.slow slow] at last
      simp at last
  refine ⟨valid', ?_⟩
  have own := find_values valid idx valid'
    (fun pr there => valid.key_ne (getElem?_eq_getElem (by omega)) there) fun j other => by
      rw [getElem?_take]
      split
      · rfl
      · rw [getElem?_eq_none (by omega)]
  simp only [view, View.remove, own]
  simp

theorem convert_view : (convertFastArrayToArray a).Valid ∧ view (convertFastArrayToArray a) = view a := by
  have after : live (convertFastArrayToArray a).slots = live a.slots ++ a.values.mapIdx element := by
    simp [convertFastArrayToArray]
  have perm : (convertFastArrayToArray a).own.Perm a.own := by
    have own : (convertFastArrayToArray a).own = live (convertFastArrayToArray a).slots := rfl
    rw [own, after]
    exact perm_append_comm
  have members : ∀ pr, pr ∈ live (convertFastArrayToArray a).slots ↔ pr ∈ a.own := by
    intro pr
    rw [after]
    exact perm_append_comm.mem_iff
  have elements : ∀ idx v, a.values[idx]? = some v → idx < a.length := by
    intro idx v value
    have inside := (List.getElem?_eq_some_iff.mp value).1
    cases fast : a.fastArray with
    | true => exact inside.trans_le (valid.fast fast).2.1
    | false =>
      rw [valid.slow fast] at inside
      simp at inside
  have valid' : (convertFastArrayToArray a).Valid := by
    refine ⟨?_, ?_, ?_, (fun fast => by cases fast), fun _ => rfl⟩
    · unfold Distinct
      rw [after]
      exact ((perm_append_comm.map Property.key).nodup_iff).mp valid.nodup
    · intro pr there
      rcases mem_own.mp ((members pr).mp there) with ⟨idx, v, -, rfl⟩ | slot
      · simp [element]
      · exact valid.named pr slot
    · intro pr there idx is
      rcases mem_own.mp ((members pr).mp there) with ⟨idx', v, value, rfl⟩ | slot
      · obtain rfl : idx' = idx := by simpa [element] using is
        exact elements idx' v value
      · exact valid.below pr slot idx is
  refine ⟨valid', ?_⟩
  have own : (convertFastArrayToArray a).find = a.find := by
    funext key
    apply Option.ext
    intro pr
    rw [valid'.find_eq_some, valid.find_eq_some, perm.mem_iff]
  have names : (live (convertFastArrayToArray a).slots).filterMap nameOf = (live a.slots).filterMap nameOf := by
    rw [after, filterMap_append]
    have none : (a.values.mapIdx element).filterMap nameOf = [] := by
      rw [filterMap_eq_nil_iff]
      intro pr there
      obtain ⟨idx, v, -, rfl⟩ := mem_elements.mp there
      rfl
    rw [none, append_nil]
  simp only [view, own, names]
  rfl

theorem find_convert : (convertFastArrayToArray a).find = a.find :=
  congrArg View.own (convert_view valid).2

end Changes

end Arrays
