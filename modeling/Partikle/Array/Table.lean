import Mathlib.Data.List.Nodup
import Mathlib.Data.List.Count
import Mathlib.Data.Nat.Bitwise

/-!
The property table of an array: the properties of its shape together with their values, in
the order in which they were added. A deleted property leaves a hole until the table is
compacted. The property `length`, which is always the first one and cannot be deleted, is
kept apart, so a table here has one entry less than `prop_count` says.
-/

namespace Arrays

open List

/-- An array index stands for the atom that `JS_NewAtomUInt32` gives, and a name for any atom
that is not an array index. -/
inductive Key where
  | index (idx : Nat)
  | name (atom : BitVec 32)
deriving DecidableEq, Repr

inductive Payload (V : Type) where
  | value (v : V)
  | getset (getter setter : Option V)
deriving DecidableEq, Repr

structure Property (V : Type) where
  key : Key
  configurable : Bool
  writable : Bool
  enumerable : Bool
  payload : Payload V
deriving DecidableEq, Repr

abbrev Slots (V : Type) := List (Option (Property V))

variable {V : Type}

section

variable (slots : Slots V)

def live : List (Property V) := slots.filterMap id

def deletedPropCount : Nat := slots.countP Option.isNone

def findOwnProperty (key : Key) : Option Nat :=
  slots.findIdx? fun slot => slot.any fun pr => pr.key = key

def compactProperties : Slots V := slots.filter Option.isSome

/-- There are too many deleted properties; `length` counts as well. -/
def compacts : Bool :=
  8 ≤ deletedPropCount slots && (slots.length + 1) / 2 ≤ deletedPropCount slots

def removeSlot (i : Nat) : Slots V :=
  let slots := slots.set i none
  if compacts slots then compactProperties slots else slots

def deleteProperty (key : Key) : Bool × Slots V :=
  match findOwnProperty slots key with
  | none => (true, slots)
  | some i =>
    match slots[i]?.join with
    | none => (true, slots)
    | some pr => if pr.configurable then (true, removeSlot slots i) else (false, slots)

def Distinct : Prop := ((live slots).map Property.key).Nodup

end

section Live

variable {slots more : Slots V} {i : Nat} {pr : Property V} {key : Key}

@[simp] theorem live_nil : live ([] : Slots V) = [] := rfl

@[simp] theorem live_cons_none (slots : Slots V) : live (none :: slots) = live slots := rfl

@[simp] theorem live_cons_some (pr : Property V) (slots : Slots V) : live (some pr :: slots) = pr :: live slots := rfl

@[simp] theorem live_append (slots more : Slots V) : live (slots ++ more) = live slots ++ live more :=
  filterMap_append

theorem mem_live : pr ∈ live slots ↔ some pr ∈ slots := by simp [live]

theorem compactProperties_eq (slots : Slots V) : compactProperties slots = (live slots).map some := by
  induction slots with
  | nil => rfl
  | cons slot rest ih => cases slot <;> simpa [compactProperties] using ih

@[simp] theorem live_map_some (props : List (Property V)) : live (props.map some) = props := by simp [live]

@[simp] theorem live_compactProperties (slots : Slots V) : live (compactProperties slots) = live slots := by
  rw [compactProperties_eq, live_map_some]

theorem length_live (slots : Slots V) : (live slots).length + deletedPropCount slots = slots.length := by
  induction slots with
  | nil => rfl
  | cons slot rest ih =>
    cases slot <;> simp only [live_cons_none, live_cons_some, length_cons, deletedPropCount,
      countP_cons, Option.isNone_none, Option.isNone_some] at ih ⊢ <;> simp <;> omega

theorem live_set_none (slots : Slots V) (i : Nat) :
    live (slots.set i none) = live (slots.take i) ++ live (slots.drop (i + 1)) := by
  by_cases inside : i < slots.length
  · rw [set_eq_take_append_cons_drop, if_pos inside, live_append, live_cons_none]
  · rw [set_eq_of_length_le (by omega), take_of_length_le (by omega),
      drop_eq_nil_of_le (by omega), live_nil, append_nil]

@[simp] theorem live_removeSlot (slots : Slots V) (i : Nat) :
    live (removeSlot slots i) = live (slots.take i) ++ live (slots.drop (i + 1)) := by
  simp only [removeSlot]
  split
  · rw [live_compactProperties, live_set_none]
  · exact live_set_none slots i

theorem length_removeSlot (slots : Slots V) (i : Nat) : (removeSlot slots i).length ≤ slots.length := by
  simp only [removeSlot]
  split
  · have kept := length_filter_le Option.isSome (slots.set i none)
    rwa [length_set] at kept
  · exact Nat.le_of_eq length_set

theorem length_deleteProperty (slots : Slots V) (key : Key) : (deleteProperty slots key).2.length ≤ slots.length := by
  unfold deleteProperty
  split
  · exact Nat.le_refl _
  · split
    · exact Nat.le_refl _
    · split
      · exact length_removeSlot slots _
      · exact Nat.le_refl _

theorem live_split (here : slots[i]? = some (some pr)) :
    live slots = live (slots.take i) ++ pr :: live (slots.drop (i + 1)) := by
  obtain ⟨inside, value⟩ := List.getElem?_eq_some_iff.mp here
  conv_lhs => rw [← take_append_drop i slots, drop_eq_getElem_cons inside, value]
  rw [live_append, live_cons_some]

theorem Distinct.others (distinct : Distinct slots) (here : slots[i]? = some (some pr)) :
    ∀ other ∈ live (slots.take i) ++ live (slots.drop (i + 1)), other.key ≠ pr.key := by
  unfold Distinct at distinct
  rw [live_split here, map_append, map_cons, nodup_middle] at distinct
  intro other there same
  apply (nodup_cons.mp distinct).1
  rw [← same, ← map_append]
  exact mem_map_of_mem there

theorem Distinct.removeSlot (distinct : Distinct slots) (i : Nat) : Distinct (removeSlot slots i) := by
  unfold Distinct at distinct ⊢
  rw [live_removeSlot, ← live_set_none]
  refine Nodup.sublist (Sublist.map _ ?_) distinct
  by_cases inside : i < slots.length
  · rw [live_set_none]
    conv_rhs => rw [← take_append_drop i slots, live_append, drop_eq_getElem_cons inside]
    refine Sublist.append_left ?_ _
    cases slots[i] with
    | none => exact Sublist.refl _
    | some pr => exact sublist_cons_self _ _
  · rw [set_eq_of_length_le (by omega)]

theorem Distinct.live_removeSlot (distinct : Distinct slots) (here : slots[i]? = some (some pr)) :
    live (Arrays.removeSlot slots i) = (live slots).filter fun other => other.key ≠ pr.key := by
  have others := distinct.others here
  rw [Arrays.live_removeSlot]
  conv_rhs => rw [live_split here]
  rw [filter_append, filter_cons_of_neg (by simp), ← filter_append]
  symm
  rw [filter_eq_self]
  intro other there
  simpa using others other there

theorem findOwnProperty_eq_none : findOwnProperty slots key = none ↔ ∀ pr ∈ live slots, pr.key ≠ key := by
  unfold findOwnProperty
  rw [findIdx?_eq_none_iff]
  constructor
  · intro none pr there same
    have := none (some pr) (mem_live.mp there)
    simp [same] at this
  · intro none slot there
    cases slot with
    | none => rfl
    | some pr => simpa using none pr (mem_live.mpr there)

theorem findOwnProperty_spec (found : findOwnProperty slots key = some i) :
    ∃ pr, slots[i]? = some (some pr) ∧ pr.key = key := by
  obtain ⟨inside, is, -⟩ := findIdx?_eq_some_iff_getElem.mp found
  cases value : slots[i] with
  | none => rw [value] at is; cases is
  | some pr =>
    rw [value] at is
    refine ⟨pr, ?_, by simpa using is⟩
    rw [getElem?_eq_getElem inside, value]

theorem Distinct.findOwnProperty (distinct : Distinct slots) (here : slots[i]? = some (some pr)) :
    findOwnProperty slots pr.key = some i := by
  cases found : Arrays.findOwnProperty slots pr.key with
  | none =>
    have there : pr ∈ live slots := mem_live.mpr (mem_of_getElem? here)
    exact absurd rfl (findOwnProperty_eq_none.mp found pr there)
  | some j =>
    obtain ⟨other, there, same⟩ := findOwnProperty_spec found
    by_cases equal : j = i
    · rw [equal]
    · -- another position would hold the same key
      exfalso
      refine distinct.others here other ?_ same
      rw [← live_set_none, mem_live]
      refine mem_of_getElem? (i := j) ?_
      rwa [getElem?_set_ne (Ne.symm equal)]

theorem Distinct.deleteProperty (distinct : Distinct slots) (here : slots[i]? = some (some pr)) :
    deleteProperty slots pr.key = if pr.configurable then (true, Arrays.removeSlot slots i) else (false, slots) := by
  rw [Arrays.deleteProperty, distinct.findOwnProperty here]
  simp [here]

end Live

end Arrays
