import Partikle.Shape.Remove

/-!
What an object denotes: the map from atoms to flags and values, in the order in which the
properties were added.
-/

namespace Shapes

open Function List

variable {V : Type}

abbrev OrderedMap (V : Type) := List (BitVec 32 × BitVec 6 × V)

def OrderedMap.atoms (map : OrderedMap V) : List (BitVec 32) := map.map Prod.fst

section

variable (map : OrderedMap V) (atom : BitVec 32)

def OrderedMap.insert (flags : BitVec 6) (value : V) : OrderedMap V :=
  map ++ [(atom, flags, value)]

def OrderedMap.remove : OrderedMap V :=
  map.filter fun entry => entry.1 ≠ atom

def OrderedMap.setFlags (flags : BitVec 6) : OrderedMap V :=
  map.map fun entry => if entry.1 = atom then (entry.1, flags, entry.2.2) else entry

def OrderedMap.setValue (value : V) : OrderedMap V :=
  map.map fun entry => if entry.1 = atom then (entry.1, entry.2.1, value) else entry

end

def contentsFrom (values : Nat → V) : List (BitVec 32 × BitVec 6) → Nat → OrderedMap V
  | [], _ => []
  | (atom, flags) :: rest, i =>
    if atom = JS_ATOM_NULL then contentsFrom values rest (i + 1)
    else (atom, flags, values i) :: contentsFrom values rest (i + 1)

def contents (entries : List (BitVec 32 × BitVec 6)) (values : Nat → V) : OrderedMap V :=
  contentsFrom values entries 0

section Basic

variable {values values' : Nat → V} {entries more : List (BitVec 32 × BitVec 6)}

theorem contentsFrom_atoms (values : Nat → V) (entries : List (BitVec 32 × BitVec 6)) (i : Nat) :
    (contentsFrom values entries i).atoms = (entries.map Prod.fst).filter fun atom => atom ≠ JS_ATOM_NULL := by
  induction entries generalizing i with
  | nil => rfl
  | cons entry rest ih =>
    obtain ⟨atom, flags⟩ := entry
    by_cases dead : atom = JS_ATOM_NULL
    · simpa [contentsFrom, dead] using ih (i + 1)
    · have tail := ih (i + 1)
      simp only [OrderedMap.atoms] at tail ⊢
      simp [contentsFrom, dead, tail]

theorem contentsFrom_congr (entries : List (BitVec 32 × BitVec 6)) (i : Nat)
    (same : ∀ k, i ≤ k → k < i + entries.length → values k = values' k) :
    contentsFrom values entries i = contentsFrom values' entries i := by
  induction entries generalizing i with
  | nil => rfl
  | cons entry rest ih =>
    obtain ⟨atom, flags⟩ := entry
    have tail := ih (i + 1) fun k low high => same k (by omega) (by simp; omega)
    by_cases dead : atom = JS_ATOM_NULL
    · simp [contentsFrom, dead, tail]
    · simp [contentsFrom, dead, tail, same i (Nat.le_refl i) (by simp)]

theorem contentsFrom_append (values : Nat → V) (entries more : List (BitVec 32 × BitVec 6)) (i : Nat) :
    contentsFrom values (entries ++ more) i = contentsFrom values entries i ++ contentsFrom values more
      (i + entries.length) := by
  induction entries generalizing i with
  | nil => simp [contentsFrom]
  | cons entry rest ih =>
    obtain ⟨atom, flags⟩ := entry
    have shift : i + 1 + rest.length = i + (rest.length + 1) := by omega
    by_cases dead : atom = JS_ATOM_NULL <;> simp [contentsFrom, dead, ih (i + 1), shift]

theorem contents_insert {atom : BitVec 32} (flags : BitVec 6) (value : V) (live : atom ≠ JS_ATOM_NULL)
    (entries : List (BitVec 32 × BitVec 6)) (values : Nat → V) :
    contents (entries ++ [(atom, flags)]) (update values entries.length value) =
      (contents entries values).insert atom flags value := by
  have before : contentsFrom (update values entries.length value) entries 0 = contentsFrom values entries 0 := by
    apply contentsFrom_congr
    intro k _ high
    exact update_of_ne (by omega) _ _
  rw [contents, contentsFrom_append, before, OrderedMap.insert, contents]
  simp [contentsFrom, live]

end Basic

section Change

variable {entries : List (BitVec 32 × BitVec 6)} {atom : BitVec 32} {flags : BitVec 6}

def Distinct (entries : List (BitVec 32 × BitVec 6)) : Prop :=
  ((entries.map Prod.fst).filter fun atom => atom ≠ JS_ATOM_NULL).Nodup

variable {entry : BitVec 32 × BitVec 6} {i : Nat}

theorem split_entries (present : entries[i]? = some entry) :
    ∃ front back, entries = front ++ entry :: back ∧ front.length = i := by
  obtain ⟨inside, rfl⟩ := List.getElem?_eq_some_iff.mp present
  obtain ⟨front, back, is, length, -⟩ := @exists_of_set _ i entries[i] entries inside
  exact ⟨front, back, is, length⟩

theorem contentsFrom_split (live : atom ≠ JS_ATOM_NULL) (values : Nat → V) (k : Nat)
    (front back : List (BitVec 32 × BitVec 6)) :
    contentsFrom values (front ++ (atom, flags) :: back) k = contentsFrom values front k ++
      (atom, flags, values (k + front.length)) :: contentsFrom values back (k + front.length + 1) := by
  rw [contentsFrom_append, contentsFrom, if_neg live]

theorem contentsFrom_update (values : Nat → V) (front back : List (BitVec 32 × BitVec 6)) (k : Nat) (value : V) :
    contentsFrom (update values (k + front.length) value) front k = contentsFrom values front k ∧
      contentsFrom (update values (k + front.length) value) back (k + front.length + 1) =
      contentsFrom values back (k + front.length + 1) := by
  constructor
  · exact contentsFrom_congr _ _ fun j _ high => update_of_ne (by omega) _ _
  · exact contentsFrom_congr _ _ fun j low _ => update_of_ne (by omega) _ _

theorem Distinct.others {front back : List (BitVec 32 × BitVec 6)}
    (distinct : Distinct (front ++ (atom, flags) :: back))
    (live : atom ≠ JS_ATOM_NULL) (values : Nat → V) (k : Nat) :
    (∀ other ∈ contentsFrom values front k, other.1 ≠ atom) ∧
      ∀ other ∈ contentsFrom values back (k + front.length + 1), other.1 ≠ atom := by
  unfold Distinct at distinct
  rw [← contentsFrom_atoms values _ k, contentsFrom_split live, OrderedMap.atoms, map_append, map_cons,
    nodup_middle, nodup_cons, mem_append, not_or] at distinct
  constructor
  · intro other there same
    exact distinct.1.1 (mem_map.mpr ⟨other, there, same⟩)
  · intro other there same
    exact distinct.1.2 (mem_map.mpr ⟨other, there, same⟩)

theorem map_eq_self {change : BitVec 32 × BitVec 6 × V → BitVec 32 × BitVec 6 × V} {map : OrderedMap V}
    (others : ∀ entry ∈ map, entry.1 ≠ atom) :
    map.map (fun entry => if entry.1 = atom then change entry else entry) = map := by
  conv_rhs => rw [← map_id map]
  apply map_congr_left
  intro entry member
  simp [others entry member]

section LiveEntry

variable (distinct : Distinct entries) (present : entries[i]? = some (atom, flags)) (live : atom ≠ JS_ATOM_NULL)
  (values : Nat → V) (k : Nat)

include distinct present live values k

theorem contentsFrom_remove :
    contentsFrom values (entries.set i (JS_ATOM_NULL, 0)) k = (contentsFrom values entries k).remove atom := by
  obtain ⟨front, back, rfl, rfl⟩ := split_entries present
  obtain ⟨before, behind⟩ := distinct.others live values k
  rw [set_append_right _ _ (Nat.le_refl _), Nat.sub_self, set_cons_zero, contentsFrom_append,
    contentsFrom_split live, contentsFrom, if_pos rfl, OrderedMap.remove, filter_append,
    filter_cons_of_neg (by simp), filter_eq_self.mpr (by simpa using before),
    filter_eq_self.mpr (by simpa using behind)]

theorem contentsFrom_setFlags (newFlags : BitVec 6) : contentsFrom values (entries.set i (atom, newFlags)) k =
      (contentsFrom values entries k).setFlags atom newFlags := by
  obtain ⟨front, back, rfl, rfl⟩ := split_entries present
  obtain ⟨before, behind⟩ := distinct.others live values k
  rw [set_append_right _ _ (Nat.le_refl _), Nat.sub_self, set_cons_zero, contentsFrom_split live,
    contentsFrom_split live, OrderedMap.setFlags, map_append, map_cons, if_pos rfl, map_eq_self before,
    map_eq_self behind]

theorem contentsFrom_setValue (value : V) : contentsFrom (update values (k + i) value) entries k =
      (contentsFrom values entries k).setValue atom value := by
  obtain ⟨front, back, rfl, rfl⟩ := split_entries present
  obtain ⟨before, behind⟩ := distinct.others live values k
  obtain ⟨same, same'⟩ := contentsFrom_update values front back k value
  rw [contentsFrom_split live, contentsFrom_split live, same, same', update_self, OrderedMap.setValue,
    map_append, map_cons, if_pos rfl, map_eq_self before, map_eq_self behind]

end LiveEntry

theorem contentsFrom_dead (present : entries[i]? = some (JS_ATOM_NULL, flags)) (values : Nat → V) (k : Nat)
    (value : V) : contentsFrom (update values (k + i) value) entries k = contentsFrom values entries k := by
  obtain ⟨front, back, rfl, rfl⟩ := split_entries present
  obtain ⟨same, same'⟩ := contentsFrom_update values front back k value
  rw [contentsFrom_append, contentsFrom_append, contentsFrom, contentsFrom, if_pos rfl, if_pos rfl, same, same']

end Change

section Compact

theorem moveValues_of_lt (l : List ShapeProperty) (i j : Nat) (values : Nat → V) {k : Nat} (below : k < j) :
    moveValues l i j values k = values k := by
  induction l generalizing i j values with
  | nil => rfl
  | cons pr rest ih =>
    unfold moveValues
    split
    · rw [ih (i + 1) (j + 1) _ (by omega)]
      exact update_of_ne (by omega) _ _
    · exact ih (i + 1) j values below

theorem contentsFrom_compact (l : List ShapeProperty) {i j : Nat} (values : Nat → V) (order : j ≤ i) :
    contentsFrom (moveValues l i j values) ((l.filter isLive).map fun pr => (pr.atom, pr.flags)) j =
      contentsFrom values (l.map fun pr => (pr.atom, pr.flags)) i := by
  induction l generalizing i j values with
  | nil => rfl
  | cons pr rest ih =>
    unfold moveValues
    by_cases live : pr.atom ≠ JS_ATOM_NULL
    · have tail := @ih (i + 1) (j + 1) (update values j (values i)) (by omega)
      have rest' : contentsFrom (update values j (values i)) (rest.map fun pr => (pr.atom, pr.flags)) (i + 1) =
          contentsFrom values (rest.map fun pr => (pr.atom, pr.flags)) (i + 1) := by
        apply contentsFrom_congr
        intro k low _
        exact update_of_ne (by omega) _ _
      rw [if_pos live, filter_cons, if_pos (by simpa [isLive] using live), map_cons, map_cons]
      simp only [contentsFrom, live, if_false, tail, rest']
      rw [moveValues_of_lt _ _ _ _ (Nat.lt_succ_self j), update_self]
    · have tail := @ih (i + 1) j values (by omega)
      rw [if_neg live, filter_cons, if_neg (by simpa [isLive] using live), map_cons, tail]
      simp [contentsFrom, live]

theorem contents_compact (props : Props) (values : Nat → V) :
    contents (compacted props).entries (moveValues props.prop 0 0 values) = contents props.entries values := by
  have moved := contentsFrom_compact props.prop values (Nat.le_refl 0)
  rw [contents, compacted_entries]
  unfold contents Props.entries
  rw [← moved, filter_map]
  rfl

end Compact

end Shapes
