import Partikle.Array.Table

/-!
Assignment to the length of an array. An array whose length is much larger than its number of
properties is truncated by a walk along its properties, and a deletion may compact the very
table that the walk is in.
-/

namespace Arrays

open List Option

variable {V : Type}

/-- `length` and `lengthWritable` are the property at the start of the table. A fast array has
its elements in `values`. -/
structure JsArray (V : Type) where
  length : Nat
  lengthWritable : Bool
  slots : Slots V
  fastArray : Bool
  values : List V
  extensible : Bool
deriving DecidableEq

/-- The exceptions by their messages; the first one is a `RangeError`. -/
inductive JsError where
  | invalidArrayLength
  | readOnly (key : Key)
  | notConfigurable
  | propertyNotConfigurable
  | notExtensible
  | noSetter
  | couldNotDelete
deriving DecidableEq, Repr

def JS_ATOM_length : BitVec 32 := 48

def reject (throws : Bool) (error : JsError) : Except JsError Bool :=
  if throws then .error error else .ok false

def doomed (cur : Nat) (pr : Property V) : Bool :=
  match pr.key with
  | .index idx => cur ≤ idx
  | .name _ => false

def walkDown (len : Nat) : Nat → Slots V → Nat × Slots V
  | 0, slots => (0, slots)
  | cur + 1, slots =>
    if cur + 1 > len then
      match deleteProperty slots (.index cur) with
      | (false, slots) => (cur + 1, slots)
      | (true, slots) => walkDown len cur slots
    else (cur + 1, slots)

/-- The first pass along the properties: an index that cannot be deleted raises the length. -/
def raise (cur : Nat) (slot : Option (Property V)) : Nat :=
  match slot with
  | none => cur
  | some pr =>
    match pr.key with
    | .index idx => if cur ≤ idx ∧ ¬pr.configurable then idx + 1 else cur
    | .name _ => cur

def removeLoop (cur : Nat) (slots : Slots V) (i : Nat) : Slots V :=
  if i < slots.length then
    match slots[i]?.join with
    | none => removeLoop cur slots (i + 1)
    | some pr =>
      if doomed cur pr then removeLoop cur (deleteProperty slots pr.key).2 (i + 1)
      else removeLoop cur slots (i + 1)
  else slots
termination_by slots.length - i
decreasing_by
  · omega
  · have := length_deleteProperty slots pr.key
    omega
  · omega

def walkList (len : Nat) (slots : Slots V) : Nat × Slots V :=
  let cur := slots.foldl raise len
  (cur, removeLoop cur slots 0)

/-- `prop_count` counts `length`. -/
def truncate (len curLen : Nat) (slots : Slots V) : Nat × Slots V :=
  if len < curLen then
    if curLen - len ≤ slots.length + 1 then walkDown len curLen slots else walkList len slots
  else (len, slots)

def setArrayLength (a : JsArray V) (len : Nat) (throws : Bool) : Except JsError Bool × JsArray V :=
  if ¬a.lengthWritable then (reject throws (.readOnly (.name JS_ATOM_length)), a)
  else if a.fastArray then
    (.ok true, { a with values := if len < a.values.length then a.values.take len else a.values, length := len })
  else
    let (curLen, slots) := truncate len a.length a.slots
    (if curLen > len then reject throws .notConfigurable else .ok true,
      { a with slots, length := curLen })

def element (i : Nat) (v : V) : Property V := ⟨.index i, true, true, true, .value v⟩

def JsArray.own (a : JsArray V) : List (Property V) := a.values.mapIdx element ++ live a.slots

structure JsArray.Valid (a : JsArray V) : Prop where
  distinct : Distinct a.slots
  named : ∀ pr ∈ live a.slots, pr.key ≠ .name JS_ATOM_length
  below : ∀ pr ∈ live a.slots, ∀ idx, pr.key = .index idx → idx < a.length
  fast : a.fastArray = true →
    (∀ pr ∈ live a.slots, ∀ idx, pr.key ≠ .index idx) ∧ a.values.length ≤ a.length ∧
      a.values.length < 2 ^ 31
  slow : a.fastArray = false → a.values = []

structure LiveArray (V : Type) extends JsArray V where
  valid : toJsArray.Valid

def IsFinal (own : List (Property V)) (n m : Nat) : Prop :=
  m = n ∧ (∀ pr ∈ own, ∀ idx, pr.key = .index idx → n ≤ idx → pr.configurable = true) ∨
    ∃ pr ∈ own, ∃ idx, pr.key = .index idx ∧ n ≤ idx ∧ pr.configurable = false ∧ m = idx + 1 ∧
      ∀ other ∈ own, ∀ idx', other.key = .index idx' → n ≤ idx' → other.configurable = false →
        idx' ≤ idx

/-- What an assignment of the length `n` should do. -/
structure Truncates (before after : JsArray V) (n : Nat) : Prop where
  final : IsFinal before.own n after.length
  own : after.own = before.own.filter fun pr => !doomed after.length pr

variable {pr : Property V}

section Spec

variable {slots : Slots V} {own : List (Property V)} {n m cur : Nat}

theorem doomed_iff : doomed cur pr = true ↔ ∃ idx, pr.key = .index idx ∧ cur ≤ idx := by
  unfold doomed
  cases pr.key with
  | index _ | name _ => simp

theorem filter_doomed (below : ∀ pr ∈ own, ∀ idx, pr.key = .index idx → idx < cur) :
    (own.filter fun pr => !doomed cur pr) = own := by
  rw [filter_eq_self]
  intro pr there
  rw [Bool.not_eq_true', ← Bool.not_eq_true, doomed_iff]
  rintro ⟨idx, is, high⟩
  have := below pr there idx is
  omega

/-- The length `b` keeps every index that cannot be deleted. -/
def Bounds (own : List (Property V)) (n b : Nat) : Prop :=
  n ≤ b ∧ ∀ pr ∈ own, ∀ idx, pr.key = .index idx → pr.configurable = false → idx < b

theorem isFinal_iff : IsFinal own n m ↔ Bounds own n m ∧ ∀ b, Bounds own n b → m ≤ b := by
  constructor
  · rintro (⟨rfl, all⟩ | ⟨pr, there, idx, is, high, fixed, rfl, most⟩)
    · refine ⟨⟨Nat.le_refl _, fun pr there idx is fixed => ?_⟩, fun b bounds => bounds.1⟩
      by_contra high
      simp [all pr there idx is (by omega)] at fixed
    · refine ⟨⟨by omega, fun other there' idx' is' fixed' => ?_⟩, fun b bounds => bounds.2 pr there idx is fixed⟩
      by_contra high'
      have := most other there' idx' is' (by omega) fixed'
      omega
  · rintro ⟨⟨above, all⟩, least⟩
    rcases Nat.eq_or_lt_of_le above with rfl | more
    · refine .inl ⟨rfl, fun pr there idx is high => ?_⟩
      by_contra fixed
      have := all pr there idx is (by simpa using fixed)
      omega
    · -- one less is no bound, so that the index below is there and cannot be deleted
      have less : ¬Bounds own n (m - 1) := fun bounds => by
        have := least _ bounds
        omega
      simp only [Bounds, not_and, not_forall, Nat.not_lt] at less
      obtain ⟨pr, there, idx, is, fixed, high⟩ := less (by omega)
      have below := all pr there idx is fixed
      refine .inr ⟨pr, there, idx, is, by omega, fixed, by omega, fun other there' idx' is' _ fixed' => ?_⟩
      have := all other there' idx' is' fixed'
      omega

theorem IsFinal.congr {own' : List (Property V)} {n' : Nat} (final : IsFinal own n m)
    (same : ∀ b, Bounds own n b ↔ Bounds own' n' b) : IsFinal own' n' m := by
  rw [isFinal_iff] at final ⊢
  simpa only [same] using final

theorem IsFinal.of_below (below : ∀ pr ∈ own, ∀ idx, pr.key = .index idx → idx < n) : IsFinal own n n :=
  isFinal_iff.mpr ⟨⟨Nat.le_refl _, fun pr there idx is _ => below pr there idx is⟩, fun _ bounds => bounds.1⟩

theorem IsFinal.fixed (final : IsFinal own n m) (there : pr ∈ own)
    (cut : doomed m pr = true) : pr.configurable = true := by
  obtain ⟨idx, is, high⟩ := doomed_iff.mp cut
  by_contra fixed
  have := (isFinal_iff.mp final).1.2 pr there idx is (by simpa using fixed)
  omega

theorem IsFinal.of_filter {key : Key} (final : IsFinal (own.filter fun pr => pr.key ≠ key) n m)
    (free : ∀ pr ∈ own, pr.key = key → pr.configurable = true) : IsFinal own n m := by
  refine final.congr fun b => and_congr_right fun _ => ⟨fun all pr there idx is fixed => ?_, fun all pr there => ?_⟩
  · refine all pr (mem_filter.mpr ⟨there, ?_⟩) idx is fixed
    simp only [decide_eq_true_eq]
    intro same
    simp [free pr there same] at fixed
  · exact all pr (mem_filter.mp there).1

theorem IsFinal.unique {m' : Nat} (first : IsFinal own n m) (second : IsFinal own n m') : m = m' := by
  rw [isFinal_iff] at first second
  exact Nat.le_antisymm (first.2 m' second.1) (second.2 m first.1)

end Spec

section Down

variable {slots : Slots V} {n : Nat}

theorem walkDown_spec {cur : Nat} (distinct : Distinct slots) (above : n ≤ cur)
    (below : ∀ pr ∈ live slots, ∀ idx, pr.key = .index idx → idx < cur) :
    (walkDown n cur slots).1 ≤ cur ∧ IsFinal (live slots) n (walkDown n cur slots).1 ∧
      live (walkDown n cur slots).2 = (live slots).filter fun pr => !doomed (walkDown n cur slots).1 pr := by
  induction cur generalizing slots with
  | zero =>
    obtain rfl : n = 0 := by omega
    exact ⟨Nat.le_refl _, .of_below below, (filter_doomed below).symm⟩
  | succ cur ih =>
    unfold walkDown
    by_cases more : cur + 1 > n
    · rw [if_pos more]
      cases found : findOwnProperty slots (.index cur) with
      | none =>
        have absent := findOwnProperty_eq_none.mp found
        rw [deleteProperty, found]
        have below' : ∀ pr ∈ live slots, ∀ idx, pr.key = .index idx → idx < cur := by
          intro pr there idx is
          have := below pr there idx is
          have other : idx ≠ cur := fun same => absent pr there (same ▸ is)
          omega
        obtain ⟨least, final, left⟩ := ih distinct (by omega) below'
        exact ⟨Nat.le_succ_of_le least, final, left⟩
      | some i =>
        obtain ⟨pr, here, is⟩ := findOwnProperty_spec found
        have there : pr ∈ live slots := mem_live.mpr (mem_of_getElem? here)
        rw [← is, distinct.deleteProperty here]
        by_cases free : pr.configurable = true
        · rw [if_pos free]
          have left := distinct.live_removeSlot here
          have below' : ∀ pr ∈ live (removeSlot slots i), ∀ idx, pr.key = .index idx → idx < cur := by
            intro other there' idx is'
            rw [left, mem_filter] at there'
            have small := below other there'.1 idx is'
            have different : idx ≠ cur := by
              rintro rfl
              simp [is', is] at there'
            omega
          obtain ⟨least, final, kept⟩ := ih (distinct.removeSlot i) (by omega) below'
          rw [left] at final
          refine ⟨Nat.le_succ_of_le least, final.of_filter fun other there' same => ?_, ?_⟩
          · rwa [inj_on_of_nodup_map distinct there' there same]
          · simp only [kept, left, List.filter_filter]
            apply filter_congr
            intro other _
            -- the deleted index is cut off by every length up to it
            by_cases same : other.key = pr.key
            · have cut : doomed (walkDown n cur (removeSlot slots i)).1 other = true :=
                doomed_iff.mpr ⟨cur, same.trans is, least⟩
              simp [cut]
            · simp [same]
        · rw [if_neg free]
          refine ⟨Nat.le_refl _, .inr ⟨pr, there, cur, is, by omega, by simpa using free, rfl, ?_⟩,
            (filter_doomed below).symm⟩
          intro other there' idx' is' _ _
          have := below other there' idx' is'
          omega
    · rw [if_neg more]
      obtain rfl : n = cur + 1 := by omega
      exact ⟨Nat.le_refl _, .of_below below, (filter_doomed below).symm⟩

end Down

section List

variable {slots : Slots V} {cur n i : Nat}

theorem raise_le_iff {b : Nat} :
    raise n (some pr) ≤ b ↔ n ≤ b ∧ ∀ idx, pr.key = .index idx → pr.configurable = false → idx < b := by
  simp only [raise]
  cases is : pr.key with
  | name atom => simp
  | index idx =>
    simp only [Key.index.injEq, forall_eq']
    cases pr.configurable with
    | true => simp
    | false =>
      simp only [Bool.false_eq_true, not_false_eq_true, and_true, true_implies]
      split <;> omega

theorem isFinal_raise (slots : Slots V) (n : Nat) : IsFinal (live slots) n (slots.foldl raise n) := by
  induction slots generalizing n with
  | nil => exact .of_below (by simp)
  | cons slot rest ih =>
    cases slot with
    | none => exact ih n
    | some pr =>
      refine (ih (raise n (some pr))).congr fun b => ?_
      rw [Bounds, Bounds, raise_le_iff, live_cons_some, forall_mem_cons, and_assoc]

/-- A compaction at the position `i` moves the next live properties in front of the walk, one
for each hole in front of it and one for the property it has just deleted. -/
def passed (slots : Slots V) (i : Nat) : List (Property V) :=
  (live (slots.drop (i + 1))).take (deletedPropCount (slots.take i) + 1)

/-- The walk from the position `i` on passes over a property that it should remove. -/
def misses (cur : Nat) (slots : Slots V) (i : Nat) : Bool :=
  if i < slots.length then
    match slots[i]?.join with
    | none => misses cur slots (i + 1)
    | some pr =>
      if doomed cur pr then
        compacts (slots.set i none) && (passed slots i).any (doomed cur) ||
          misses cur (removeSlot slots i) (i + 1)
      else misses cur slots (i + 1)
  else false
termination_by slots.length - i
decreasing_by
  · omega
  · have := length_removeSlot slots i
    omega
  · omega

theorem live_take_removeSlot (inside : i < slots.length) : live ((removeSlot slots i).take (i + 1)) =
      live (slots.take i) ++ if compacts (slots.set i none) then passed slots i else [] := by
  have split : slots.set i none = slots.take i ++ none :: slots.drop (i + 1) := by
    rw [set_eq_take_append_cons_drop, if_pos inside]
  have length : (slots.take i).length = i := by
    rw [length_take]
    omega
  simp only [removeSlot]
  split
  · have front := length_live (slots.take i)
    rw [compactProperties_eq, split, live_append, live_cons_none, ← map_take, live_map_some,
      take_append, take_of_length_le (by omega), passed]
    congr 2
    omega
  · rw [split, take_append, length, take_of_length_le (by omega)]
    simp

theorem live_toList (slot : Option (Option (Property V))) : live slot.toList = slot.join.toList := by
  rcases slot with _ | _ | _ <;> rfl

theorem live_take_succ (slots : Slots V) (i : Nat) :
    live (slots.take (i + 1)) = live (slots.take i) ++ slots[i]?.join.toList := by
  rw [take_add_one, live_append, live_toList]

theorem live_drop (slots : Slots V) (i : Nat) :
    live (slots.drop i) = slots[i]?.join.toList ++ live (slots.drop (i + 1)) := by
  rw [drop_eq_getElem?_toList_append, live_append, live_toList]

section Free

variable (distinct : Distinct slots) (free : ∀ pr ∈ live slots, doomed cur pr = true → pr.configurable = true)

include distinct free

theorem removeLoop_live : ∃ kept, live (removeLoop cur slots i) = live (slots.take i) ++ kept ∧
      (misses cur slots i = false → kept = (live (slots.drop i)).filter fun pr => !doomed cur pr) ∧
      (misses cur slots i = true → ∃ pr ∈ kept, doomed cur pr = true) := by
  fun_induction removeLoop cur slots i with
  | case1 slots i inside hole ih =>
    obtain ⟨kept, left, told⟩ := ih distinct free
    rw [misses, if_pos inside, live_drop]
    rw [live_take_succ] at left
    simp only [hole, toList_none, append_nil, nil_append] at left ⊢
    exact ⟨kept, left, told⟩
  | case2 slots i inside pr here cut ih =>
    have there := join_eq_some_iff.mp here
    have mem : pr ∈ live slots := mem_live.mpr (mem_of_getElem? there)
    rw [distinct.deleteProperty there, if_pos (free pr mem cut)] at ih ⊢
    obtain ⟨kept, left, sound, missed⟩ := ih (distinct.removeSlot i) fun other left => by
      rw [distinct.live_removeSlot there] at left
      exact free other (mem_filter.mp left).1
    have behind := live_removeSlot slots i
    rw [← take_append_drop (i + 1) (removeSlot slots i), live_append, live_take_removeSlot inside,
      append_assoc, append_cancel_left_eq] at behind
    rw [live_take_removeSlot inside, append_assoc] at left
    rw [misses, if_pos inside, live_drop, ← behind]
    simp only [here, cut, if_true, Bool.or_eq_false_iff, Bool.or_eq_true]
    refine ⟨_, left, fun ⟨now, later⟩ => ?_, ?_⟩
    · rw [sound later, toList_some, singleton_append, filter_cons_of_neg (by simp [cut]),
        filter_append]
      congr 1
      symm
      rw [filter_eq_self]
      intro other moved
      split at moved
      · next compacted =>
          rw [compacted, Bool.true_and] at now
          simpa using any_eq_false.mp now other moved
      · cases moved
    · rintro (now | later)
      · obtain ⟨compacted, some⟩ := Bool.and_eq_true_iff.mp now
        obtain ⟨other, moved, cut'⟩ := any_eq_true.mp some
        exact ⟨other, mem_append_left _ (by rwa [if_pos compacted]), cut'⟩
      · obtain ⟨other, there, cut'⟩ := missed later
        exact ⟨other, mem_append_right _ there, cut'⟩
  | case3 slots i inside pr here stays ih =>
    obtain ⟨kept, left, sound, missed⟩ := ih distinct free
    rw [misses, if_pos inside, live_drop]
    rw [live_take_succ, append_assoc] at left
    simp only [here, stays, if_false, Bool.false_eq_true] at left ⊢
    refine ⟨_, left, fun clean => ?_, fun misses => ?_⟩
    · rw [sound clean, toList_some, singleton_append, singleton_append,
        filter_cons_of_pos (by simp [stays])]
    · obtain ⟨other, there, cut⟩ := missed misses
      exact ⟨other, mem_append_right _ there, cut⟩
  | case4 slots i outside =>
    refine ⟨[], ?_, ?_, ?_⟩
    · rw [take_of_length_le (by omega), append_nil]
    · simp [drop_eq_nil_of_le (Nat.le_of_not_lt outside)]
    · rw [misses, if_neg outside]
      nofun

end Free

end List

section Assignment

variable {n : Nat}

def Sparse (a : JsArray V) (n : Nat) : Prop := n < a.length ∧ a.slots.length + 1 < a.length - n

def StrategiesAgree (a : JsArray V) (n : Nat) : Prop :=
  (walkDown n a.length a.slots).1 = (walkList n a.slots).1 ∧
    live (walkDown n a.length a.slots).2 = live (walkList n a.slots).2

def Misses (a : JsArray V) (n : Nat) : Prop := misses (a.slots.foldl raise n) a.slots 0 = true

theorem mem_mapIdx_element {values : List V} (there : pr ∈ values.mapIdx element) :
    ∃ idx < values.length, pr.key = .index idx ∧ pr.configurable = true := by
  obtain ⟨idx, inside, rfl⟩ := mem_mapIdx.mp there
  exact ⟨idx, inside, rfl, rfl⟩

theorem filter_mapIdx_element (values : List V) (n : Nat) :
    ((values.mapIdx element).filter fun pr => !doomed n pr) = (values.take n).mapIdx element := by
  conv_lhs => rw [← take_append_drop n values, mapIdx_append, filter_append]
  have front : (((values.take n).mapIdx element).filter fun pr => !doomed n pr) = (values.take n).mapIdx element := by
    apply filter_doomed
    intro pr there idx is
    obtain ⟨idx', inside, is', -⟩ := mem_mapIdx_element there
    obtain rfl : idx' = idx := by simpa [is] using is'.symm
    exact Nat.lt_of_lt_of_le inside (length_take_le n values)
  have behind : ((values.drop n).mapIdx fun i => element (i + (values.take n).length)).filter
      (fun pr => !doomed n pr) = [] := by
    rw [filter_eq_nil_iff]
    intro pr there
    obtain ⟨i, inside, rfl⟩ := mem_mapIdx.mp there
    rw [length_drop] at inside
    have high : n ≤ i + (values.take n).length := by
      rw [length_take]
      omega
    simpa [doomed, element] using high
  rw [front, behind, append_nil]

theorem setArrayLength_fast_eq {a : JsArray V} {throws : Bool} (writable : a.lengthWritable = true)
    (fast : a.fastArray = true) :
    setArrayLength a n throws = (.ok true, { a with values := a.values.take n, length := n }) := by
  have values : (if n < a.values.length then a.values.take n else a.values) = a.values.take n := by
    split
    · rfl
    · rw [take_of_length_le (by omega)]
  simp [setArrayLength, writable, fast, not_true_eq_false, values]

theorem setArrayLength_fast (a : LiveArray V) (writable : a.lengthWritable = true) (fast : a.fastArray = true)
    (throws : Bool) : Truncates a.toJsArray (setArrayLength a.toJsArray n throws).2 n := by
  obtain ⟨names, -, -⟩ := a.valid.fast fast
  rw [setArrayLength_fast_eq writable fast]
  refine ⟨.inl ⟨rfl, fun pr there idx is high => ?_⟩, ?_⟩
  · rcases mem_append.mp there with element | slot
    · obtain ⟨-, -, -, free⟩ := mem_mapIdx_element element
      exact free
    · exact absurd is (names pr slot idx)
  · have kept : ((live a.slots).filter fun pr => !doomed n pr) = live a.slots :=
      filter_doomed fun pr there idx is => absurd is (names pr there idx)
    simp [JsArray.own, filter_mapIdx_element, kept]

theorem walkList_live (a : LiveArray V) : (¬Misses a.toJsArray n → live (walkList n a.slots).2 =
      (live a.slots).filter fun pr => !doomed (walkList n a.slots).1 pr) ∧
    (Misses a.toJsArray n → ∃ pr ∈ live (walkList n a.slots).2, doomed (walkList n a.slots).1 pr = true) := by
  obtain ⟨kept, left, sound, missed⟩ := removeLoop_live (i := 0) a.valid.distinct
    fun _ there cut => (isFinal_raise a.slots n).fixed there cut
  rw [show live (walkList n a.slots).2 = kept from left]
  exact ⟨fun clean => sound (by simpa [Misses] using clean), missed⟩

theorem strategiesAgree_iff (a : LiveArray V) (shorter : n < a.length) :
    StrategiesAgree a.toJsArray n ↔ ¬Misses a.toJsArray n := by
  obtain ⟨-, final, left⟩ := walkDown_spec (n := n) a.valid.distinct (Nat.le_of_lt shorter) a.valid.below
  have same : (walkDown n a.length a.slots).1 = (walkList n a.slots).1 :=
    final.unique (isFinal_raise a.slots n)
  constructor
  · rintro ⟨-, agree⟩ missed
    obtain ⟨pr, there, cut⟩ := (walkList_live a).2 missed
    rw [← agree, left, mem_filter, same, cut] at there
    exact absurd there.2 (by decide)
  · intro sound
    refine ⟨same, ?_⟩
    rw [left, (walkList_live a).1 sound, same]

theorem truncates_slow (a : LiveArray V) (writable : a.lengthWritable = true) (slow : a.fastArray = false)
    (throws : Bool) : Truncates a.toJsArray (setArrayLength a.toJsArray n throws).2 n ↔
      (Sparse a.toJsArray n → ¬Misses a.toJsArray n) := by
  have result : (setArrayLength a.toJsArray n throws).2 = { a.toJsArray with
        slots := (truncate n a.length a.slots).2, length := (truncate n a.length a.slots).1 } := by
    simp [setArrayLength, writable, slow]
  have own : a.own = live a.slots := by
    rw [JsArray.own, a.valid.slow slow]
    rfl
  have after : (setArrayLength a.toJsArray n throws).2.own = live (truncate n a.length a.slots).2 := by
    rw [result, JsArray.own]
    simp only [a.valid.slow slow]
    rfl
  have target : ∀ after : JsArray V, Truncates a.toJsArray after n ↔ IsFinal a.own n after.length ∧
      after.own = a.own.filter fun pr => !doomed after.length pr :=
    fun after => ⟨fun ⟨final, kept⟩ => ⟨final, kept⟩, fun ⟨final, kept⟩ => ⟨final, kept⟩⟩
  rw [target, after, own, result]
  unfold truncate
  by_cases shorter : n < a.length
  · rw [if_pos shorter]
    by_cases dense : a.length - n ≤ a.slots.length + 1
    · rw [if_pos dense]
      obtain ⟨-, final, left⟩ := walkDown_spec (n := n) a.valid.distinct (Nat.le_of_lt shorter) a.valid.below
      refine iff_of_true ⟨final, left⟩ fun sparse => ?_
      exact absurd sparse.2 (by omega)
    · rw [if_neg dense]
      constructor
      · rintro ⟨-, left⟩ - missed
        obtain ⟨pr, there, cut⟩ := (walkList_live a).2 missed
        rw [left, mem_filter, cut] at there
        exact absurd there.2 (by decide)
      · intro sound
        exact ⟨isFinal_raise a.slots n, (walkList_live a).1 (sound ⟨shorter, by omega⟩)⟩
  · rw [if_neg shorter]
    have below : ∀ pr ∈ live a.slots, ∀ idx, pr.key = .index idx → idx < n := by
      intro pr there idx is
      have := a.valid.below pr there idx is
      omega
    refine iff_of_true ⟨.of_below below, (filter_doomed below).symm⟩ fun sparse => ?_
    exact absurd sparse.1 shorter

/-- Assigning a length has the right effect exactly when a read-only length is not to change and
no walk along the properties passes over one that has to go; the two strategies agree exactly
when it would not. -/
theorem setArrayLength_truncates_iff (a : LiveArray V) (n : Nat) (throws : Bool) :
    (Truncates a.toJsArray (setArrayLength a.toJsArray n throws).2 n ↔
      if a.lengthWritable then a.fastArray = false → Sparse a.toJsArray n → ¬Misses a.toJsArray n
      else IsFinal a.own n a.length) ∧
    (n < a.length → (StrategiesAgree a.toJsArray n ↔ ¬Misses a.toJsArray n)) := by
  refine ⟨?_, strategiesAgree_iff a⟩
  cases writable : a.lengthWritable with
  | false =>
    have same : (setArrayLength a.toJsArray n throws).2 = a.toJsArray := by simp [setArrayLength, writable]
    rw [same, if_neg (by decide)]
    refine ⟨Truncates.final, fun final => ⟨final, (filter_doomed fun pr there idx is => ?_).symm⟩⟩
    rcases mem_append.mp there with element | slot
    · obtain ⟨idx', inside, is', -⟩ := mem_mapIdx_element element
      obtain rfl : idx' = idx := by simpa [is] using is'.symm
      cases fast : a.fastArray with
      | true => exact Nat.lt_of_lt_of_le inside (a.valid.fast fast).2.1
      | false =>
        rw [a.valid.slow fast] at inside
        exact absurd inside (by simp)
    · exact a.valid.below pr slot idx is
  | true =>
    cases fast : a.fastArray with
    | true => exact iff_of_true (setArrayLength_fast a writable fast throws) (by simp)
    | false =>
      rw [truncates_slow a writable fast throws]
      simp

def scattered : LiveArray Nat where
  length := 15001
  lengthWritable := true
  slots := (range 16).map fun k => some (element (1000 * k) k)
  fastArray := false
  values := []
  extensible := true
  valid := by
    refine ⟨by unfold Distinct; decide, by decide, ?_, (fun fast => by cases fast), fun _ => rfl⟩
    intro pr there idx is
    obtain ⟨k, small, rfl⟩ : ∃ k < 16, element (1000 * k) k = pr := by simpa [mem_live] using there
    obtain rfl : 1000 * k = idx := by simpa [element] using is
    change 1000 * k < 15001
    omega

/-- The last eight of them are still there when the length is zero. -/
theorem scattered_remain :
    (setArrayLength scattered.toJsArray 0 true).1 = .ok true ∧
      (setArrayLength scattered.toJsArray 0 true).2.length = 0 ∧
      element 15000 15 ∈ (setArrayLength scattered.toJsArray 0 true).2.own := by
  decide +kernel

end Assignment

end Arrays
