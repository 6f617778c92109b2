import Partikle.Lib.Trace
import Partikle.Lib.Wrap
import Mathlib.Data.Finset.Card
import Mathlib.Data.Finset.Range

/-!
`Promise.all`, `Promise.allSettled` and `Promise.any`. The actions are those of the loop that registers the elements,
and the calls of the functions that the elements have been given, which user code makes as often and when it likes.
The counter of the elements and their indices are `int`s that wrap around. Memory does not run out.
-/

namespace PromiseAll

open Wrap Function Option

inductive Magic where
  | all
  | allSettled
  | any
deriving DecidableEq

/-- What is stored for an element: with `allSettled` an object that has a status, and otherwise the value. -/
inductive Entry (V : Type) where
  | plain (value : V)
  | fulfilled (value : V)
  | rejected (reason : V)

/-- `alreadyCalled` is in the data of the functions `js_promise_all_resolve_element`, each of which has its own copy,
and `result` the list that the resolving function has been called with. Elements are numbered, and `index` is the
number of the next one. The loop is over when the iterator is done; if an exception stops it, it takes no further
step. -/
structure State (V : Type) where
  looping : Bool
  index : Nat
  alreadyCalled : Nat → Bool → Bool
  values : Nat → Option (Entry V)
  remainingElementsCount : Int
  result : Option (Nat → Option (Entry V))

inductive Action (V : Type) where
  | register
  | call (index : Nat) (isReject : Bool) (value : V)
  | finish

variable {V : Type} (undefined : V) (magic : Magic)

/-- The call is one of `js_promise_all_resolve_element`, and not of a resolving function of the result. -/
def isElement (isReject : Bool) : Bool :=
  match magic with
  | .all => !isReject
  | .allSettled => true
  | .any => isReject

def entryOf (isReject : Bool) (value : V) : Entry V :=
  if magic = .allSettled then if isReject then .rejected value else .fulfilled value else .plain value

/-- The `int` that an element is given as its index is the `uint32_t` of its place in the list. -/
def place (index : Nat) : Nat := index % 2 ^ 32

/-- `remainingElementsCount_add` with the addend -1. After the last element the list goes to the resolving function. -/
def countDown (s : State V) : State V :=
  { s with
    remainingElementsCount := int32 (s.remainingElementsCount - 1)
    result := if int32 (s.remainingElementsCount - 1) = 0 then some s.values else s.result }

def jsPromiseAllResolveElement (s : State V) (index : Nat) (isReject : Bool) (value : V) : State V :=
  if s.alreadyCalled index isReject then s
  else
    countDown
      { s with
        alreadyCalled := update s.alreadyCalled index (update (s.alreadyCalled index) isReject true)
        values := update s.values (place index) (some (entryOf magic isReject value)) }

def register (s : State V) : State V :=
  { s with
    index := s.index + 1
    values := if magic = .any then update s.values (place s.index) (some (.plain undefined)) else s.values
    remainingElementsCount := int32 (s.remainingElementsCount + 1) }

/-- The second component keeps the entry of the first call for each element. -/
abbrev Recorded (V : Type) := State V × (Nat → Option (Entry V))

def step (r : Recorded V) : Action V → Option (Recorded V × List Unit)
  | .register => if r.1.looping then some ((register undefined magic r.1, r.2), []) else none
  | .call index isReject value =>
    if index < r.1.index ∧ isElement magic isReject then
      some ((jsPromiseAllResolveElement magic r.1 index isReject value,
        update r.2 index (r.2 index <|> some (entryOf magic isReject value))), [])
    else none
  | .finish => if r.1.looping then some ((countDown { r.1 with looping := false }, r.2), []) else none

def start : Recorded V := (⟨true, 0, fun _ _ => false, fun _ => none, 1, none⟩, fun _ => none)

def waiting (index : Nat) (first : Nat → Option (Entry V)) : Nat :=
  ((Finset.range index).filter fun i => (first i).isNone).card

structure Conforms (r : Recorded V) : Prop where
  stored : ∀ i, r.2 i ≠ none → r.1.values (place i) = r.2 i
  counter : r.1.remainingElementsCount = (if r.1.looping then 1 else 0) + waiting r.1.index r.2
  settled : ∀ values, r.1.result = some values →
    r.1.looping = false ∧ ∀ i < r.1.index, r.2 i ≠ none ∧ values (place i) = r.2 i

/-- With `allSettled` a thenable calls only one of its two functions, and one more element can be counted. -/
def Fair (r : Recorded V) : Action V → Prop
  | .register => r.1.remainingElementsCount + 1 < 2 ^ 31
  | .call index isReject _ => magic = .allSettled →
      r.1.alreadyCalled index isReject = true ∨ r.1.alreadyCalled index (!isReject) = false
  | .finish => True

structure Inv (r : Recorded V) : Prop where
  flags : ∀ i, r.2 i ≠ none ↔ ∃ b, r.1.alreadyCalled i b = true
  element : ∀ i b, r.1.alreadyCalled i b = true → isElement magic b = true
  beyond : ∀ i, r.1.index ≤ i → r.2 i = none
  word : r.1.remainingElementsCount < 2 ^ 31

theorem start_conforms : Inv magic (start : Recorded V) ∧ Conforms (start : Recorded V) := by
  constructor <;> constructor <;> simp [start, waiting]

variable {undefined} {magic} {r r' : Recorded V} {a : Action V} {events : List Unit}

variable {first : Nat → Option (Entry V)} {index i : Nat} {b : Bool}

theorem place_of_lt (few : i < 2 ^ 32) : place i = i := Nat.mod_eq_of_lt few

theorem int32_lt (n : Int) : int32 n < 2 ^ 31 := by
  unfold int32
  rw [Int.bmod_def]
  omega

theorem waiting_update (below : i < index) (new : first i = none)
    (e : Entry V) : waiting index first = waiting index (update first i (some e)) + 1 := by
  unfold waiting
  have member : i ∈ (Finset.range index).filter fun j => (first j).isNone := by simp [below, new]
  rw [← Finset.card_erase_add_one member]
  congr 2
  ext j
  by_cases same : j = i <;> simp [same]

theorem waiting_succ (new : first index = none) : waiting (index + 1) first = waiting index first + 1 := by
  unfold waiting
  rw [Finset.range_add_one, Finset.filter_insert, if_pos (by simp [new]), Finset.card_insert_of_notMem (by simp)]

theorem Conforms.pending (conforms : Conforms r) (waits : r.1.looping = true ∨ ∃ i < r.1.index, r.2 i = none) :
    r.1.result = none := by
  by_contra given
  obtain ⟨values, is⟩ := ne_none_iff_exists'.mp given
  obtain ⟨ended, complete⟩ := conforms.settled values is
  rcases waits with looping | ⟨i, below, missing⟩
  · simp [looping] at ended
  · exact (complete i below).1 missing

theorem countDown_conforms {s : State V} (stored : ∀ i, first i ≠ none → s.values (place i) = first i)
    (counter : s.remainingElementsCount - 1 = (if s.looping then 1 else 0) + waiting s.index first)
    (word : s.remainingElementsCount < 2 ^ 31) (pending : s.result = none) : Conforms (countDown s, first) := by
  have exact' : int32 (s.remainingElementsCount - 1) = s.remainingElementsCount - 1 := by
    apply int32_of_small <;> split at counter <;> omega
  rw [← exact'] at counter
  refine ⟨stored, counter, fun list given => ?_⟩
  unfold countDown at given ⊢
  split at given
  · rename_i zero
    cases given
    rw [zero] at counter
    cases isLooping : s.looping with
    | true =>
      rw [isLooping, if_pos rfl] at counter
      omega
    | false =>
      have nobody : waiting s.index first = 0 := by simpa [isLooping] using counter.symm
      rw [waiting, Finset.card_eq_zero, Finset.filter_eq_empty_iff] at nobody
      refine ⟨rfl, fun i below => ?_⟩
      have called : first i ≠ none := by simpa using nobody (Finset.mem_range.mpr below)
      exact ⟨called, stored i called⟩
  · simp [pending] at given

theorem Inv.place_ne {j : Nat} (inv : Inv magic r) (few : r.1.index < 2 ^ 32) (given : r.2 j ≠ none)
    (inside : i ≤ r.1.index) (other : j ≠ i) : place j ≠ place i := by
  have below : j < r.1.index := by
    by_contra beyond
    exact given (inv.beyond j (not_lt.mp beyond))
  rwa [place_of_lt (by omega), place_of_lt (by omega)]

/-- A function that is called again does nothing. -/
theorem call_again (inv : Inv magic r) (again : r.1.alreadyCalled i b = true) (value : V) :
    (jsPromiseAllResolveElement magic r.1 i b value, update r.2 i (r.2 i <|> some (entryOf magic b value))) = r := by
  obtain ⟨e, first⟩ := ne_none_iff_exists'.mp ((inv.flags i).mpr ⟨b, again⟩)
  have same : update r.2 i (r.2 i <|> some (entryOf magic b value)) = r.2 := by
    rw [first]
    exact update_eq_self_iff.mpr first.symm
  rw [same, jsPromiseAllResolveElement, if_pos again]

theorem inv_call (inv : Inv magic r) (below : i < r.1.index) (element : isElement magic b = true)
    (value : V) : Inv magic (jsPromiseAllResolveElement magic r.1 i b value,
      update r.2 i (r.2 i <|> some (entryOf magic b value))) := by
  by_cases again : r.1.alreadyCalled i b = true
  · rwa [call_again inv again]
  · rw [jsPromiseAllResolveElement, if_neg again]
    refine ⟨fun j => ?_, fun j c => ?_, fun j beyond => ?_, int32_lt _⟩
    · rcases eq_or_ne j i with rfl | other
      · refine iff_of_true ?_ ⟨b, by simp [countDown]⟩
        cases r.2 j <;> simp
      · simpa [countDown, other] using inv.flags j
    · rcases eq_or_ne j i with rfl | other
      · rcases eq_or_ne c b with rfl | otherSide
        · exact fun _ => element
        · simpa [countDown, otherSide] using inv.element j c
      · simpa [countDown, other] using inv.element j c
    · exact (update_of_ne (below.trans_le beyond).ne' ..).trans (inv.beyond j beyond)

theorem conforms_call (inv : Inv magic r) (conforms : Conforms r) (few : r.1.index < 2 ^ 32) (below : i < r.1.index)
    (element : isElement magic b = true) (value : V) : Conforms (jsPromiseAllResolveElement magic r.1 i b value,
      update r.2 i (r.2 i <|> some (entryOf magic b value))) ↔ Fair magic r (.call i b value) := by
  by_cases again : r.1.alreadyCalled i b = true
  · rw [call_again inv again]
    exact iff_of_true conforms fun _ => .inl again
  · rw [jsPromiseAllResolveElement, if_neg again]
    cases first : r.2 i with
    | none =>
      have never : r.1.alreadyCalled i (!b) = false := by
        by_contra called
        exact (inv.flags i).mpr ⟨!b, by simpa using called⟩ first
      refine iff_of_true (countDown_conforms (fun j given => ?_) ?_ inv.word ?_) fun _ => .inr never
      · rcases eq_or_ne j i with rfl | other
        · simp
        · have given : r.2 j ≠ none := by simpa [other] using given
          simpa [other, inv.place_ne few given below.le other] using conforms.stored j given
      · have fewer := waiting_update below first (entryOf magic b value)
        have counter := conforms.counter
        simp only [orElse_eq_orElse, orElse_none]
        omega
      · exact conforms.pending (.inr ⟨i, below, first⟩)
    | some e =>
      -- the other function of the element has been called, and counts it once more
      obtain ⟨c, called⟩ := (inv.flags i).mp (by simp [first])
      have side : c = !b := by
        cases b <;> cases c <;> simp_all
      subst side
      refine iff_of_false (fun conforms' => ?_) fun fair => ?_
      · have counter := conforms.counter
        have counter' := conforms'.counter
        have same : update r.2 i (some e <|> some (entryOf magic b value)) = r.2 :=
          update_eq_self_iff.mpr first.symm
        rw [same] at counter'
        have exact' := int32_of_small (n := r.1.remainingElementsCount - 1) (by split at counter <;> omega)
          (by have := inv.word; omega)
        simp only [countDown, exact'] at counter'
        omega
      · have both : magic = .allSettled := by
          have element' := inv.element i (!b) called
          cases magic <;> cases b <;> simp_all [isElement]
        rcases fair both with again' | never
        · exact again again'
        · simp [called] at never

theorem inv_step (inv : Inv magic r) (next : step undefined magic r a = some (r', events)) : Inv magic r' := by
  cases a <;>
    simp only [step, ite_none_right_eq_some, some.injEq, Prod.mk.injEq] at next <;>
    obtain ⟨guard, rfl, -⟩ := next
  case register =>
    exact ⟨inv.flags, inv.element, fun i beyond => inv.beyond i (Nat.le_of_succ_le beyond), int32_lt _⟩
  case call i b value => exact inv_call inv guard.1 guard.2 value
  case finish => exact ⟨inv.flags, inv.element, inv.beyond, int32_lt _⟩

theorem conforms_register (inv : Inv magic r) (conforms : Conforms r) (few : r.1.index < 2 ^ 32)
    (looping : r.1.looping = true) : Conforms (register undefined magic r.1, r.2) ↔
      r.1.remainingElementsCount + 1 < 2 ^ 31 := by
  have new := inv.beyond r.1.index le_rfl
  have counter := conforms.counter
  rw [looping, if_pos rfl] at counter
  have more := waiting_succ new
  constructor
  · intro conforms'
    have counter' := conforms'.counter
    have word := int32_lt (r.1.remainingElementsCount + 1)
    simp only [register, looping, if_true, more] at counter'
    omega
  · intro room
    have exact' := int32_of_small (n := r.1.remainingElementsCount + 1) (by omega) room
    refine ⟨fun i given => ?_, ?_, fun values given => ?_⟩
    · have other : i ≠ r.1.index := fun same => given (same ▸ new)
      rw [← conforms.stored i given, register]
      split
      · exact update_of_ne (inv.place_ne few given le_rfl other) ..
      · rfl
    · simp only [register, exact', looping, if_true, more]
      omega
    · simp [register, conforms.pending (.inl looping)] at given

theorem conforms_step (inv : Inv magic r) (conforms : Conforms r) (few : r.1.index < 2 ^ 32)
    (next : step undefined magic r a = some (r', events)) : Conforms r' ↔ Fair magic r a := by
  cases a <;>
    simp only [step, ite_none_right_eq_some, some.injEq, Prod.mk.injEq] at next <;>
    obtain ⟨guard, rfl, -⟩ := next
  case register => exact conforms_register inv conforms few guard
  case call i b value => exact conforms_call inv conforms few guard.1 guard.2 value
  case finish =>
    have counter := conforms.counter
    rw [guard, if_pos rfl] at counter
    refine iff_of_true (countDown_conforms conforms.stored ?_ inv.word ?_) trivial
    · simp only [counter, Bool.false_eq_true, if_false]
      omega
    · exact conforms.pending (.inl guard)

/-- Among fewer than 2^32 elements, in all states of a run every element has contributed at most the entry of its first
call, the counter is right and the list complete, exactly if the counter has room for each new element and no thenable
calls both functions of `allSettled`. -/
theorem promiseAll_conforms_iff {actions : List (Action V)} {log : List Unit}
    (few : Trace.Along (step undefined magic) (fun r _ => r.1.index < 2 ^ 32) start actions)
    (reached : Trace.run (step undefined magic) start [] actions = some (r', log)) :
    Trace.Throughout (step undefined magic) Conforms start actions ↔
      Trace.Along (step undefined magic) (Fair magic) start actions :=
  Trace.throughout_iff (P := Inv magic) (fun _ _ _ _ => inv_step)
    (fun _ _ _ _ inv conforms few next => conforms_step inv conforms few next) (start_conforms magic).1
    (start_conforms magic).2 few reached

/-- The first of two thenables calls one of its functions twice, the second one its other function. -/
theorem promiseAll_conforms_iff_repeatedCall :
    Trace.Throughout (step 0 .allSettled) Conforms start
      [.register, .call 0 false 7, .register, .call 0 false 9, .call 1 true 8, .finish] := by
  refine (promiseAll_conforms_iff ?_ rfl).mpr ?_
  · iterate 6 refine (Trace.along_cons rfl).mpr ⟨by decide, ?_⟩
    trivial
  · refine (Trace.along_cons rfl).mpr ⟨by unfold Fair; decide, (Trace.along_cons rfl).mpr ⟨fun _ => .inr rfl, ?_⟩⟩
    refine (Trace.along_cons rfl).mpr ⟨by unfold Fair; decide, (Trace.along_cons rfl).mpr ⟨fun _ => .inl rfl, ?_⟩⟩
    exact (Trace.along_cons rfl).mpr ⟨fun _ => .inr rfl, (Trace.along_cons rfl).mpr ⟨trivial, trivial⟩⟩

/-- The first of two thenables calls both its functions, and the list is given without an entry of the second. -/
theorem allSettled_without_second : ∃ r : Recorded Nat, r.1.result.isSome ∧ r.2 1 = none ∧ ¬ Conforms r ∧
    Trace.run (step 0 .allSettled) start [] [.register, .register, .call 0 false 7, .call 0 true 8, .finish] =
      some (r, []) := by
  refine ⟨_, rfl, rfl, fun conforms => ?_, rfl⟩
  exact ((conforms.settled _ rfl).2 1 (by decide)).1 rfl

end PromiseAll
