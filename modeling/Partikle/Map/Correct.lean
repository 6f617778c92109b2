import Partikle.Map.Update

/-!
Whole runs. As long as no walk loses the record it has saved as its next one, every
cursor reports what the ECMAScript cursor reports, and a finished one stays finished.
-/

namespace JsMap

open ListHead Option List

/-- What a call needs. Memory handed out is not in use and the resized table has
buckets; iterators are called while they are alive and callbacks return once. The
walks of `clear` and of `forEach` keep their next record while values are released. -/
def Allowed (fuel : Nat) (op : Op) (s : MapState) : Prop :=
  match op with
  | .set key _ alloc slack _ =>
    mapFindRecord fuel s (mapNormalizeKey key) = some none → ∀ r, alloc = some r →
      s.record r = none ∧
        (s.recordCountThreshold ≤ (s.recordCount + 1) % 2 ^ 32 → TableFits slack s)
  | .clear dying => ClearKeeps dying fuel (s.links.next .records) s
  | .next i => ∃ c : Cursor, s.cursors[i]? = some c ∧ c.kind ≠ .forEach ∧ c.freed = false
  | .callbackReturns i throws dyingArgs dying =>
    ∃ c : Cursor, s.cursors[i]? = some c ∧ c.kind = .forEach ∧ c.curRecord ≠ none ∧
      (throws = false → ∀ el s', forEachLeave i c dyingArgs s = some (el, s') →
        KeepsNext s' el dying)
  | _ => True

def RunAllowed (fuel : Nat) : List Op → MapState → Prop
  | [], _ => True
  | op :: ops, s => Allowed fuel op s ∧
      ∀ s' out, step fuel op s = some (s', out) → RunAllowed fuel ops s'

variable {s : MapState} {es : EcmaState} {recs : List RecId} {pos : RecId → Nat} {fuel : Nat}

theorem step_spec {op : Op} (sim : Sim s es recs pos) (bound : recs.length + 1 < fuel) (allowed : Allowed fuel op s) :
    ∃ s' recs' pos', step fuel op s = some (s', (ecmaStep op es).2) ∧ Sim s' (ecmaStep op es).1 recs' pos' ∧
    recs'.length ≤ recs.length + 1 := by
  have enough : recs.length < fuel := by omega
  cases op with
  | set key value alloc slack dying => exact jsMapSet_spec sim bound allowed
  | delete key dying =>
    obtain ⟨s', recs', stepped, simulated, fewer⟩ := jsMapDelete_spec sim enough
    exact ⟨s', recs', pos, stepped, simulated, by omega⟩
  | clear dying =>
    obtain ⟨s', recs', stepped, simulated, fewer⟩ := jsMapClear_spec sim enough allowed
    exact ⟨s', recs', pos, stepped, simulated, by omega⟩
  | createIterator kind => exact ⟨_, recs, pos, rfl, addCursor_sim sim (.iterator kind), by omega⟩
  | next i =>
    obtain ⟨c, there, iterator, alive⟩ := allowed
    obtain ⟨s', recs', stepped, simulated, fewer⟩ := jsMapIteratorNext_spec sim there iterator alive enough
    exact ⟨s', recs', pos, stepped, simulated, by omega⟩
  | forEach =>
    obtain ⟨s', stepped, simulated⟩ := forEachStart_spec sim enough
    exact ⟨s', recs, pos, stepped, simulated, by omega⟩
  | callbackReturns i throws dyingArgs dying =>
    obtain ⟨c, there, running, somewhere, keeps⟩ := allowed
    obtain ⟨r, stands⟩ := ne_none_iff_exists'.mp somewhere
    obtain ⟨s', recs', stepped, simulated, fewer⟩ :=
      forEachResume_spec sim there running stands enough throws dyingArgs dying keeps
    exact ⟨s', recs', pos, stepped, simulated, by omega⟩
  | finalize i =>
    obtain ⟨s', recs', stepped, shrinks, -, finalized⟩ := jsMapIteratorFinalizer_spec sim.linked i
    refine ⟨s', recs', pos, by simp [step, stepped, ecmaStep], sim.shrink shrinks finalized, ?_⟩
    have fewer := shrinks.sub.length_le
    omega

theorem run_spec {ops : List Op} (sim : Sim s es recs pos) (bound : recs.length + ops.length < fuel)
    (allowed : RunAllowed fuel ops s) :
    ∃ s' recs' pos', run fuel ops s = some (s', (ecmaRun ops es).2) ∧ Sim s' (ecmaRun ops es).1 recs' pos' := by
  induction ops generalizing s es recs pos with
  | nil => exact ⟨s, recs, pos, rfl, sim⟩
  | cons op ops ih =>
    simp only [length_cons] at bound
    obtain ⟨s1, recs1, pos1, stepped, simulated, fewer⟩ := step_spec sim (by omega) allowed.1
    obtain ⟨s2, recs2, pos2, ran, final⟩ := ih simulated (by omega) (allowed.2 _ _ stepped)
    refine ⟨s2, recs2, pos2, ?_, final⟩
    simp [run, stepped, ran, ecmaRun]

theorem newMap_sim (isSet : Bool) : Sim (newMap isSet) (newEcma isSet) [] fun _ => 0 := by
  refine ⟨⟨initListHead_isList _ _, ?_, ?_, ?_, ?_, ?_⟩, ⟨rfl, Nat.one_pos, by simp [newMap], ?_⟩, ?_,
    ⟨Pairwise.nil, ?_, ?_⟩, rfl, ?_, rfl⟩
  all_goals try simp [newMap, newEcma]
  intro i small
  have zero : i = 0 := by simpa [newMap] using small
  subst zero
  exact initListHead_isList _ _

def StaysFinished (ops : List Op) (outs : List Output) : Prop :=
  ∀ j k i : Nat, j < k → ops[j]? = some (.next i) → outs[j]? = some .done →
    ops[k]? = some (.next i) → outs[k]? = some .done

theorem ecmaRun_staysFinished {ops : List Op} (sim : Sim s es recs pos) (bound : recs.length + ops.length < fuel)
    (allowed : RunAllowed fuel ops s) : StaysFinished ops (ecmaRun ops es).2 := by
  induction ops generalizing s es recs pos with
  | nil =>
    intro j k i _ called
    simp at called
  | cons op ops ih =>
    simp only [length_cons] at bound
    obtain ⟨s1, recs1, pos1, stepped, simulated, fewer⟩ := step_spec sim (by omega) allowed.1
    have rest := ih simulated (by omega) (allowed.2 _ _ stepped)
    intro j k i before first done again
    obtain ⟨k, rfl⟩ : ∃ later, k = later + 1 := ⟨k - 1, by omega⟩
    cases j with
    | zero =>
      simp only [getElem?_cons_zero, some.injEq] at first
      subst first
      obtain ⟨c, there, -⟩ := allowed.1
      have inside := (List.getElem?_eq_some_iff.mp there).1
      rw [sim.length] at inside
      obtain ⟨kind, finished⟩ := ecmaNext_done inside (by simpa [ecmaRun, ecmaStep] using done)
      simpa [ecmaRun, ecmaStep] using ecmaRun_finished finished (by simpa using again)
    | succ j =>
      simpa [ecmaRun] using rest j k i (by omega) (by simpa using first)
        (by simpa [ecmaRun] using done) (by simpa using again)

/-- Every interleaving of calls on a new map or set reports what ECMAScript says,
provided that no walk loses its next record to a released value. -/
theorem cursors_follow_ecma (isSet : Bool) (ops : List Op) (fuel : Nat) (bound : ops.length < fuel)
    (allowed : RunAllowed fuel ops (newMap isSet)) :
    ∃ s outs, run fuel ops (newMap isSet) = some (s, outs) ∧ outs = (ecmaRun ops (newEcma isSet)).2 ∧
      StaysFinished ops outs := by
  have start := newMap_sim isSet
  have enough : ([] : List RecId).length + ops.length < fuel := by simpa using bound
  obtain ⟨s, -, -, ran, -⟩ := run_spec start enough allowed
  exact ⟨s, _, ran, rfl, ecmaRun_staysFinished start enough allowed⟩

/-- An entry is deleted under the iterator that stands on it, and the map is cleared. -/
def zombieTrace : List Op :=
  [.set .null .undefined (some 0) none [], .createIterator .key, .next 0, .delete .null [],
   .clear fun _ => []]

theorem cursors_follow_ecma_zombie :
    RunAllowed 9 zombieTrace (newMap false) ∧ ∃ s outs, run 9 zombieTrace (newMap false) = some (s, outs) ∧
      outs = (ecmaRun zombieTrace (newEcma false)).2 ∧ StaysFinished zombieTrace outs := by
  have allowed : RunAllowed 9 zombieTrace (newMap false) := by
    refine ⟨fun _ r _ => ⟨rfl, fun full => absurd full (by decide)⟩, fun s1 out1 first => ?_⟩
    obtain ⟨rfl, rfl⟩ := Prod.mk.inj (some.inj (show some (_, _) = some (s1, out1) from first))
    refine ⟨trivial, fun s2 out2 second => ?_⟩
    obtain ⟨rfl, rfl⟩ := Prod.mk.inj (some.inj (show some (_, _) = some (s2, out2) from second))
    refine ⟨⟨_, rfl, by decide, rfl⟩, fun s3 out3 third => ?_⟩
    obtain ⟨rfl, rfl⟩ := Prod.mk.inj (some.inj (show some (_, _) = some (s3, out3) from third))
    refine ⟨trivial, fun s4 out4 fourth => ?_⟩
    obtain ⟨rfl, rfl⟩ := Prod.mk.inj (some.inj (show some (_, _) = some (s4, out4) from fourth))
    refine ⟨fun r here => ?_, fun _ _ _ => trivial⟩
    obtain rfl := RecordNode.link.inj
      (some.inj (show some (RecordNode.link 0) = some (RecordNode.link r) from here))
    refine ⟨fun live => absurd live (by decide), fun _ _ r other => ?_⟩
    cases show some RecordNode.records = some (RecordNode.link r) from other
  exact ⟨allowed, cursors_follow_ecma false zombieTrace 9 (by decide) allowed⟩

/-- The iterator stands on the second record when that is deleted, and then becomes
the value of the first one. Clearing the map releases it with its last reference,
which frees the zombie that the loop has already saved as its next record. -/
def clearTrace : List Op :=
  [.set .null .undefined (some 0) none [], .set (.bool true) .undefined (some 1) none [],
   .createIterator .key, .next 0, .next 0, .delete (.bool true) [],
   .set .null (.object 7) none none [], .clear fun r => if r = 0 then [0] else []]

theorem clear_visits_freed_record :
    run 20 clearTrace (newMap false) = none ∧ (ecmaRun clearTrace (newEcma false)).2 = [.this, .this, .this,
      .item (.value .null), .item (.value (.bool true)), .bool true, .this, .undefined] := by
  refine ⟨isNone_iff_eq_none.mp ?_, ?_⟩ <;> decide

/-- The same loss in `forEach`: the callback deletes the next entry and returns the
iterator that stands on it. -/
example : (run 20
    [.set .null .undefined (some 0) none [], .set (.bool true) .undefined (some 1) none [],
     .createIterator .key, .next 0, .next 0, .forEach, .delete (.bool true) [],
     .callbackReturns 1 false [] [0]] (newMap false)).isNone = true := by
  decide

section Lookup

theorem isNan_of_isZero {bits : BitVec 64} (zero : isZero bits = true) : isNan bits = false := by
  simp only [isZero, isNan, decide_eq_true_eq, decide_eq_false_iff_not, not_lt] at zero ⊢
  omega

theorem floatEq_of_isZero {left right : BitVec 64} (zero : isZero right = true) :
    floatEq left right = (!isNan left && isZero left) ∧ floatEq right left = (!isNan left && isZero left) := by
  have number := isNan_of_isZero zero
  rcases eq_or_ne left right with rfl | same
  · simp [floatEq, zero, number]
  · simp [floatEq, zero, number, beq_false_of_ne same, beq_false_of_ne (Ne.symm same)]

/-- The sign of a zero does not matter to SameValueZero. -/
theorem sameValueZero_normalize (left key : JsValue) :
    sameValueZero left (mapNormalizeKey key) = sameValueZero left key ∧
      sameValueZero (mapNormalizeKey key) left = sameValueZero key left := by
  cases key with
  | float64 bits =>
    by_cases zero : isZero bits = true
    · have number := isNan_of_isZero zero
      have zero' : isZero (intToDouble 0#32) = true := by decide
      have number' := isNan_of_isZero zero'
      cases left <;> simp [mapNormalizeKey, zero, sameValueZero, toDouble, number, number', floatEq_of_isZero zero,
        floatEq_of_isZero zero']
    · simp [mapNormalizeKey, zero]
  | _ => exact ⟨rfl, rfl⟩

/-- One resize after the other, with the answers of the allocator. -/
def mapHashResizes (fuel : Nat) : List (Option Nat) → MapState → Option MapState
  | [], s => some s
  | slack :: rest, s => (mapHashResize fuel slack s).bind (mapHashResizes fuel rest)

def TablesFit (fuel : Nat) : List (Option Nat) → MapState → Prop
  | [], _ => True
  | slack :: rest, s => TableFits slack s ∧ ∀ s', mapHashResize fuel slack s = some s' → TablesFit fuel rest s'

theorem mapHashResizes_spec {slacks : List (Option Nat)} (linked : Linked s recs)
    (hashed : Hashed s (recs.filter s.isLive)) (bound : recs.length < fuel) (fits : TablesFit fuel slacks s) :
    ∃ s', mapHashResizes fuel slacks s = some s' ∧ Hashed s' (recs.filter s'.isLive) ∧ s'.record = s.record := by
  induction slacks generalizing s with
  | nil => exact ⟨s, rfl, hashed, rfl⟩
  | cons slack rest ih =>
    obtain ⟨s1, resized, linked1, hashed1, records, -⟩ := mapHashResize_spec linked hashed fits.1 bound
    have live : s.isLive = s1.isLive := by
      funext r
      rw [MapState.isLive, MapState.isLive, records]
    rw [live] at hashed1
    obtain ⟨s', again, hashed', records'⟩ := ih linked1 hashed1 (fits.2 s1 resized)
    exact ⟨s', by rw [mapHashResizes, resized, bind_some, again], hashed', records'.trans records⟩

/-- However often the table has been resized, a lookup finds a record with the same key if there is one,
and keys that are the same belong in the same bucket. -/
theorem mapFindRecord_finds {slacks : List (Option Nat)} (linked : Linked s recs)
    (hashed : Hashed s (recs.filter s.isLive)) (normal : ∀ r mr, s.record r = some mr → Normalized mr.key)
    (bound : recs.length < fuel) (fits : TablesFit fuel slacks s) :
    ∃ s', mapHashResizes fuel slacks s = some s' ∧ ∀ key, ∃ found,
      mapFindRecord fuel s' (mapNormalizeKey key) = some found ∧ (∀ r, found = some r → s.hasKey key r = true) ∧
      (found = none → ∀ r, s.hasKey key r = false) ∧ ∀ other, sameValueZero key other = true →
      hashIndex (mapNormalizeKey key) s'.hashSize = hashIndex (mapNormalizeKey other) s'.hashSize := by
  obtain ⟨s', resized, hashed', records⟩ := mapHashResizes_spec linked hashed bound fits
  refine ⟨s', resized, fun key => ?_⟩
  have finds := mapFindRecord_spec hashed' (records ▸ normal) (mapNormalizeKey_normalized key) bound
  have keys : s'.hasKey (mapNormalizeKey key) = s.hasKey key := by
    funext r
    simp [MapState.hasKey, records, sameValueZero_normalize]
  rw [keys] at finds
  refine ⟨_, finds, fun r found => find?_some found, fun missing r => ?_, fun other same => ?_⟩
  · by_cases member : r ∈ recs
    · simpa using find?_eq_none.mp missing r member
    · have absent : s.record r = none := by
        rw [eq_none_iff_forall_ne_some]
        exact fun mr found => member ((linked.allocated r).mpr ⟨mr, found⟩)
      simp [MapState.hasKey, absent]
  · have same' : sameValueZero (mapNormalizeKey key) (mapNormalizeKey other) = true := by
      rw [(sameValueZero_normalize _ other).1, (sameValueZero_normalize other key).2, same]
    rw [hashIndex, mapHashKey_eq_of_same (mapNormalizeKey_normalized _) (mapNormalizeKey_normalized _) same', hashIndex]

def twoKeys : MapState := ((newMap false).insertRecord 0 .null).insertRecord 1 (.int 5)

theorem mapFindRecord_finds_twoKeys : ∃ s', mapHashResizes 3 [some 1] twoKeys = some s' ∧
    ∀ key, key = .null ∨ key = .int 5 →
      ∃ r, mapFindRecord 3 s' key = some (some r) ∧ twoKeys.hasKey key r = true := by
  have start := newMap_sim false
  have linked : Linked twoKeys [0, 1] :=
    insertRecord_linked _ (insertRecord_linked _ start.linked (r := 0) rfl) (r := 1) rfl
  have first : Hashed _ ([0].filter ((newMap false).insertRecord 0 .null).isLive) :=
    insertRecord_hashed .null start.hashed (by simp)
  have hashed : Hashed twoKeys [0, 1] := insertRecord_hashed (r := 1) _ first (by simp)
  have fits : TablesFit 3 [some 1] twoKeys := ⟨⟨by decide, by rintro _ ⟨⟩; decide⟩, fun _ _ => trivial⟩
  have normal : ∀ r mr, twoKeys.record r = some mr → Normalized mr.key := by
    intro r mr found
    rcases update_some found with ⟨-, rfl⟩ | ⟨-, old⟩
    · rfl
    rcases update_some old with ⟨-, rfl⟩ | ⟨-, none⟩
    · rfl
    · cases none
  obtain ⟨s', resized, finds⟩ := mapFindRecord_finds linked hashed normal (by decide) fits
  refine ⟨s', resized, fun key is => ?_⟩
  obtain ⟨found, looked, right, missing, -⟩ := finds key
  have here : mapNormalizeKey key = key ∧ ∃ r, twoKeys.hasKey key r = true := by
    rcases is with rfl | rfl
    · exact ⟨rfl, 0, rfl⟩
    · exact ⟨rfl, 1, rfl⟩
  rw [here.1] at looked
  cases found with
  | none => exact absurd here.2 (by simp [missing rfl])
  | some r => exact ⟨r, looked, right r rfl⟩

/-- An empty map whose table has been resized to this size. -/
def emptyTable (size : Nat) : MapState :=
  { newMap false with
    hashSize := size
    recordCountThreshold := size * 2 % 2 ^ 32
    hashLinks := initBuckets size (newMap false).hashLinks }

theorem emptyTable_resize {size : Nat} (positive : 1 < size) (small : size < 2 ^ 32) (wraps : size * 2 % 2 ^ 32 = 0) :
    Linked (emptyTable size) [] ∧ Hashed (emptyTable size) [] ∧ ∀ slack, ∃ s',
      mapHashResize 1 slack (emptyTable size) = some s' ∧ mapFindRecord 1 s' .null = none := by
  refine ⟨{ (newMap_sim false).linked with }, ⟨rfl, Nat.zero_lt_of_lt positive, small, initBuckets_buckets _ _ _⟩, ?_⟩
  have full : newHashSize (emptyTable size) = 0 := (if_neg positive.ne').trans wraps
  exact fun slack => ⟨_, if_pos full, rfl⟩

/-- A table of `2 ^ 31` buckets gets twice as many, which are none: its memory is released. -/
theorem mapHashResize_frees_table :
    Linked (emptyTable (2 ^ 31)) [] ∧ Hashed (emptyTable (2 ^ 31)) [] ∧ ∀ slack, ∃ s',
      mapHashResize 1 slack (emptyTable (2 ^ 31)) = some s' ∧ mapFindRecord 1 s' .null = none :=
  emptyTable_resize (by decide) (by decide) (by decide)

end Lookup

end JsMap
