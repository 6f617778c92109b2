import Partikle.Lib.Trace
import Partikle.Map.Correct
import Partikle.Map.Deaths

/-!
`record_count` over whole runs of all maps of a runtime. Every map counts the records it has and those it has lost
to the deaths of their keys, so it is right as long as no key of a weak map dies.
-/

namespace JsMap

open ListHead HashChain Function List Option

variable {w w' : Runtime} {lost : Nat → Nat} {fuel : Nat}

variable {s : MapState} {r : RecId} {gone : List WeakRef} {dying : List Death} {recs : List RecId}
  {notes : List Note}

section Delete

variable {mr : WeakRef} {o : MapObject} {record : Record}

theorem outAt_self (mr : WeakRef) : outAt (some mr) mr.map = update nothing mr.record true := by
  funext r
  rcases eq_or_ne r mr.record with rfl | same
  · simp [outAt]
  · rw [update_of_ne same]
    simp only [outAt, some.injEq, decide_eq_false_iff_not]
    intro equal
    exact same (by rw [equal])

theorem Sound.takeOut (sound : Sound w none lost) (there : w.maps mr.map = some o) (isWeak : o.isWeak = true)
    (present : o.state.record mr.record = some record)
    (done : deleteWeakRef fuel mr (w.change mr.map (·.delFromBucket mr.record)) = some w') :
    Sound w' (some mr) lost ∧ Fewer w w' := by
  have here := change_maps_self (f := (·.delFromBucket mr.record)) there
  have keys : ∀ mr' p, KeyAt (w.change mr.map (·.delFromBucket mr.record)) mr' p ↔ KeyAt w mr' p :=
    fun _ _ => keyAt_change there fun _ => rfl
  have chains : Chained (w.change mr.map (·.delFromBucket mr.record)) (KeyAt w) :=
    sound.chains.congr (by simp) rfl rfl
  obtain ⟨⟨o1, record1⟩, -, walked⟩ := bind_eq_some_iff.mp done
  simp only at walked
  split at walked
  · obtain ⟨maps, created, chained⟩ := deleteWeakRefLoop_spec chains
      (fun _ _ _ first second => first.unique second) walked
    have sameKeys : ∀ mr' p, KeyAt w' mr' p ↔ KeyAt w mr' p :=
      fun mr' p => (keyAt_congr maps).trans (keys mr' p)
    have fewer : Fewer w w' := by
      refine ⟨fun m o' there' => ?_, fun mr' p => (sameKeys mr' p).mp⟩
      rw [maps] at there'
      obtain ⟨o0, found, kind⟩ := of_change_maps there'
      exact ⟨o0, found, kind⟩
    obtain ⟨recs, tally⟩ := sound.tallies _ o there
    have live : o.state.isLive mr.record = true := by
      have nonempty := (tally.linked.bare (sound.bare _ o there isWeak) present).1
      simp [MapState.isLive, present, nonempty]
    refine ⟨sound.replace there maps created ⟨recs, ?_⟩ (fun m different => ?_)
      (fun weak => sound.bare _ o there weak) ?_ ?_, fewer⟩
    · rw [outAt_self]
      exact tally.takeOut live rfl
    · rw [outAt_of_ne different, outAt_none]
    · refine chained.congr (fun mr' p => ?_) rfl rfl
      rw [sameKeys, ne_eq, some.injEq, eq_comm]
    · rintro mr' o' ⟨⟩ there'
      cases (maps ▸ here).symm.trans there'
      exact isWeak
  · cases walked

theorem dropRecord_record (last : record.refCount - 1 = 0) :
    (s.dropRecord r record).record = update s.record r none := by
  simp only [MapState.dropRecord, last, ↓reduceIte, MapState.freeRecord]

theorem Sound.drop (sound : Sound w (some mr) lost) (there : w.maps mr.map = some o)
    (present : o.state.record mr.record = some record) :
    Sound (w.change mr.map (·.dropRecord mr.record record)) none lost := by
  have isWeak := sound.weak mr o rfl there
  obtain ⟨recs, tally⟩ := sound.tallies _ o there
  rw [outAt_self] at tally
  obtain ⟨live, unheld⟩ := tally.linked.bare (sound.bare _ o there isWeak) present
  have last : record.refCount - 1 = 0 := by
    have counted := tally.linked.counted mr.record record present
    simp only [live, Bool.false_eq_true, ↓reduceIte, unheld] at counted
    omega
  have keys : ∀ mr' p, KeyAt (w.change mr.map (·.dropRecord mr.record record)) mr' p ↔ KeyAt w mr' p ∧ mr' ≠ mr := by
    intro mr' p
    refine keyAt_free there ?_ fun r different => ?_
    · simp [dropRecord_record last]
    · simp [dropRecord_record last, update_of_ne different]
  refine sound.replace there rfl rfl ?_ (fun m different => ?_) (fun weak => ?_) ?_ nofun
  · exact tally.drop present live unheld (by simp) fun q different => (update_of_ne different _ _).symm
  · rw [outAt_none, outAt_of_ne different]
  · have cursors : (o.state.dropRecord mr.record record).cursors = o.state.cursors := by
      unfold MapState.dropRecord
      split <;> rfl
    rw [cursors, sound.bare _ o there weak]
  · refine sound.chains.congr (fun mr' p => ?_) rfl rfl
    rw [keys, ne_eq, ne_eq, ne_eq, some.injEq, eq_comm (a := mr)]
    simp

theorem record_eq_some {entry : MapObject × Record} (found : w.record mr = some entry) :
    w.maps mr.map = some entry.1 ∧ entry.1.state.record mr.record = some entry.2 := by
  obtain ⟨o', there, rest⟩ := bind_eq_some_iff.mp found
  obtain ⟨record', present, same⟩ := bind_eq_some_iff.mp rest
  cases same
  exact ⟨there, present⟩

theorem Sound.mapDeleteWeak (sound : Sound w none lost) (there : w.maps mr.map = some o) (isWeak : o.isWeak = true)
    (done : mapDeleteWeak fuel mr dying w = some (w', gone)) :
    Sound w' none (fun m => lost m + lostOf gone m) ∧ ∀ mr' ∈ gone, ∃ p, .object p ∈ dying ∧ KeyAt w mr' p := by
  obtain ⟨⟨o', record⟩, found, rest⟩ := bind_eq_some_iff.mp done
  obtain ⟨there', present⟩ := record_eq_some found
  simp only at there' present
  obtain rfl : o = o' := some.inj (there.symm.trans there')
  obtain ⟨recs, tally⟩ := sound.tallies _ o there
  obtain ⟨live, -⟩ := tally.linked.bare (sound.bare _ o there isWeak) present
  simp only [live, Bool.false_eq_true, ↓reduceIte] at rest
  split at rest
  · obtain ⟨w1, unlisted, rest1⟩ := bind_eq_some_iff.mp rest
    obtain ⟨⟨w2, gone2⟩, died, rest2⟩ := bind_eq_some_iff.mp rest1
    obtain ⟨⟨o2, record2⟩, found2, last⟩ := bind_eq_some_iff.mp rest2
    cases last
    obtain ⟨there2, present2⟩ := record_eq_some found2
    obtain ⟨sound1, fewer1⟩ := sound.takeOut there isWeak present unlisted
    obtain ⟨sound2, -, keys2⟩ := sound1.dieAll died
    refine ⟨sound2.drop there2 present2, fun mr' inside => ?_⟩
    obtain ⟨p, member, key⟩ := keys2 mr' inside
    exact ⟨p, member, fewer1.keys mr' p key⟩
  · cases rest

end Delete

section Insert

variable {m : Nat} {o : MapObject} {p : Nat}

variable (sound : Sound w none lost) (there : w.maps m = some o)

include sound there

theorem Sound.insert (isWeak : o.isWeak = true) (unused : o.state.record r = none)
    (tally : Tally s recs nothing (lost m)) (cursors : s.cursors = [])
    (own : (s.record r).map Record.key = some (.object p))
    (others : ∀ q, q ≠ r → (s.record q).map Record.key = (o.state.record q).map Record.key) :
    Sound ((w.addWeakRef p ⟨m, r⟩).change m fun _ => s) none lost := by
  have fresh : ∀ q, ¬(KeyAt w ⟨m, r⟩ q ∧ none ≠ some (⟨m, r⟩ : WeakRef)) := by
    rintro q ⟨⟨o', there', -, key⟩, -⟩
    rw [there, some.injEq] at there'
    subst there'
    simp [unused] at key
  have keys : ∀ mr q, KeyAt ((w.addWeakRef p ⟨m, r⟩).change m fun _ => s) mr q ↔
      KeyAt w mr q ∨ mr = ⟨m, r⟩ ∧ q = p := by
    intro mr q
    have there' : (w.addWeakRef p ⟨m, r⟩).maps m = some o := there
    by_cases same : mr.map = m
    · rw [keyAt_change_self there' same]
      by_cases equal : mr.record = r
      · obtain rfl : mr = ⟨m, r⟩ := by
          cases mr
          simp_all
        have absent : ¬KeyAt w ⟨m, r⟩ q := fun key => fresh q ⟨key, by simp⟩
        simp only [isWeak, own, absent, some.injEq, JsValue.object.injEq, true_and, false_or]
        exact eq_comm
      · have different : mr ≠ ⟨m, r⟩ := by
          rintro rfl
          exact equal rfl
        unfold KeyAt
        rw [same, there, others _ equal]
        simp [different, isWeak]
    · have different : mr ≠ ⟨m, r⟩ := by
        rintro rfl
        exact same rfl
      have untouched : KeyAt (w.addWeakRef p ⟨m, r⟩) mr q ↔ KeyAt w mr q := .rfl
      rw [keyAt_change_of_ne same, untouched]
      simp [different]
  refine sound.replace (f := fun _ => s) there rfl rfl ⟨recs, ?_⟩ (fun _ _ => rfl) (fun _ => cursors) ?_ nofun
  · rwa [outAt_none]
  · refine (sound.chains.addWeakRef fresh).congr (fun mr q => ?_) rfl rfl
    rw [keys]
    simp

theorem Sound.setValue {record : Record} (present : o.state.record r = some record) (value : JsValue) :
    Sound (w.change m (·.setRecord r { record with value := value })) none lost := by
  obtain ⟨recs, tally⟩ := sound.tallies m o there
  refine (sound.change there ⟨recs, ?_⟩ (fun weak => sound.bare m o there weak) fun _ q => ?_).1
  · exact tally.setValue present value
  · rcases eq_or_ne q r with rfl | same
    · simp [MapState.setRecord, present]
    · simp [MapState.setRecord, update_of_ne same]

theorem Sound.weakMapSet {key value : JsValue} {alloc : Option RecId} {slack : Option Nat}
    {out : Output} (isWeak : o.isWeak = true)
    (room : mapFindRecord fuel o.state (mapNormalizeKey key) = some none → Room alloc slack o.state)
    (done : weakMapSet fuel m o key value alloc slack dying w = some (w', out, gone)) :
    Sound w' none (fun m => lost m + lostOf gone m) ∧ ∀ mr ∈ gone, ∃ p, .object p ∈ dying ∧ KeyAt w mr p := by
  have nothingLost : ∀ {w' : Runtime}, Sound w' none lost → Sound w' none (fun m => lost m + lostOf [] m) ∧
      ∀ mr ∈ ([] : List WeakRef), ∃ p, .object p ∈ dying ∧ KeyAt w mr p :=
    fun sound' => ⟨sound', by simp⟩
  unfold JsMap.weakMapSet at done
  split at done
  · rename_i p normal
    rw [normal] at room
    obtain ⟨found, walked, rest⟩ := bind_eq_some_iff.mp done
    cases found with
    | some r =>
      obtain ⟨⟨w1, gone1⟩, died, rest1⟩ := bind_eq_some_iff.mp rest
      obtain ⟨⟨o1, record⟩, found1, last⟩ := bind_eq_some_iff.mp rest1
      cases last
      obtain ⟨there1, present1⟩ := record_eq_some found1
      obtain ⟨sound1, -, keys⟩ := sound.dieAll died
      exact ⟨sound1.setValue there1 present1 _, keys⟩
    | none =>
      obtain ⟨⟨added, s⟩, inserted, rest1⟩ := bind_eq_some_iff.mp rest
      obtain ⟨recs, tally⟩ := sound.tallies m o there
      obtain ⟨rfl, ⟨rfl, -⟩ | ⟨r, rfl, fresh, tally1, records, cursors⟩⟩ :=
        tally.mapAddRecord (room walked) inserted
      · cases rest1
        exact nothingLost sound
      · obtain ⟨record, present, last⟩ := bind_eq_some_iff.mp rest1
        cases last
        have own : record.key = .object p := by
          rw [records, insertRecord_record_self, some.injEq] at present
          rw [← present]
        refine nothingLost (sound.insert there isWeak fresh (tally1.setValue present _) ?_ ?_ fun q different => ?_)
        · exact cursors.trans (sound.bare m o there isWeak)
        · simp [MapState.setRecord, own]
        · simp [MapState.setRecord, update_of_ne different, records, insertRecord_record_of_ne _ different]
  · cases done
    exact nothingLost sound

end Insert

section Runs

def MapAction.deaths : MapAction → List Death
  | .create .. | .call .. => []
  | .weakSet _ _ _ _ _ dying | .weakDelete _ _ dying => dying
  | .die death => [death]

def MayAct (fuel : Nat) (w : Runtime) : MapAction → Prop
  | .call m op => ∀ o, w.maps m = some o → OpRoom fuel op o.state
  | .weakSet m key _ alloc slack _ => ∀ o, w.maps m = some o →
      mapFindRecord fuel o.state (mapNormalizeKey key) = some none → Room alloc slack o.state
  | _ => True

def KeepsKeys (m : Nat) (w : Runtime) (a : MapAction) : Prop :=
  ∀ p r, .object p ∈ a.deaths → ¬KeyAt w ⟨m, r⟩ p

def Note.isLossOf (m : Nat) : Note → Bool
  | .answer _ => false
  | .lost mr => mr.map = m

theorem countP_isLossOf (gone : List WeakRef) (m : Nat) :
    (gone.map Note.lost).countP (Note.isLossOf m) = lostOf gone m := by
  rw [countP_map]
  rfl

theorem countP_isLossOf_answer (out : Output) (gone : List WeakRef) (m : Nat) :
    (.answer out :: gone.map Note.lost).countP (Note.isLossOf m) = lostOf gone m := by
  rw [countP_cons_of_neg (by simp [Note.isLossOf]), countP_isLossOf]

theorem Sound.create (sound : Sound w none lost) (isSet isWeak : Bool) : Sound { w with
      maps := update w.maps w.created (some ⟨isWeak, newMap isSet⟩)
      created := w.created + 1 } none lost := by
  obtain ⟨absent, unlost⟩ := sound.fresh w.created le_rfl
  refine ⟨?_, ?_, ?_, ?_, fun _ _ pending => by cases pending⟩
  · intro m o there
    rcases update_some there with ⟨rfl, rfl⟩ | ⟨same, there⟩
    · rw [outAt_none, unlost]
      have sim := newMap_sim isSet
      exact ⟨[], tally_iff.mpr ⟨sim.linked, sim.hashed, rfl, Nat.two_pow_pos 32⟩⟩
    · exact sound.tallies m o there
  · intro m o there weak
    rcases update_some there with ⟨rfl, rfl⟩ | ⟨same, there⟩
    · rfl
    · exact sound.bare m o there weak
  · refine sound.chains.congr (fun mr p => and_congr_left fun _ => ?_) rfl rfl
    unfold KeyAt
    by_cases same : mr.map = w.created
    · simp [same, absent, newMap]
    · simp [update_of_ne same]
  · intro m late
    have later : w.created ≤ m := Nat.le_of_succ_le late
    have different : m ≠ w.created := Nat.ne_of_gt late
    simpa [update_of_ne different] using sound.fresh m later

theorem Sound.act {a : MapAction} (sound : Sound w none lost) (may : MayAct fuel w a)
    (acted : act fuel w a = some (w', notes)) :
    Sound w' none (fun m => lost m + notes.countP (Note.isLossOf m)) ∧ ∀ mr, .lost mr ∈ notes → ∃ p,
      .object p ∈ a.deaths ∧ KeyAt w mr p := by
  have quiet : ∀ {w' : Runtime} {out : Output}, Sound w' none lost →
      Sound w' none (fun m => lost m + [Note.answer out].countP (Note.isLossOf m)) ∧
        ∀ mr, .lost mr ∈ [Note.answer out] → ∃ p, .object p ∈ a.deaths ∧ KeyAt w mr p :=
    fun sound' => ⟨by simpa [Note.isLossOf] using sound', by simp⟩
  cases a with
  | create isSet isWeak =>
    cases acted
    exact quiet (sound.create isSet isWeak)
  | call m op =>
    obtain ⟨o, there, rest⟩ := bind_eq_some_iff.mp acted
    cases isWeak : o.isWeak with
    | true =>
      simp only [isWeak, ↓reduceIte] at rest
      cases rest
      exact quiet sound
    | false =>
      simp only [isWeak, Bool.false_eq_true, ↓reduceIte] at rest
      obtain ⟨⟨s, out⟩, stepped, last⟩ := bind_eq_some_iff.mp rest
      cases last
      obtain ⟨recs, tally⟩ := sound.tallies m o there
      obtain ⟨recs', tally'⟩ := tally.step (may o there) stepped
      exact quiet (sound.change (f := fun _ => s) there ⟨recs', tally'⟩ (fun weak => by simp [isWeak] at weak)
        fun weak => by simp [isWeak] at weak).1
  | weakSet m key value alloc slack dying =>
    obtain ⟨o, there, rest⟩ := bind_eq_some_iff.mp acted
    cases isWeak : o.isWeak with
    | false =>
      simp only [isWeak, Bool.false_eq_true, ↓reduceIte] at rest
      cases rest
      exact quiet sound
    | true =>
      simp only [isWeak, ↓reduceIte] at rest
      obtain ⟨⟨w1, out, gone⟩, set, last⟩ := bind_eq_some_iff.mp rest
      cases last
      obtain ⟨sound', keys⟩ := sound.weakMapSet there isWeak (may o there) set
      simp only [countP_isLossOf_answer]
      exact ⟨sound', fun mr inside => keys mr (by simpa using inside)⟩
  | weakDelete m key dying =>
    obtain ⟨o, there, rest⟩ := bind_eq_some_iff.mp acted
    cases isWeak : o.isWeak with
    | false =>
      simp only [isWeak, Bool.false_eq_true, ↓reduceIte] at rest
      cases rest
      exact quiet sound
    | true =>
      simp only [isWeak, ↓reduceIte] at rest
      obtain ⟨⟨w1, out, gone⟩, called, last⟩ := bind_eq_some_iff.mp rest
      cases last
      obtain ⟨found, -, rest1⟩ := bind_eq_some_iff.mp called
      simp only [countP_isLossOf_answer]
      cases found with
      | none =>
        cases rest1
        exact ⟨sound, by simp⟩
      | some r =>
        obtain ⟨⟨w2, gone2⟩, deleted, last⟩ := bind_eq_some_iff.mp rest1
        cases last
        obtain ⟨sound', keys⟩ :=
          sound.mapDeleteWeak (show w.maps (⟨m, r⟩ : WeakRef).map = some o from there) isWeak deleted
        exact ⟨sound', fun mr inside => keys mr (by simpa using inside)⟩
  | die death =>
    obtain ⟨⟨w1, gone⟩, died, last⟩ := bind_eq_some_iff.mp acted
    cases last
    obtain ⟨sound', -, keys⟩ := sound.die died
    simp only [countP_isLossOf]
    refine ⟨sound', fun mr inside => ?_⟩
    obtain ⟨p, same, key⟩ := keys mr (by simpa using inside)
    exact ⟨p, by simp [MapAction.deaths, same], key⟩

/-- `record_count` is the number of records in the list that are not empty, and the number of such records in the
hash table. -/
def Counted (s : MapState) : Prop :=
  ∃ (recs : List RecId) (buckets : List (List RecId)),
    IsList s.links .records (recs.map .link) ∧ s.hashTable = true ∧ buckets.length = s.hashSize ∧
    (∀ i hashed, buckets[i]? = some hashed → IsList s.hashLinks (.bucket i) (hashed.map .hashLink)) ∧
    s.recordCount = recs.countP s.isLive ∧ s.recordCount = buckets.flatten.countP s.isLive

theorem length_flatten_buckets {E : Type} (index : E → Nat) (size : Nat) (elements : List E) :
    ((range size).map fun i => elements.filter fun e => index e == i).flatten.length =
      elements.countP fun e => index e < size := by
  induction size with
  | zero => simp
  | succ size ih =>
    have split : elements.countP (fun e => index e < size + 1) =
        elements.countP (fun e => index e < size) + elements.countP fun e => index e == size := by
      clear ih
      induction elements with
      | nil => rfl
      | cons e elements ih =>
        simp only [countP_cons, ih, decide_eq_true_eq, beq_iff_eq]
        split <;> split <;> split <;> omega
    rw [range_succ, map_append, flatten_append, length_append, ih, split]
    simp [countP_eq_length_filter]

theorem Tally.counted_iff {missing : Nat} (tally : Tally s recs nothing missing) : Counted s ↔ missing = 0 := by
  obtain ⟨linked, hashed, count, -⟩ := tally_iff.mp tally
  constructor
  · rintro ⟨recs', buckets, list, -, -, -, same, -⟩
    have equal := map_injective_iff.mpr (fun _ _ => RecordNode.link.inj) (linked.list.unique list)
    rw [same, ← equal, countP_eq_length_filter] at count
    omega
  · rintro rfl
    let buckets := (range s.hashSize).map fun i =>
      (recs.filter s.isLive).filter fun r => s.indexAt s.hashSize r == i
    have live : ∀ r ∈ buckets.flatten, s.isLive r = true := by
      intro r inside
      obtain ⟨bucket, member, within⟩ := mem_flatten.mp inside
      obtain ⟨i, -, rfl⟩ := mem_map.mp member
      exact (mem_filter.mp (mem_filter.mp within).1).2
    refine ⟨recs, buckets, linked.list, hashed.table, by simp [buckets], ?_, ?_, ?_⟩
    · intro i bucket there
      simp only [buckets, getElem?_map, map_eq_some_iff] at there
      obtain ⟨j, inside, rfl⟩ := there
      obtain ⟨bound, same⟩ := List.getElem?_eq_some_iff.mp inside
      rw [getElem_range] at same
      subst same
      exact hashed.buckets i (by simpa using bound)
    · rw [count, countP_eq_length_filter, Nat.add_zero]
    · rw [countP_eq_length.mpr live, length_flatten_buckets, count, Nat.add_zero]
      symm
      apply countP_eq_length.mpr
      intro r _
      simpa using indexAt_lt hashed.positive hashed.small r

theorem newRuntime_sound : Sound newRuntime none fun _ => 0 := by
  refine ⟨by simp [newRuntime], by simp [newRuntime], ?_, by simp [newRuntime], by simp⟩
  intro p
  exact ⟨[], rfl, by simp [KeyAt, newRuntime]⟩

theorem countP_isLossOf_eq_zero {m : Nat} : notes.countP (Note.isLossOf m) = 0 ↔ ∀ r, .lost ⟨m, r⟩ ∉ notes := by
  rw [countP_eq_zero]
  constructor
  · intro none r inside
    exact none _ inside (by simp [Note.isLossOf])
  · intro none note inside loss
    cases note with
    | answer out => cases loss
    | lost mr =>
      simp only [Note.isLossOf, decide_eq_true_eq] at loss
      exact none mr.record (loss ▸ inside)

/-- A map is counted right exactly when it has lost no record, in particular when none of its keys has died. -/
theorem recordCount_correct (fuel : Nat) (actions : List MapAction) (w : Runtime) (notes : List Note)
    (may : Trace.Along (act fuel) (MayAct fuel) newRuntime actions)
    (reached : Trace.run (act fuel) newRuntime [] actions = some (w, notes)) (m : Nat) (o : MapObject)
    (there : w.maps m = some o) :
    (Counted o.state ↔ ∀ r, .lost ⟨m, r⟩ ∉ notes) ∧
      (Trace.Along (act fuel) (KeepsKeys m) newRuntime actions → Counted o.state) := by
  have keep : ∀ w log a w' events, Sound w none (fun m => log.countP (Note.isLossOf m)) →
      MayAct fuel w a → act fuel w a = some (w', events) →
      Sound w' none fun m => (log ++ events).countP (Note.isLossOf m) := by
    intro w log a w' events sound may acted
    simp only [countP_append]
    exact (sound.act may acted).1
  have exactly : Counted o.state ↔ ∀ r, .lost ⟨m, r⟩ ∉ notes := by
    have sound := Trace.run_invariant_along keep newRuntime_sound may reached
    obtain ⟨recs, tally⟩ := sound.tallies m o there
    rw [outAt_none] at tally
    rw [tally.counted_iff, countP_isLossOf_eq_zero]
  refine ⟨exactly, fun keeps => exactly.mpr fun r => ?_⟩
  have keep' : ∀ w log a w' events,
      Sound w none (fun m => log.countP (Note.isLossOf m)) ∧ (∀ r, .lost ⟨m, r⟩ ∉ log) →
      MayAct fuel w a ∧ KeepsKeys m w a → act fuel w a = some (w', events) →
      Sound w' none (fun m => (log ++ events).countP (Note.isLossOf m)) ∧
        ∀ r, .lost ⟨m, r⟩ ∉ log ++ events := by
    rintro w log a w' events ⟨sound, unlost⟩ ⟨may, keeps⟩ acted
    refine ⟨keep w log a w' events sound may acted, fun r inside => ?_⟩
    rcases mem_append.mp inside with early | late
    · exact unlost r early
    · obtain ⟨p, dies, key⟩ := (sound.act may acted).2 ⟨m, r⟩ late
      exact keeps p r dies key
  exact (Trace.run_invariant_along keep' ⟨newRuntime_sound, by simp⟩ (Trace.along_and may keeps) reached).2 r

/-- A `WeakMap` gets an entry and loses it again; the value of the entry takes another object along. -/
def deleteTrace : List MapAction :=
  [.create false true, .weakSet 0 (.object 7) (.object 8) (some 0) none [], .weakDelete 0 (.object 7) [.object 8]]

theorem recordCount_correct_deleted :
    ∃ w notes o, Trace.Along (act 9) (MayAct 9) newRuntime deleteTrace ∧
      Trace.Along (act 9) (KeepsKeys 0) newRuntime deleteTrace ∧
      Trace.run (act 9) newRuntime [] deleteTrace = some (w, notes) ∧ w.maps 0 = some o ∧ Counted o.state := by
  have may : Trace.Along (act 9) (MayAct 9) newRuntime deleteTrace := by
    refine (Trace.along_cons rfl).mpr
      ⟨trivial, fun o there _ r same => ?_, fun _ _ _ => ⟨trivial, fun _ _ _ => trivial⟩⟩
    obtain rfl : o = ⟨true, newMap false⟩ := (some.inj (show some _ = some o from there)).symm
    exact ⟨rfl, by decide, fun full => absurd full (by decide)⟩
  have keeps : Trace.Along (act 9) (KeepsKeys 0) newRuntime deleteTrace := by
    refine (Trace.along_cons rfl).mpr ⟨fun p r dies => by simp [MapAction.deaths] at dies, ?_⟩
    refine (Trace.along_cons rfl).mpr ⟨fun p r dies => by simp [MapAction.deaths] at dies, fun p r dies => ?_,
      fun _ _ _ => trivial⟩
    obtain rfl : p = 8 := by simpa [MapAction.deaths] using dies
    rintro ⟨o, there, -, key⟩
    obtain rfl := some.inj (show some _ = some o from there)
    rcases eq_or_ne r 0 with rfl | same
    · exact absurd key (by decide)
    · simp [MapState.setRecord, update_of_ne same, MapState.insertRecord, MapState.addToBucket,
        newMap] at key
  have ends : (Trace.run (act 9) newRuntime [] deleteTrace).isSome = true := by decide
  obtain ⟨⟨w, notes⟩, reached⟩ := isSome_iff_exists.mp ends
  have stays : ((Trace.run (act 9) newRuntime [] deleteTrace).bind fun r => r.1.maps 0).isSome = true := by decide
  rw [reached] at stays
  obtain ⟨o, there⟩ := isSome_iff_exists.mp stays
  exact ⟨w, notes, o, may, keeps, reached, there,
    (recordCount_correct 9 deleteTrace w notes may reached 0 o there).2 keeps⟩

def deathTrace : List MapAction :=
  [.create false true, .weakSet 0 (.object 7) .undefined (some 0) none [], .die (.object 7)]

theorem death_miscounts :
    ∃ w notes o, Trace.run (act 9) newRuntime [] deathTrace = some (w, notes) ∧ w.maps 0 = some o ∧
      o.state.recordCount = 1 ∧ IsList o.state.links .records [] ∧ ¬Counted o.state := by
  have values : ((Trace.run (act 9) newRuntime [] deathTrace).bind fun r => (r.1.maps 0).map fun o =>
      (o.state.recordCount, o.state.links.next .records, o.state.links.prev .records)) =
        some (1, some .records, some .records) := by
    decide
  obtain ⟨⟨w, notes⟩, reached, rest⟩ := bind_eq_some_iff.mp values
  obtain ⟨o, there, same⟩ := map_eq_some_iff.mp rest
  simp only [Prod.mk.injEq] at same
  have empty : IsList o.state.links .records [] := ⟨by simp, same.2.1, same.2.2⟩
  refine ⟨w, notes, o, reached, there, same.1, empty, ?_⟩
  rintro ⟨recs, -, list, -, -, -, count, -⟩
  have none : recs = [] := by simpa using (empty.unique list).symm
  rw [same.1, none] at count
  simp at count

end Runs

end JsMap
