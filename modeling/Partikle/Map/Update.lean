import Partikle.Map.Iteration
import Mathlib.Data.List.Pairwise

/-!
`set`, `delete` and `clear` against the ordered list: a value is replaced in place, a
new entry goes to the end, and a deletion empties a place.
-/

namespace JsMap

open ListHead Function List Option

variable {s : MapState} {recs : List RecId} {pos : RecId → Nat} {r : RecId}

variable {es : EcmaState} {s' : MapState}

theorem ecmaFind_eq (sim : Sim s es recs pos) (key : JsValue) :
    ecmaFind key es.data = (recs.find? (s.hasKey key)).map pos := by
  have linked : Linked s ([] ++ recs) := sim.linked
  have entries : Entries s ([] ++ recs) pos es.data := sim.entries
  apply firstFrom_of_records linked entries (by simp) (fun _ _ => Nat.zero_le _) rfl
  intro r mr found
  cases isEmpty : mr.empty <;> simp [MapState.hasKey, found, isEmpty, hasKey]

theorem Sim.find {fuel : Nat} (sim : Sim s es recs pos) (bound : recs.length < fuel) (key : JsValue) :
    mapFindRecord fuel s (mapNormalizeKey key) = some (recs.find? (s.hasKey (mapNormalizeKey key))) :=
  mapFindRecord_spec sim.hashed sim.normal (mapNormalizeKey_normalized key) bound

theorem isLive_of_hasKey {key : JsValue} (holds : s.hasKey key r = true) : s.isLive r = true := by
  unfold MapState.hasKey at holds
  unfold MapState.isLive
  cases found : s.record r with
  | none => simp [found] at holds
  | some mr =>
    simp only [found, Bool.and_eq_true] at holds
    exact holds.1

theorem Entries.pos_ne {data : MapData} {q : RecId} (entries : Entries s recs pos data) (first : q ∈ recs)
    (second : r ∈ recs) (different : q ≠ r) : pos q ≠ pos r := by
  have apart : recs.Pairwise fun q r => pos q ≠ pos r :=
    entries.ascending.imp fun smaller => Nat.ne_of_lt smaller
  have symmetric : Std.Symm fun q r => pos q ≠ pos r := ⟨fun _ _ unequal => unequal.symm⟩
  exact apart.forall first second different

theorem Entries.pos_lt {data : MapData} (entries : Entries s recs pos data) (linked : Linked s recs)
    (member : r ∈ recs) : pos r < data.length := by
  obtain ⟨mr, found⟩ := (linked.allocated r).mp member
  exact (List.getElem?_eq_some_iff.mp (entries.content r mr found)).1

section SetValue

variable {mr : Record}

theorem setValue_linked (linked : Linked s recs) (found : s.record r = some mr) (value : JsValue) :
    Linked (s.setRecord r { mr with value := value }) recs :=
  linked.setRecord found (linked.counted r mr found) (linked.positive r mr found)

theorem isLive_setValue (found : s.record r = some mr) (value : JsValue) :
    (s.setRecord r { mr with value := value }).isLive = s.isLive := by
  funext q
  rcases eq_or_ne q r with rfl | same
  · simp [MapState.isLive, MapState.setRecord, found]
  · simp [MapState.isLive, MapState.setRecord, update_of_ne same]

theorem setValue_hashed (hashed : Hashed s (recs.filter s.isLive)) (found : s.record r = some mr) (value : JsValue) :
    Hashed (s.setRecord r { mr with value := value })
      (recs.filter (s.setRecord r { mr with value := value }).isLive) := by
  have live := isLive_setValue found value
  have index : (s.setRecord r { mr with value := value }).indexAt s.hashSize = s.indexAt s.hashSize := by
    funext q
    rcases eq_or_ne q r with rfl | same
    · simp [MapState.indexAt, MapState.setRecord, found]
    · simp [MapState.indexAt, MapState.setRecord, update_of_ne same]
  rw [live]
  exact ⟨hashed.table, hashed.positive, hashed.small, index.symm ▸ hashed.buckets⟩

theorem setValue_sim (sim : Sim s es recs pos) (found : s.record r = some mr)
    (live : mr.empty = false) (value : JsValue) : Sim (s.setRecord r { mr with value := value })
      { es with data := es.data.modify (pos r) (Option.map fun entry => (entry.1, value)) } recs pos := by
  have member : r ∈ recs := (sim.linked.allocated r).mpr ⟨mr, found⟩
  have own := sim.entries.content r mr found
  refine ⟨setValue_linked sim.linked found value, setValue_hashed sim.hashed found value, ?_,
    ⟨sim.entries.ascending, ?_, ?_⟩, sim.length, sim.cursors, sim.isSet⟩
  · intro q record present
    rcases update_some present with ⟨rfl, rfl⟩ | ⟨same, present⟩
    · exact sim.normal q mr found
    · exact sim.normal q record present
  · intro q record present
    rcases update_some present with ⟨rfl, rfl⟩ | ⟨same, present⟩
    · simp [own, live]
    · have apart := sim.entries.pos_ne ((sim.linked.allocated q).mpr ⟨record, present⟩) member same
      simpa [apart.symm] using sim.entries.content q record present
  · intro i entry there
    by_cases same : pos r = i
    · exact ⟨r, member, same⟩
    · have kept : es.data[i]? = some (some entry) := by simpa [same] using there
      exact sim.entries.covered i entry kept

end SetValue

variable {key : JsValue} {fuel : Nat}
  {dying : List Nat}

theorem insert_sim (sim : Sim s es recs pos) (fresh : s.record r = none) (normalized : Normalized key)
    (linked : Linked s' (recs ++ [r])) (hashed : Hashed s' ((recs ++ [r]).filter s'.isLive))
    (records : s'.record = (s.insertRecord r key).record) (cursors : s'.cursors = s.cursors)
    (isSet : s'.isSet = s.isSet) : Sim s' { es with data := es.data ++ [some (key, .undefined)] } (recs ++ [r])
      (update pos r es.data.length) := by
  have outside := sim.linked.not_mem_of_fresh fresh
  have stays : ∀ q ∈ recs, update pos r es.data.length q = pos q := by
    intro q member
    have different : q ≠ r := fun same => outside (same ▸ member)
    exact update_of_ne different _ _
  refine ⟨linked, hashed, ?_, ⟨?_, ?_, ?_⟩, by rw [cursors]; exact sim.length, ?_,
    isSet.trans sim.isSet⟩
  · intro q mr found
    rw [records] at found
    rcases update_some found with ⟨rfl, rfl⟩ | ⟨same, found⟩
    · exact normalized
    · exact sim.normal q mr found
  · refine pairwise_append.mpr ⟨?_, by simp, ?_⟩
    · refine Pairwise.imp_of_mem ?_ sim.entries.ascending
      intro q q' first second smaller
      rwa [stays q first, stays q' second]
    · intro q member last final
      rw [mem_singleton.mp final, stays q member, update_self]
      exact sim.entries.pos_lt sim.linked member
  · intro q mr found
    rw [records] at found
    rcases update_some found with ⟨rfl, rfl⟩ | ⟨same, found⟩
    · simp
    · have member := (sim.linked.allocated q).mpr ⟨mr, found⟩
      rw [stays q member, getElem?_append_left (sim.entries.pos_lt sim.linked member)]
      exact sim.entries.content q mr found
  · intro i entry there
    by_cases old : i < es.data.length
    · rw [getElem?_append_left old] at there
      obtain ⟨q, member, place⟩ := sim.entries.covered i entry there
      exact ⟨q, mem_append_left _ member, by rw [stays q member, place]⟩
    · refine ⟨r, by simp, ?_⟩
      obtain ⟨bound, -⟩ := List.getElem?_eq_some_iff.mp there
      simp only [length_append, length_singleton] at bound
      rw [update_self]
      omega
  · intro i c e first second
    rw [cursors] at first
    obtain ⟨kind, index⟩ := sim.cursors i c e first second
    refine ⟨kind, fun alive => ?_⟩
    rw [index alive]
    cases stands : c.curRecord with
    | none => rfl
    | some q =>
      have member := sim.linked.held c (mem_of_getElem? first) q stands
      simp [stays q member]

theorem modify_append_length {E : Type} (data : List E) (last : E) (change : E → E) :
    (data ++ [last]).modify data.length change = data ++ [change last] := by
  induction data with
  | nil => rfl
  | cons entry data ih => simpa using ih

theorem jsMapSet_spec {value : JsValue} {alloc : Option RecId} {slack : Option Nat} (sim : Sim s es recs pos)
    (bound : recs.length + 1 < fuel)
    (fresh : mapFindRecord fuel s (mapNormalizeKey key) = some none → ∀ r, alloc = some r → s.record r = none ∧
      (s.recordCountThreshold ≤ (s.recordCount + 1) % 2 ^ 32 → TableFits slack s)) :
    ∃ s' recs' pos', jsMapSet fuel key value alloc slack dying s = some (s', (ecmaSet key value alloc.isSome es).2) ∧
      Sim s' (ecmaSet key value alloc.isSome es).1 recs' pos' ∧ recs'.length ≤ recs.length + 1 := by
  have found := sim.find (by omega : recs.length < fuel) key
  have same := ecmaFind_eq sim (mapNormalizeKey key)
  rw [found] at fresh
  cases first : recs.find? (s.hasKey (mapNormalizeKey key)) with
  | some r =>
    simp only [first, map_some] at found same
    obtain ⟨s1, recs1, freed, shrinks, -, finalized⟩ := freeValues_spec sim.linked dying
    have sim1 := sim.shrink shrinks finalized
    have live := isLive_of_hasKey (find?_some first)
    have stays : r ∈ recs1 := by
      by_contra absent
      have dead := shrinks.gone r (mem_of_find?_eq_some first) absent
      simp [live] at dead
    rw [← isLive_of_content (shrinks.data r stays)] at live
    obtain ⟨mr, present, notEmpty⟩ := record_of_isLive live
    refine ⟨s1.setRecord r { mr with value := if es.isSet then .undefined else value }, recs1, pos,
      ?_, ?_, Nat.le_succ_of_le shrinks.sub.length_le⟩
    · simp [jsMapSet, found, freed, present, ecmaSet, same, sim.isSet]
    · simp only [ecmaSet, same]
      exact setValue_sim sim1 present notEmpty _
  | none =>
    simp only [first, map_none] at found same fresh
    cases alloc with
    | none =>
      refine ⟨s, recs, pos, ?_, ?_, by omega⟩
      · simp [jsMapSet, found, mapAddRecord, ecmaSet, same]
      · simpa [ecmaSet, same] using sim
    | some r =>
      obtain ⟨unused, fits⟩ := fresh trivial r rfl
      obtain ⟨s1, added, linked, hashed, records, cursors, isSet⟩ :=
        mapAddRecord_spec (mapNormalizeKey key) sim.linked sim.hashed unused fits bound
      have inserted := insert_sim sim unused (mapNormalizeKey_normalized key) linked hashed records cursors isSet
      have present : s1.record r = some ⟨1, false, mapNormalizeKey key, .undefined⟩ := by
        rw [records, insertRecord_record_self]
      refine ⟨s1.setRecord r
        ⟨1, false, mapNormalizeKey key, if es.isSet then .undefined else value⟩, recs ++ [r],
        update pos r es.data.length, ?_, ?_, by simp⟩
      · simp [jsMapSet, found, added, present, ecmaSet, same, sim.isSet]
      · have written := setValue_sim inserted present rfl (if es.isSet then .undefined else value)
        simpa [ecmaSet, same, modify_append_length] using written

theorem Deletes.sim {recs' : List RecId} (deletes : Deletes r s s' recs recs') (finalized : Finalized dying s s')
    (sim : Sim s es recs pos) (member : r ∈ recs) : Sim s' { es with data := es.data.set (pos r) none } recs' pos := by
  have bound := sim.entries.pos_lt sim.linked member
  refine ⟨deletes.linked, deletes.hashed, ?_, ⟨sim.entries.ascending.sublist deletes.sub, ?_, ?_⟩,
    finalized.length.trans sim.length, fun i => finalized.cursorAt (sim.cursors i),
    deletes.isSet.trans sim.isSet⟩
  · intro q mr found
    rcases eq_or_ne q r with rfl | same
    · rw [(deletes.zombie mr found).2]
      rfl
    · have inside := (deletes.linked.allocated q).mpr ⟨mr, found⟩
      obtain ⟨mr0, present, -, key, -⟩ := record_of_content (deletes.data q inside same) found
      rw [key]
      exact sim.normal q mr0 present
  · intro q mr found
    rcases eq_or_ne q r with rfl | same
    · simp [(deletes.zombie mr found).1, bound]
    · have inside := (deletes.linked.allocated q).mpr ⟨mr, found⟩
      obtain ⟨mr0, present, empty, key, value⟩ := record_of_content (deletes.data q inside same) found
      have apart := sim.entries.pos_ne (deletes.sub.subset inside) member same
      rw [getElem?_set_ne apart.symm, empty, key, value]
      exact sim.entries.content q mr0 present
  · intro i entry there
    have apart : pos r ≠ i := by
      rintro rfl
      simp [bound] at there
    rw [getElem?_set_ne apart] at there
    obtain ⟨q, old, place⟩ := sim.entries.covered i entry there
    have different : q ≠ r := by
      rintro rfl
      exact apart place
    refine ⟨q, ?_, place⟩
    by_contra absent
    have live := sim.entries.isLive sim.linked old (place ▸ there)
    simp [deletes.gone q old different absent] at live

theorem jsMapDelete_spec (sim : Sim s es recs pos) (bound : recs.length < fuel) :
    ∃ s' recs', jsMapDelete fuel key dying s = some (s', (ecmaDelete key es).2) ∧
      Sim s' (ecmaDelete key es).1 recs' pos ∧ recs'.length ≤ recs.length := by
  have found := sim.find bound key
  have same := ecmaFind_eq sim (mapNormalizeKey key)
  cases first : recs.find? (s.hasKey (mapNormalizeKey key)) with
  | none =>
    simp only [first, map_none] at found same
    refine ⟨s, recs, ?_, ?_, le_rfl⟩
    · simp [jsMapDelete, found, ecmaDelete, same]
    · simpa [ecmaDelete, same] using sim
  | some r =>
    simp only [first, map_some] at found same
    obtain ⟨s1, recs1, deleted, deletes, finalized, -⟩ := mapDeleteRecord_spec sim.linked sim.hashed
      (isLive_of_hasKey (find?_some first)) dying
    refine ⟨s1, recs1, ?_, ?_, deletes.sub.length_le⟩
    · simp [jsMapDelete, found, deleted, ecmaDelete, same]
    · simp only [ecmaDelete, same]
      exact deletes.sim finalized sim (mem_of_find?_eq_some first)

/-- Each round of the loop of `clear` keeps the record that it has saved as its next. -/
def ClearKeeps (dying : RecId → List Nat) : Nat → Option RecordNode → MapState → Prop
  | 0, _, _ => True
  | fuel + 1, el, s => ∀ r, el = some (.link r) →
      (s.isLive r = true → KeepsNext s (s.links.next (.link r)) (dying r)) ∧
      ∀ s', mapDeleteRecord r (dying r) s = some s' →
        ClearKeeps dying fuel (s.links.next (.link r)) s'

theorem clearLoop_spec {before rest : List RecId} {dying : RecId → List Nat} (sim : Sim s es (before ++ rest) pos)
    (dead : ∀ q ∈ before, s.isLive q = false) (bound : rest.length < fuel)
    (keeps : ClearKeeps dying fuel (some (firstNode rest)) s) :
    ∃ s' recs' data, clearLoop dying fuel (some (firstNode rest)) s = some s' ∧
      Sim s' { es with data := data } recs' pos ∧ data.length = es.data.length ∧
      (∀ q ∈ recs', s'.isLive q = false) ∧ recs'.length ≤ (before ++ rest).length := by
  induction fuel generalizing s es before rest with
  | zero => omega
  | succ fuel ih =>
    cases rest with
    | nil => exact ⟨s, before, es.data, by simp [clearLoop], by simpa using sim, rfl, dead, by simp⟩
    | cons r rest =>
      obtain ⟨mr, found⟩ := (sim.linked.allocated r).mp (by simp)
      have next := sim.linked.next_eq
      obtain ⟨keeping, later⟩ := keeps r rfl
      rw [next] at keeping later
      have smaller : rest.length < fuel := by simpa using bound
      cases live : s.isLive r with
      | false =>
        have isEmpty : mr.empty = true := by simpa [MapState.isLive, found] using live
        have skipped : mapDeleteRecord r (dying r) s = some s := by simp [mapDeleteRecord, found, isEmpty]
        have shifted : Sim s es ((before ++ [r]) ++ rest) pos := by simpa using sim
        obtain ⟨s', recs', data, looped, simulated, length, gone, fewer⟩ := ih shifted (by
          intro q member
          rcases mem_append.mp member with old | new
          · exact dead q old
          · rw [mem_singleton.mp new]
            exact live) smaller (later s skipped)
        refine ⟨s', recs', data, ?_, simulated, length, gone, by simpa using fewer⟩
        simp [clearLoop, found, skipped, next, looped]
      | true =>
        obtain ⟨s1, recs1, deleted, deletes, finalized, -⟩ :=
          mapDeleteRecord_spec sim.linked sim.hashed live (dying r)
        have simulated := deletes.sim finalized sim (by simp)
        have stays : ∀ z, rest.head? = some z → z ∈ recs1 := by
          intro z first
          have different : z ≠ r := by
            rintro rfl
            have parts := (nodup_append.mp sim.linked.nodup).2.1
            exact (nodup_cons.mp parts).1 (mem_of_mem_head? first)
          have member : z ∈ before ++ r :: rest := by simp [mem_of_mem_head? first]
          exact (keeping live).stays finalized deletes.linked first (deletes.gone z member different)
        have shape : before ++ r :: rest = (before ++ [r]) ++ rest := by simp
        obtain ⟨before', rest', rfl, first, early, late⟩ := resume_split
          (shape ▸ deletes.sub) (shape ▸ sim.linked.nodup) stays
        have deadBefore : ∀ q ∈ before', s1.isLive q = false := by
          intro q member
          by_cases same : q = r
          · exact same ▸ deletes.dead
          · rw [isLive_of_content (deletes.data q (mem_append_left _ member) same)]
            apply dead q
            simpa [same] using early.subset member
        obtain ⟨s', recs', data, looped, finished, length, gone, fewer⟩ := ih simulated deadBefore
          (late.length_le.trans_lt smaller) (first ▸ later s1 deleted)
        rw [first] at looped
        refine ⟨s', recs', data, ?_, finished, by simpa using length, gone,
          fewer.trans deletes.sub.length_le⟩
        simp [clearLoop, found, next, deleted, looped]

theorem jsMapClear_spec {dying : RecId → List Nat} (sim : Sim s es recs pos) (bound : recs.length < fuel)
    (keeps : ClearKeeps dying fuel (s.links.next .records) s) :
    ∃ s' recs', jsMapClear fuel dying s = some (s', (ecmaClear es).2) ∧ Sim s' (ecmaClear es).1 recs' pos ∧
      recs'.length ≤ recs.length := by
  have start : Sim s es ([] ++ recs) pos := sim
  rw [sim.linked.next_head] at keeps
  obtain ⟨s', recs', data, looped, simulated, length, dead, fewer⟩ :=
    clearLoop_spec start (by simp) bound keeps
  have emptied : data = es.data.map fun _ => none := by
    apply ext_getElem?
    intro i
    rw [getElem?_map]
    cases there : data[i]? with
    | none =>
      have outside : es.data[i]? = none := by
        rw [List.getElem?_eq_none_iff] at there ⊢
        omega
      simp [outside]
    | some entry =>
      obtain ⟨inside, -⟩ := List.getElem?_eq_some_iff.mp there
      rw [length] at inside
      cases entry with
      | none => simp [getElem?_eq_getElem inside]
      | some entry =>
        obtain ⟨r, member, place⟩ := simulated.entries.covered i entry there
        have live := simulated.entries.isLive simulated.linked member (place ▸ there)
        simp [dead r member] at live
  refine ⟨s', recs', ?_, ?_, fewer⟩
  · simp [jsMapClear, sim.linked.next_head, looped, ecmaClear]
  · simpa [ecmaClear, emptied] using simulated

end JsMap
