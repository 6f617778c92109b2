import Partikle.Map.Hash

/-!
Deleting a record: it leaves its bucket, the iterators that die with its key and
value are finalized, and the record is freed or stays as a zombie.
-/

namespace JsMap

open ListHead List Option

structure Deletes (r : RecId) (s s' : MapState) (recs recs' : List RecId) : Prop where
  linked : Linked s' recs'
  hashed : Hashed s' (recs'.filter s'.isLive)
  sub : recs'.Sublist recs
  gone : ∀ q ∈ recs, q ≠ r → q ∉ recs' → s.isLive q = false
  data : ∀ q ∈ recs', q ≠ r → s'.content q = s.content q
  zombie : ∀ mr, s'.record r = some mr → mr.empty = true ∧ mr.key = .undefined
  isSet : s'.isSet = s.isSet

variable {recs recs' before after : List RecId} {s s' : MapState} {r : RecId}

theorem Linked.setRecordCount (linked : Linked s recs) (count : Nat) : Linked { s with recordCount := count } recs :=
  { linked with }

theorem Linked.setRecord {mr new : Record} (linked : Linked s recs)
    (found : s.record r = some mr) (counted : new.refCount = (if new.empty then 0 else 1) + (s.holders r : Int))
    (positive : 0 < new.refCount) : Linked (s.setRecord r new) recs := by
  refine ⟨linked.list, ?_, ?_, ?_, linked.held, linked.idle⟩
  · intro q
    rw [linked.allocated q]
    by_cases same : q = r
    · simp [MapState.setRecord, same, found]
    · simp [MapState.setRecord, Function.update_of_ne same]
  · intro q record present
    rcases update_some present with ⟨rfl, rfl⟩ | ⟨same, present⟩
    · exact counted
    · exact linked.counted q record present
  · intro q record present
    rcases update_some present with ⟨rfl, rfl⟩ | ⟨same, present⟩
    · exact positive
    · exact linked.positive q record present

section Drop

variable {mr : Record}

theorem dropRecord_linked (linked : Linked s (before ++ r :: after)) (found : s.record r = some mr)
    (live : mr.empty = false) :
    ∃ recs', Linked (s.dropRecord r mr) recs' ∧ recs'.Sublist (before ++ r :: after) ∧ ∀ q ∈ before ++ r :: after,
      q ≠ r → q ∈ recs' := by
  have counted := linked.counted r mr found
  simp only [live, Bool.false_eq_true, ↓reduceIte] at counted
  by_cases last : mr.refCount - 1 = 0
  · have freed := linked.free rfl rfl (by omega : s.holders r = 0) (fun _ _ => rfl) (fun _ member => .inl member)
    refine ⟨before ++ after, ?_, Sublist.append_left (sublist_cons_self _ _) _, ?_⟩
    · simp only [MapState.dropRecord, last, ↓reduceIte]
      exact freed.setRecordCount _
    · intro q member different
      exact (mem_unlinked linked.nodup).mpr ⟨member, different⟩
  · refine ⟨before ++ r :: after, ?_, Sublist.refl _, fun _ member _ => member⟩
    simp only [MapState.dropRecord, last, ↓reduceIte]
    refine Linked.setRecordCount (linked.setRecord found ?_ ?_) _
    all_goals
      simp only [↓reduceIte]
      omega

theorem dropRecord_content {q : RecId} (different : q ≠ r) : (s.dropRecord r mr).content q = s.content q := by
  unfold MapState.dropRecord
  split <;> simp [MapState.content, MapState.freeRecord, MapState.setRecord,
    Function.update_of_ne different]

theorem dropRecord_zombie {record : Record} (present : (s.dropRecord r mr).record r = some record) :
    record.empty = true ∧ record.key = .undefined := by
  unfold MapState.dropRecord at present
  split at present
  · simp [MapState.freeRecord] at present
  · simp only [MapState.setRecord, Function.update_self, some.injEq] at present
    simp [← present]

theorem dropRecord_recordCount (mr : Record) :
    (s.dropRecord r mr).recordCount = (s.recordCount + 2 ^ 32 - 1) % 2 ^ 32 := by
  unfold MapState.dropRecord
  split <;> rfl

theorem dropRecord_hashed {hashed : List RecId} (table : Hashed s hashed)
    (outside : ∀ q ∈ hashed, q ≠ r) : Hashed (s.dropRecord r mr) hashed := by
  have buckets : Buckets s.hashLinks s.hashSize ((s.dropRecord r mr).indexAt s.hashSize) hashed := by
    apply table.buckets.congr
    intro q member
    exact indexAt_of_content (dropRecord_content (outside q member)) _
  unfold MapState.dropRecord at buckets ⊢
  split
  all_goals
    rename_i last
    simp only [last, ↓reduceIte] at buckets
    exact ⟨table.table, table.positive, table.small, buckets⟩

end Drop

theorem Deletes.dead (deletes : Deletes r s s' recs recs') : s'.isLive r = false := by
  unfold MapState.isLive
  cases present : s'.record r with
  | none => rfl
  | some mr => simp [(deletes.zombie mr present).1]

theorem filter_ne_middle (unique : (before ++ r :: after).Nodup) :
    (before ++ r :: after).filter (· != r) = before ++ after := by
  rw [filter_append, filter_cons_of_neg (by simp), ← filter_append]
  exact filter_eq_self.mpr fun q within => by simpa using ((mem_unlinked unique).mp within).2

theorem filter_isLive_of_deleted (linked : Linked s' recs') (sub : recs'.Sublist recs) (unique : recs.Nodup)
    (gone : ∀ q ∈ recs, q ≠ r → q ∉ recs' → s.isLive q = false)
    (data : ∀ q ∈ recs', q ≠ r → s'.content q = s.content q) (dead : s'.isLive r = false)
    (split : recs.filter s.isLive = before ++ r :: after) : recs'.filter s'.isLive = before ++ after := by
  have live : ∀ q ∈ recs, s'.isLive q = (s.isLive q && q != r) := by
    intro q member
    by_cases same : q = r
    · simp [same, dead]
    · by_cases stays : q ∈ recs'
      · simp [isLive_of_content (data q stays same), same]
      · simp [linked.isLive_of_not_mem stays, gone q member same stays]
  calc recs'.filter s'.isLive
      = recs.filter s'.isLive := linked.filter_isLive sub unique
    _ = recs.filter (fun q => s.isLive q && q != r) := filter_congr live
    _ = (recs.filter s.isLive).filter (· != r) := by
        rw [List.filter_filter]
        simp only [Bool.and_comm]
    _ = before ++ after := by
        rw [split]
        exact filter_ne_middle (split ▸ unique.filter _)

theorem mapDeleteRecord_spec (linked : Linked s recs)
    (hashed : Hashed s (recs.filter s.isLive)) (live : s.isLive r = true) (dying : List Nat) :
    ∃ s' recs', mapDeleteRecord r dying s = some s' ∧ Deletes r s s' recs recs' ∧ Finalized dying s s' ∧
      s'.recordCount = (s.recordCount + 2 ^ 32 - 1) % 2 ^ 32 := by
  obtain ⟨mr, found, notEmpty⟩ := record_of_isLive live
  have member : r ∈ recs := (linked.allocated r).mpr ⟨mr, found⟩
  obtain ⟨s1, recs1, freed, shrinks, count, finalized⟩ :=
    freeValues_spec (s := s.delFromBucket r) (linked.setHashLinks _) dying
  have stays : r ∈ recs1 := by
    by_contra absent
    have dead : s.isLive r = false := shrinks.gone r member absent
    simp [live] at dead
  obtain ⟨mr1, found1⟩ := (shrinks.linked.allocated r).mp stays
  have notEmpty1 : mr1.empty = false := by
    have same : s1.content r = s.content r := shrinks.data r stays
    simp only [MapState.content, found, found1, map_some, some.injEq, Prod.mk.injEq] at same
    rw [same.1, notEmpty]
  obtain ⟨before, after, rfl⟩ := append_of_mem stays
  obtain ⟨recs2, linked2, sub2, kept2⟩ := dropRecord_linked shrinks.linked found1 notEmpty1
  have gone : ∀ q ∈ recs, q ≠ r → q ∉ recs2 → s.isLive q = false := by
    intro q inside different absent
    exact shrinks.gone q inside fun there => absent (kept2 q there different)
  have data : ∀ q ∈ recs2, q ≠ r → (s1.dropRecord r mr1).content q = s.content q := by
    intro q inside different
    exact (dropRecord_content different).trans (shrinks.data q (sub2.subset inside))
  have dead : (s1.dropRecord r mr1).isLive r = false := by
    unfold MapState.isLive
    cases present : (s1.dropRecord r mr1).record r with
    | none => rfl
    | some record => simp [(dropRecord_zombie present).1]
  refine ⟨s1.dropRecord r mr1, recs2, ?_,
    ⟨linked2, ?_, sub2.trans shrinks.sub, gone, data, fun _ => dropRecord_zombie, ?_⟩, ?_, ?_⟩
  · simp [mapDeleteRecord, found, notEmpty, hashed.table, freed, found1]
  · have inTable : r ∈ recs.filter s.isLive := mem_filter.mpr ⟨member, live⟩
    obtain ⟨front, back, split⟩ := append_of_mem inTable
    have removed : Hashed (s.delFromBucket r) (front ++ back) :=
      ⟨hashed.table, hashed.positive, hashed.small,
        (split ▸ hashed.buckets).del (indexAt_lt hashed.positive hashed.small r)⟩
    have outside : ∀ q ∈ front ++ back, q ≠ r ∧ q ∈ recs ∧ s.isLive q = true := by
      intro q inside
      obtain ⟨whole, different⟩ := (mem_unlinked (split ▸ linked.nodup.filter _)).mp inside
      exact ⟨different, mem_filter.mp (split ▸ whole)⟩
    have released := shrinks.hashed removed (by
      intro q inside
      obtain ⟨-, old, alive⟩ := outside q inside
      by_contra absent
      have dead : s.isLive q = false := shrinks.gone q old absent
      rw [alive] at dead
      cases dead)
    rw [filter_isLive_of_deleted linked2 (sub2.trans shrinks.sub) linked.nodup gone data dead split]
    exact dropRecord_hashed released fun q inside => (outside q inside).1
  · have same : (s1.dropRecord r mr1).isSet = s1.isSet := by
      unfold MapState.dropRecord
      split <;> rfl
    exact same.trans shrinks.isSet
  · have same : (s1.dropRecord r mr1).cursors = s1.cursors := by
      unfold MapState.dropRecord
      split <;> rfl
    refine ⟨?_, ?_⟩
    · simp only [same]
      exact finalized.length
    · intro j c there
      simp only [same]
      exact finalized.cursors j c there
  · rw [dropRecord_recordCount, count]
    rfl

end JsMap
