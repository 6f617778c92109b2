import Partikle.Map.Update

/-!
The number of records that a map keeps. It is the number of records that are not deleted, plus those that left the
map without being counted; no call on a `Map` or a `Set` adds to the latter.
-/

namespace JsMap

open ListHead Option List

/-- `out` are the live records that have left the table already, `lost` is how many are counted but gone. -/
structure Tally (s : MapState) (recs : List RecId) (out : RecId → Bool) (lost : Nat) : Prop where
  linked : Linked s recs
  hashed : Hashed s (recs.filter fun r => s.isLive r && !out r)
  count : s.recordCount = (recs.filter s.isLive).length + lost
  small : s.recordCount < 2 ^ 32

abbrev nothing : RecId → Bool := fun _ => false

variable {s s' : MapState} {recs recs' : List RecId} {lost fuel : Nat} {r : RecId}

theorem tally_iff : Tally s recs nothing lost ↔ Linked s recs ∧ Hashed s (recs.filter s.isLive) ∧
      s.recordCount = (recs.filter s.isLive).length + lost ∧ s.recordCount < 2 ^ 32 := by
  have same : (fun r => s.isLive r && !nothing r) = s.isLive := by simp
  constructor
  · rintro ⟨linked, hashed, count, small⟩
    rw [same] at hashed
    exact ⟨linked, hashed, count, small⟩
  · rintro ⟨linked, hashed, count, small⟩
    rw [← same] at hashed
    exact ⟨linked, hashed, count, small⟩

theorem Tally.shrink (tally : Tally s recs nothing lost) (shrinks : Shrinks s s' recs recs')
    (count : s'.recordCount = s.recordCount) : Tally s' recs' nothing lost := by
  obtain ⟨linked, hashed, counted, small⟩ := tally_iff.mp tally
  refine tally_iff.mpr ⟨shrinks.linked, shrinks.hashed_filter linked hashed, ?_, count ▸ small⟩
  rw [count, counted, shrinks.filter_isLive linked.nodup]

variable {old : Cursor} {el : Option RecordNode} {alloc : Option RecId} {key : JsValue} {out : Output}

section Cursors

variable {i : Nat} {c : Cursor} {dying : List Nat}

theorem Tally.freeValues (tally : Tally s recs nothing lost) (freed : freeValues dying s = some s') :
    ∃ recs', Tally s' recs' nothing lost ∧ Shrinks s s' recs recs' ∧ Finalized dying s s' := by
  obtain ⟨s1, recs1, same, shrinks, count, finalized⟩ := freeValues_spec tally.linked dying
  obtain rfl : s1 = s' := some.inj (same.symm.trans freed)
  exact ⟨recs1, tally.shrink shrinks count, shrinks, finalized⟩

theorem Tally.finalize (tally : Tally s recs nothing lost) (done : jsMapIteratorFinalizer i s = some s') :
    ∃ recs', Tally s' recs' nothing lost := by
  obtain ⟨s1, recs1, same, shrinks, count, -⟩ := jsMapIteratorFinalizer_spec tally.linked i
  obtain rfl : s1 = s' := some.inj (same.symm.trans done)
  exact ⟨recs1, tally.shrink shrinks count⟩

theorem Tally.leaveRecord (tally : Tally s recs nothing lost) (there : s.cursors[i]? = some old)
    (same : c.curRecord = old.curRecord) (left : leaveRecord i c s = some s') :
    ∃ recs', Tally s' recs' nothing lost ∧ s'.cursors = s.cursors.set i { c with curRecord := none } := by
  obtain ⟨s1, recs1, equal, shrinks, count, cursors, -⟩ := leaveRecord_spec tally.linked there same
  obtain rfl : s1 = s' := some.inj (equal.symm.trans left)
  exact ⟨recs1, tally.shrink shrinks count, cursors⟩

theorem isLive_of_firstLive (first : firstLive s fuel el = some (some r)) : s.isLive r = true := by
  induction fuel generalizing el with
  | zero => cases first
  | succ fuel ih =>
    unfold firstLive at first
    split at first
    · cases first
    · split at first
      · rename_i q _
        cases found : s.record q with
        | none => simp [found] at first
        | some mr =>
          simp only [found, bind_eq_bind, bind_some] at first
          split at first
          · exact ih first
          · rename_i live
            obtain rfl : q = r := by simpa using first
            simp [MapState.isLive, found, live]
      · cases first

variable (tally : Tally s recs nothing lost)

include tally

theorem Tally.advance (there : s.cursors[i]? = some old) (nowhere : old.curRecord = none) (attached : c.attached = true)
    (alive : c.freed = false) (advanced : advance fuel i c el s = some (s', out)) : Tally s' recs nothing lost := by
  unfold JsMap.advance at advanced
  cases walked : firstLive s fuel el with
  | none => simp [walked] at advanced
  | some first =>
    simp only [walked, bind_eq_bind, bind_some] at advanced
    cases first with
    | none =>
      cases advanced
      exact tally.shrink (.of_content (tally.linked.setCursor there nowhere rfl) (fun _ => rfl) rfl rfl rfl rfl) rfl
    | some r =>
      obtain ⟨mr, found, -⟩ := record_of_isLive (isLive_of_firstLive walked)
      simp only [found, bind_some] at advanced
      cases advanced
      have locked := tally.linked.lock there nowhere found attached alive
      exact tally.shrink (.of_content locked (content_setCount found) rfl rfl rfl rfl) rfl

theorem Tally.jsMapIteratorNext (called : jsMapIteratorNext fuel i s = some (s', out)) :
    ∃ recs', Tally s' recs' nothing lost := by
  unfold JsMap.jsMapIteratorNext at called
  cases there : s.cursors[i]? with
  | none => simp [there] at called
  | some c =>
    simp only [there, bind_eq_bind, bind_some] at called
    split at called
    · cases called
    · rename_i usable
      split at called
      · rename_i attached
        obtain ⟨s1, left, advanced⟩ := bind_eq_some_iff.mp called
        obtain ⟨recs1, tally1, cursors⟩ := tally.leaveRecord there rfl left
        have bound := (List.getElem?_eq_some_iff.mp there).1
        have here : s1.cursors[i]? = some { c with curRecord := none } := by
          rw [cursors, getElem?_set_self bound]
        refine ⟨recs1, tally1.advance here rfl attached ?_ advanced⟩
        simpa using fun freed => usable (.inr freed)
      · cases called
        exact ⟨recs, tally⟩

theorem Tally.addCursor (kind : CursorKind) : Tally (addCursor kind s) recs nothing lost :=
  tally.shrink (.of_content (addCursor_linked tally.linked kind) (fun _ => rfl) rfl rfl rfl rfl) rfl

theorem Tally.forEachResume {throws : Bool} {dyingArgs : List Nat}
    (called : forEachResume fuel i throws dyingArgs dying s = some (s', out)) :
    ∃ recs', Tally s' recs' nothing lost := by
  unfold JsMap.forEachResume at called
  cases there : s.cursors[i]? with
  | none => simp [there] at called
  | some c =>
    simp only [there, bind_eq_bind, bind_some] at called
    split at called
    · rename_i running
      obtain ⟨r, stands⟩ := isSome_iff_exists.mp running.2
      have active := tally.linked.active there stands
      obtain ⟨⟨el, s2⟩, left, rest⟩ := bind_eq_some_iff.mp called
      obtain ⟨s1, freed, unlocked⟩ := bind_eq_some_iff.mp left
      obtain ⟨s2', gone, same⟩ :=
        bind_eq_some_iff.mp (show (JsMap.leaveRecord i c s1).bind _ = some (el, s2) from unlocked)
      cases same
      obtain ⟨recs1, tally1, -, finalized⟩ := tally.freeValues freed
      have there1 := finalized.forEach there running.1
      obtain ⟨recs2, tally2, cursors⟩ := tally1.leaveRecord there1 rfl gone
      have bound := (List.getElem?_eq_some_iff.mp there1).1
      have here : s2.cursors[i]? = some { c with curRecord := none } := by
        rw [cursors, getElem?_set_self bound]
      cases throws with
      | true =>
        cases rest
        exact ⟨recs2, tally2.shrink (.of_content (tally2.linked.setCursor here rfl rfl) (fun _ => rfl)
          rfl rfl rfl rfl) rfl⟩
      | false =>
        obtain ⟨s3, released, advanced⟩ := bind_eq_some_iff.mp rest
        obtain ⟨recs3, tally3, -, finalized3⟩ := tally2.freeValues released
        exact ⟨recs3, tally3.advance (finalized3.forEach here running.1) rfl active.1 active.2 advanced⟩
    · cases called

end Cursors

section Records

theorem Tally.setValue {mr : Record} (tally : Tally s recs nothing lost) (found : s.record r = some mr)
    (value : JsValue) : Tally (s.setRecord r { mr with value := value }) recs nothing lost := by
  obtain ⟨linked, hashed, count, small⟩ := tally_iff.mp tally
  refine tally_iff.mpr ⟨setValue_linked linked found value, setValue_hashed hashed found value, ?_, small⟩
  rwa [isLive_setValue found]

theorem length_lt_of_rehash {size : Nat} {visited todo : List RecId} (linked : Linked s (visited ++ todo))
    (looped : rehash size fuel (some (firstNode todo)) s = some s') : todo.length < fuel := by
  induction fuel generalizing s visited todo with
  | zero => cases looped
  | succ fuel ih =>
    cases todo with
    | nil => simp
    | cons r todo =>
      obtain ⟨mr, found⟩ := (linked.allocated r).mp (by simp)
      simp only [rehash, firstNode_cons, some.injEq, reduceCtorEq, ↓reduceIte, found,
        bind_eq_bind, bind_some] at looped
      have rest : Linked s ((visited ++ [r]) ++ todo) := by simpa using linked
      have next := linked.next_eq
      cases isEmpty : mr.empty with
      | true =>
        simp only [isEmpty, ↓reduceIte, next] at looped
        simpa using ih rest looped
      | false =>
        simp only [isEmpty, Bool.false_eq_true, ↓reduceIte] at looped
        have moved : (s.addToBucket size r mr.key).links.next (.link r) = some (firstNode todo) := next
        rw [moved] at looped
        simpa using ih (rest.setHashLinks _) looped

variable {slack : Option Nat} {dying : List Nat}

theorem Tally.mapHashResize (tally : Tally s recs nothing lost) (fits : TableFits slack s)
    (resized : mapHashResize fuel slack s = some s') :
    Tally s' recs nothing lost ∧ s'.record = s.record ∧ s'.cursors = s.cursors := by
  obtain ⟨linked, hashed, count, small⟩ := tally_iff.mp tally
  cases slack with
  | none =>
    rw [JsMap.mapHashResize, if_neg fits.1] at resized
    cases resized
    exact ⟨tally, rfl, rfl⟩
  | some extra =>
    have parts := resized
    rw [JsMap.mapHashResize, if_neg fits.1] at parts
    obtain ⟨s1, looped, -⟩ := bind_eq_some_iff.mp parts
    have start : Linked { s with hashLinks := initBuckets ((newHashSize s + extra) % 2 ^ 32) s.hashLinks }
        ([] ++ recs) := linked.setHashLinks _
    have first : s.links.next .records = some (firstNode recs) := linked.next_head
    simp only [first] at looped
    have bound := length_lt_of_rehash start looped
    obtain ⟨s2, same, linked2, hashed2, records, cursors, -, counts⟩ := mapHashResize_spec linked hashed fits bound
    obtain rfl : s2 = s' := some.inj (same.symm.trans resized)
    have live : s2.isLive = s.isLive := by
      unfold MapState.isLive
      rw [records]
    refine ⟨tally_iff.mpr ⟨linked2, ?_, ?_, counts ▸ small⟩, records, cursors⟩
    · rwa [live]
    · rwa [live, counts]

/-- What an insertion finds: a block that is not in use, a count that does not wrap, and room in the table. -/
def Room (alloc : Option RecId) (slack : Option Nat) (s : MapState) : Prop :=
  ∀ r, alloc = some r → s.record r = none ∧ s.recordCount + 1 < 2 ^ 32 ∧
    (s.recordCountThreshold ≤ s.recordCount + 1 → TableFits slack s)

theorem insertRecord_recordCount (key : JsValue) (low : s.recordCount + 1 < 2 ^ 32) :
    (s.insertRecord r key).recordCount = s.recordCount + 1 := by
  simp only [MapState.insertRecord, MapState.addToBucket, MapState.setRecord]
  omega

section

variable (tally : Tally s recs nothing lost)

include tally

theorem Tally.insertRecord (key : JsValue) (fresh : s.record r = none)
    (low : s.recordCount + 1 < 2 ^ 32) : Tally (s.insertRecord r key) (recs ++ [r]) nothing lost := by
  obtain ⟨linked, hashed, count, small⟩ := tally_iff.mp tally
  have outside := linked.not_mem_of_fresh fresh
  have counts := insertRecord_recordCount (r := r) key low
  refine tally_iff.mpr ⟨insertRecord_linked key linked fresh, ?_, ?_, counts ▸ low⟩
  · rw [insertRecord_filter_isLive key outside]
    exact insertRecord_hashed key hashed outside
  · rw [insertRecord_filter_isLive key outside, counts, count]
    simp only [length_append, length_singleton]
    omega

theorem Tally.mapAddRecord {added : Option RecId} (room : Room alloc slack s)
    (call : mapAddRecord fuel key alloc slack s = some (added, s')) :
    added = alloc ∧ (alloc = none ∧ s' = s ∨ ∃ r, alloc = some r ∧ s.record r = none ∧
      Tally s' (recs ++ [r]) nothing lost ∧ s'.record = (s.insertRecord r key).record ∧ s'.cursors = s.cursors) := by
  unfold JsMap.mapAddRecord at call
  cases alloc with
  | none =>
    cases call
    exact ⟨rfl, .inl ⟨rfl, rfl⟩⟩
  | some r =>
    obtain ⟨fresh, low, fits⟩ := room r rfl
    have inserted := tally.insertRecord key fresh low
    simp only at call
    split at call
    · rename_i full
      obtain ⟨s1, grown, rest⟩ := bind_eq_some_iff.mp call
      cases rest
      rw [insertRecord_recordCount key low] at full
      exact ⟨rfl, .inr ⟨r, rfl, fresh, inserted.mapHashResize (fits full) grown⟩⟩
    · cases call
      exact ⟨rfl, .inr ⟨r, rfl, fresh, inserted, rfl, rfl⟩⟩

theorem Tally.jsMapSet {value : JsValue}
    (room : mapFindRecord fuel s (mapNormalizeKey key) = some none → Room alloc slack s)
    (called : jsMapSet fuel key value alloc slack dying s = some (s', out)) : ∃ recs', Tally s' recs' nothing lost := by
  obtain ⟨found, walked, rest⟩ := bind_eq_some_iff.mp called
  cases found with
  | some r =>
    obtain ⟨s1, freed, rest⟩ := bind_eq_some_iff.mp rest
    obtain ⟨mr, present, rest⟩ := bind_eq_some_iff.mp rest
    cases rest
    obtain ⟨recs1, tally1, -⟩ := tally.freeValues freed
    exact ⟨recs1, tally1.setValue present _⟩
  | none =>
    obtain ⟨⟨added, s1⟩, inserted, written⟩ := bind_eq_some_iff.mp rest
    obtain ⟨rfl, ⟨rfl, same⟩ | ⟨r, rfl, -, tally1, -⟩⟩ := tally.mapAddRecord (room walked) inserted
    · cases written
      exact ⟨recs, same ▸ tally⟩
    · obtain ⟨mr, present, last⟩ := bind_eq_some_iff.mp written
      cases last
      exact ⟨_, tally1.setValue present _⟩

theorem Tally.mapDeleteRecord (deleted : mapDeleteRecord r dying s = some s') :
    ∃ recs', Tally s' recs' nothing lost := by
  obtain ⟨linked, hashed, count, small⟩ := tally_iff.mp tally
  by_cases live : s.isLive r = true
  · obtain ⟨s1, recs1, same, deletes, -, counts⟩ := mapDeleteRecord_spec linked hashed live dying
    obtain rfl : s1 = s' := some.inj (same.symm.trans deleted)
    obtain ⟨mr, found, -⟩ := record_of_isLive live
    have inTable : r ∈ recs.filter s.isLive :=
      mem_filter.mpr ⟨(linked.allocated r).mpr ⟨mr, found⟩, live⟩
    obtain ⟨front, back, split⟩ := append_of_mem inTable
    have left := filter_isLive_of_deleted deletes.linked deletes.sub linked.nodup deletes.gone deletes.data
      deletes.dead split
    rw [split] at count
    simp only [length_append, length_cons] at count
    refine ⟨recs1, tally_iff.mpr ⟨deletes.linked, deletes.hashed, ?_, by omega⟩⟩
    rw [left, length_append]
    omega
  · -- a record that is deleted already stays as it is
    obtain ⟨mr, found, rest⟩ := bind_eq_some_iff.mp deleted
    simp only [MapState.isLive, found, Bool.not_eq_true, Bool.not_eq_false'] at live
    simp only [live, ↓reduceIte, some.injEq] at rest
    exact ⟨recs, rest ▸ tally⟩

theorem Tally.clearLoop {dying : RecId → List Nat}
    (looped : clearLoop dying fuel el s = some s') : ∃ recs', Tally s' recs' nothing lost := by
  induction fuel generalizing s recs el with
  | zero => cases looped
  | succ fuel ih =>
    unfold JsMap.clearLoop at looped
    split at looped
    · cases looped
      exact ⟨recs, tally⟩
    · split at looped
      · obtain ⟨mr, -, rest⟩ := bind_eq_some_iff.mp looped
        obtain ⟨s1, deleted, rest⟩ := bind_eq_some_iff.mp rest
        obtain ⟨recs1, tally1⟩ := tally.mapDeleteRecord deleted
        exact ih tally1 rest
      · cases looped

end

def OpRoom (fuel : Nat) (op : Op) (s : MapState) : Prop :=
  match op with
  | .set key _ alloc slack _ => mapFindRecord fuel s (mapNormalizeKey key) = some none → Room alloc slack s
  | _ => True

theorem Tally.step {op : Op} (tally : Tally s recs nothing lost) (room : OpRoom fuel op s)
    (stepped : step fuel op s = some (s', out)) : ∃ recs', Tally s' recs' nothing lost := by
  cases op with
  | set key value alloc slack dying => exact tally.jsMapSet room stepped
  | delete key dying =>
    obtain ⟨found, -, rest⟩ := bind_eq_some_iff.mp stepped
    cases found with
    | none =>
      cases rest
      exact ⟨recs, tally⟩
    | some r =>
      obtain ⟨s1, deleted, rest⟩ := bind_eq_some_iff.mp rest
      cases rest
      exact tally.mapDeleteRecord deleted
  | clear dying =>
    obtain ⟨s1, looped, rest⟩ := bind_eq_some_iff.mp stepped
    cases rest
    exact tally.clearLoop looped
  | createIterator kind =>
    cases stepped
    exact ⟨recs, tally.addCursor _⟩
  | next i => exact tally.jsMapIteratorNext stepped
  | forEach =>
    have there : (JsMap.addCursor .forEach s).cursors[s.cursors.length]? = some ⟨.forEach, true, false, none⟩ := by
      simp [JsMap.addCursor]
    exact ⟨recs, (tally.addCursor .forEach).advance there rfl rfl rfl stepped⟩
  | callbackReturns i throws dyingArgs dying => exact tally.forEachResume stepped
  | finalize i =>
    obtain ⟨s1, done, same⟩ := map_eq_some_iff.mp stepped
    cases same
    exact tally.finalize done

end Records

end JsMap
