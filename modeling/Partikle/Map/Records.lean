import Partikle.Map.Core
import Mathlib.Data.List.Count
import Mathlib.Data.List.Sublists

/-!
Reference counts of the records. A record counts the cursors that stand on it, and
itself as long as it is not deleted; a deleted record is freed with its last cursor.
-/

namespace JsMap

open ListHead Function List

def MapState.holders (s : MapState) (r : RecId) : Nat := s.cursors.countP fun c => c.curRecord = some r

def MapState.isLive (s : MapState) (r : RecId) : Bool :=
  match s.record r with
  | some mr => !mr.empty
  | none => false

def MapState.content (s : MapState) (r : RecId) : Option (Bool × JsValue × JsValue) :=
  (s.record r).map fun mr => (mr.empty, mr.key, mr.value)

/-- The records of the list are exactly `recs`, they are the allocated ones, and
their counts are right. -/
structure Linked (s : MapState) (recs : List RecId) : Prop where
  list : IsList s.links .records (recs.map .link)
  allocated : ∀ r, r ∈ recs ↔ ∃ mr, s.record r = some mr
  counted : ∀ r mr, s.record r = some mr →
    mr.refCount = (if mr.empty then 0 else 1) + (s.holders r : Int)
  positive : ∀ r mr, s.record r = some mr → 0 < mr.refCount
  held : ∀ c ∈ s.cursors, ∀ r, c.curRecord = some r → r ∈ recs
  idle : ∀ c ∈ s.cursors, c.attached = false ∨ c.freed = true → c.curRecord = none

structure Shrinks (s s' : MapState) (recs recs' : List RecId) : Prop where
  linked : Linked s' recs'
  sub : recs'.Sublist recs
  gone : ∀ r ∈ recs, r ∉ recs' → s.isLive r = false
  data : ∀ r ∈ recs', s'.content r = s.content r
  isSet : s'.isSet = s.isSet
  hashLinks : s'.hashLinks = s.hashLinks
  hashTable : s'.hashTable = s.hashTable
  hashSize : s'.hashSize = s.hashSize

variable {s s' : MapState} {recs : List RecId} {r : RecId} {i : Nat} {old c : Cursor} {mr : Record}

theorem Linked.nodup (linked : Linked s recs) : recs.Nodup := (nodup_cons.mp linked.list.nodup).2.of_map

theorem isLive_of_content (same : s'.content r = s.content r) : s'.isLive r = s.isLive r := by
  unfold MapState.content at same
  unfold MapState.isLive
  cases first : s'.record r <;> cases second : s.record r <;> simp_all

theorem record_of_isLive (live : s.isLive r = true) : ∃ mr, s.record r = some mr ∧ mr.empty = false := by
  unfold MapState.isLive at live
  cases present : s.record r with
  | none => simp [present] at live
  | some mr => exact ⟨mr, rfl, by simpa [present] using live⟩

theorem Shrinks.of_content (linked : Linked s' recs) (data : ∀ r, s'.content r = s.content r)
    (isSet : s'.isSet = s.isSet) (hashLinks : s'.hashLinks = s.hashLinks) (hashTable : s'.hashTable = s.hashTable)
    (hashSize : s'.hashSize = s.hashSize) : Shrinks s s' recs recs :=
  ⟨linked, Sublist.refl _, fun _ member absent => absurd member absent, fun r _ => data r,
    isSet, hashLinks, hashTable, hashSize⟩

theorem Shrinks.refl (linked : Linked s recs) : Shrinks s s recs recs :=
  .of_content linked (fun _ => rfl) rfl rfl rfl rfl

variable {s'' : MapState} {before after : List RecId}

theorem Shrinks.trans {recs' recs'' : List RecId} (first : Shrinks s s' recs recs')
    (second : Shrinks s' s'' recs' recs'') : Shrinks s s'' recs recs'' := by
  refine ⟨second.linked, second.sub.trans first.sub, ?_, ?_, second.isSet.trans first.isSet, second.hashLinks.trans
    first.hashLinks, second.hashTable.trans first.hashTable, second.hashSize.trans first.hashSize⟩
  · intro r member absent
    by_cases inside : r ∈ recs'
    · rw [← isLive_of_content (first.data r inside)]
      exact second.gone r inside absent
    · exact first.gone r member inside
  · intro r member
    rw [second.data r member, first.data r (second.sub.subset member)]

theorem holders_setCursor (there : s.cursors[i]? = some old) (r : RecId) :
    (s.setCursor i c).holders r + (if old.curRecord = some r then 1 else 0) =
      s.holders r + (if c.curRecord = some r then 1 else 0) := by
  obtain ⟨bound, same⟩ := List.getElem?_eq_some_iff.mp there
  have positive : (if old.curRecord = some r then 1 else 0) ≤ s.holders r := by
    split
    · rename_i stands
      apply countP_pos_iff.mpr
      exact ⟨old, mem_of_getElem? there, by simp [stands]⟩
    · omega
  have counted := countP_set (p := fun c : Cursor => decide (c.curRecord = some r)) (a := c) bound
  simp only [MapState.holders, MapState.setCursor, same, decide_eq_true_eq] at counted positive ⊢
  omega

theorem mem_setCursor {other : Cursor} (member : other ∈ (s.setCursor i c).cursors) : other ∈ s.cursors ∨ other = c :=
  mem_or_eq_of_mem_set member

/-- A count changes in step with the cursors, so `Linked` may be restored after a
cursor moved by adjusting the count of the record concerned. -/
theorem Linked.adjust (linked : Linked s recs) (there : s.cursors[i]? = some old) (found : s.record r = some mr)
    (count : Int) (positive : 0 < count)
    (balance : count + (if old.curRecord = some r then 1 else 0) =
      mr.refCount + (if c.curRecord = some r then 1 else 0))
    (others : ∀ q, q ≠ r → (old.curRecord = some q ↔ c.curRecord = some q))
    (resting : c.attached = false ∨ c.freed = true → c.curRecord = none) :
    Linked ((s.setCursor i c).setRecord r { mr with refCount := count }) recs := by
  have holders := holders_setCursor (c := c) there
  refine ⟨linked.list, ?_, ?_, ?_, ?_, ?_⟩
  · intro q
    rw [linked.allocated q]
    rcases eq_or_ne q r with rfl | same
    · simp [MapState.setRecord, found]
    · simp [MapState.setRecord, update_of_ne same, MapState.setCursor]
  · intro q record present
    have total := holders q
    change record.refCount = _ + (((s.setCursor i c).holders q : Nat) : Int)
    rcases eq_or_ne q r with rfl | same
    · have before := linked.counted q mr found
      simp only [MapState.setRecord, update_self, Option.some.injEq] at present
      subst present
      by_cases leaves : old.curRecord = some q <;> by_cases enters : c.curRecord = some q <;>
        simp only [leaves, enters, ↓reduceIte] at balance total ⊢ <;> omega
    · simp only [MapState.setRecord, update_of_ne same] at present
      have before := linked.counted q record present
      have agree := others q same
      simp only [agree] at total
      omega
  · intro q record present
    rcases update_some present with ⟨rfl, rfl⟩ | ⟨same, present⟩
    · exact positive
    · exact linked.positive q record present
  · intro cursor member q stands
    rcases mem_setCursor member with inside | equal
    · exact linked.held cursor inside q stands
    · subst equal
      rcases eq_or_ne q r with rfl | same
      · exact (linked.allocated q).mpr ⟨mr, found⟩
      · exact linked.held old (mem_of_getElem? there) q ((others q same).mpr stands)
  · intro cursor member rests
    rcases mem_setCursor member with inside | equal
    · exact linked.idle cursor inside rests
    · subst equal
      exact resting rests

theorem Linked.free (linked : Linked s (before ++ r :: after)) (links : s'.links = s.links)
    (records : s'.record = s.record) (unused : s'.holders r = 0) (others : ∀ q, q ≠ r → s'.holders q = s.holders q)
    (cursors : ∀ c ∈ s'.cursors, c ∈ s.cursors ∨ c.curRecord = none) :
    Linked (s'.freeRecord r) (before ++ after) := by
  have smaller : ∀ q, q ∈ before ++ after ↔ q ∈ before ++ r :: after ∧ q ≠ r :=
    fun _ => mem_unlinked linked.nodup
  have remains : ∀ q mr, (s'.freeRecord r).record q = some mr → q ≠ r ∧ s.record q = some mr := by
    intro q mr present
    by_cases same : q = r
    · simp [MapState.freeRecord, same] at present
    · simp only [MapState.freeRecord, update_of_ne same, records] at present
      exact ⟨same, present⟩
  refine ⟨?_, ?_, ?_, ?_, ?_, ?_⟩
  · have list := linked.list
    simp only [map_append, map_cons] at list
    simpa [MapState.freeRecord, links] using list.del
  · intro q
    rw [smaller, linked.allocated q]
    by_cases same : q = r
    · simp [MapState.freeRecord, same]
    · simp [MapState.freeRecord, same, records]
  · intro q record present
    obtain ⟨different, found⟩ := remains q record present
    have counted := linked.counted q record found
    rwa [← others q different] at counted
  · intro q record present
    exact linked.positive q record (remains q record present).2
  · intro c member q stands
    have inside : c ∈ s.cursors := by
      rcases cursors c member with old | left
      · exact old
      · simp [left] at stands
    refine (smaller q).mpr ⟨linked.held c inside q stands, ?_⟩
    rintro rfl
    have none := countP_eq_zero.mp unused c member
    simp [stands] at none
  · intro c member rests
    rcases cursors c member with old | left
    · exact linked.idle c old rests
    · exact left

theorem content_setCount {count : Int} (found : s.record r = some mr) (q : RecId) :
    ((s.setCursor i c).setRecord r { mr with refCount := count }).content q = s.content q := by
  rcases eq_or_ne q r with rfl | equal
  · simp [MapState.content, MapState.setRecord, found]
  · simp [MapState.content, MapState.setRecord, MapState.setCursor, update_of_ne equal]

theorem Linked.setCursor (linked : Linked s recs) (there : s.cursors[i]? = some old)
    (oldNowhere : old.curRecord = none) (nowhere : c.curRecord = none) : Linked (s.setCursor i c) recs := by
  refine ⟨linked.list, linked.allocated, ?_, linked.positive, ?_, ?_⟩
  · intro r mr found
    have total := holders_setCursor (c := c) there r
    simp only [oldNowhere, nowhere, reduceCtorEq, ↓reduceIte, Nat.add_zero] at total
    rw [total]
    exact linked.counted r mr found
  · intro other member r stands
    rcases mem_setCursor member with inside | equal
    · exact linked.held other inside r stands
    · simp [equal, nowhere] at stands
  · intro other member rests
    rcases mem_setCursor member with inside | equal
    · exact linked.idle other inside rests
    · rwa [equal]

theorem leaveRecord_spec (linked : Linked s recs) (there : s.cursors[i]? = some old)
    (same : c.curRecord = old.curRecord) :
    ∃ s' recs', leaveRecord i c s = some s' ∧ Shrinks s s' recs recs' ∧ s'.recordCount = s.recordCount ∧
      s'.cursors = s.cursors.set i { c with curRecord := none } ∧ ∀ q ∈ recs, c.curRecord ≠ some q → q ∈ recs' := by
  cases stands : c.curRecord with
  | none =>
    have oldStands : old.curRecord = none := by rw [← same, stands]
    exact ⟨s.setCursor i { c with curRecord := none }, recs, by simp [leaveRecord, stands],
      .of_content (linked.setCursor there oldStands rfl) (fun _ => rfl) rfl rfl rfl rfl, rfl, rfl,
      fun _ member _ => member⟩
  | some r =>
    have oldStands : old.curRecord = some r := by rw [← same, stands]
    have member : r ∈ recs := linked.held old (mem_of_getElem? there) r oldStands
    obtain ⟨mr, found⟩ := (linked.allocated r).mp member
    have counted := linked.counted r mr found
    have holders := holders_setCursor (c := { c with curRecord := none }) there
    have fewer := holders r
    simp only [oldStands, ↓reduceIte, reduceCtorEq] at fewer
    by_cases last : mr.refCount - 1 = 0
    · -- the last cursor leaves a zombie
      have empty : mr.empty = true := by
        cases isEmpty : mr.empty with
        | true => rfl
        | false =>
          simp only [isEmpty, Bool.false_eq_true, ↓reduceIte] at counted
          omega
      have unused : (s.setCursor i { c with curRecord := none }).holders r = 0 := by omega
      obtain ⟨before, after, rfl⟩ := append_of_mem member
      refine ⟨(s.setCursor i { c with curRecord := none }).freeRecord r, before ++ after, ?_,
        ⟨linked.free rfl rfl unused ?_ ?_, ?_, ?_, ?_, rfl, rfl, rfl, rfl⟩, rfl, rfl, ?_⟩
      · have present : (s.setCursor i { c with curRecord := none }).record r = some mr := found
        simp [leaveRecord, stands, mapDecrefRecord, present, last, empty]
      · intro q different
        have total := holders q
        simpa [oldStands, different.symm] using total
      · intro other inside
        rcases mem_setCursor inside with old | new
        · exact .inl old
        · exact .inr (by simp [new])
      · exact Sublist.append_left (sublist_cons_self _ _) _
      · intro q inside absent
        have equal : q = r := by
          by_contra different
          exact absent ((mem_unlinked linked.nodup).mpr ⟨inside, different⟩)
        simp [MapState.isLive, equal, found, empty]
      · intro q inside
        have different := ((mem_unlinked linked.nodup).mp inside).2
        simp [MapState.content, MapState.freeRecord, update_of_ne different, MapState.setCursor]
      · intro q inside notThere
        exact (mem_unlinked linked.nodup).mpr ⟨inside, fun same => notThere (same ▸ rfl)⟩
    · refine ⟨(s.setCursor i { c with curRecord := none }).setRecord r
          { mr with refCount := mr.refCount - 1 }, recs, ?_,
        .of_content (linked.adjust there found _ (by omega) ?_ ?_ (fun _ => rfl)) ?_
          rfl rfl rfl rfl, rfl, rfl, fun _ inside _ => inside⟩
      · have present : (s.setCursor i { c with curRecord := none }).record r = some mr := found
        simp [leaveRecord, stands, mapDecrefRecord, present, last]
      · simp [oldStands]
      · intro q different
        simp [oldStands, different.symm]
      · exact content_setCount found

structure Finalized (dying : List Nat) (s s' : MapState) : Prop where
  length : s'.cursors.length = s.cursors.length
  cursors : ∀ j c, s.cursors[j]? = some c → s'.cursors[j]? = some c ∨
    (j ∈ dying ∧ c.kind ≠ .forEach ∧ s'.cursors[j]? = some { c with freed := true, curRecord := none })

theorem jsMapIteratorFinalizer_spec (linked : Linked s recs) (i : Nat) :
    ∃ s' recs', jsMapIteratorFinalizer i s = some s' ∧ Shrinks s s' recs recs' ∧ s'.recordCount = s.recordCount ∧
      Finalized [i] s s' := by
  have untouched : Finalized [i] s s := ⟨rfl, fun _ _ there => .inl there⟩
  unfold jsMapIteratorFinalizer
  cases there : s.cursors[i]? with
  | none => exact ⟨s, recs, rfl, Shrinks.refl linked, rfl, untouched⟩
  | some c =>
    by_cases skipped : c.kind = .forEach ∨ c.freed = true
    · exact ⟨s, recs, by simp [skipped], Shrinks.refl linked, rfl, untouched⟩
    · have same : ({ c with freed := true } : Cursor).curRecord = c.curRecord := rfl
      obtain ⟨s', recs', left, shrinks, count, cursors, -⟩ := leaveRecord_spec linked there same
      refine ⟨s', recs', by simp [skipped, left], shrinks, count, by simp [cursors], ?_⟩
      intro j other present
      obtain ⟨bound, -⟩ := List.getElem?_eq_some_iff.mp there
      rcases eq_or_ne j i with rfl | equal
      · rw [there] at present
        simp only [Option.some.injEq] at present
        subst present
        right
        refine ⟨by simp, fun running => skipped (.inl running), ?_⟩
        simp [cursors, bound]
      · left
        rwa [cursors, getElem?_set_ne (Ne.symm equal)]

theorem Finalized.forEach {dying : List Nat} (finalized : Finalized dying s s')
    (there : s.cursors[i]? = some c) (running : c.kind = .forEach) : s'.cursors[i]? = some c := by
  rcases finalized.cursors i c there with kept | ⟨-, iterator, -⟩
  · exact kept
  · exact absurd running iterator

theorem Finalized.trans {first second : List Nat} (one : Finalized first s s')
    (two : Finalized second s' s'') : Finalized (first ++ second) s s'' := by
  refine ⟨two.length.trans one.length, ?_⟩
  intro j c there
  rcases one.cursors j c there with kept | ⟨dies, iterator, freed⟩
  · rcases two.cursors j c kept with again | ⟨dies, iterator, freed⟩
    · exact .inl again
    · exact .inr ⟨mem_append_right _ dies, iterator, freed⟩
  · right
    refine ⟨mem_append_left _ dies, iterator, ?_⟩
    rcases two.cursors j _ freed with again | ⟨-, -, freedAgain⟩
    · exact again
    · exact freedAgain

theorem freeValues_spec (linked : Linked s recs) (dying : List Nat) :
    ∃ s' recs', freeValues dying s = some s' ∧ Shrinks s s' recs recs' ∧ s'.recordCount = s.recordCount ∧
      Finalized dying s s' := by
  induction dying generalizing s recs with
  | nil => exact ⟨s, recs, rfl, Shrinks.refl linked, rfl, rfl, fun _ _ there => .inl there⟩
  | cons i dying ih =>
    obtain ⟨s1, recs1, stepped, shrinks, count, finalized⟩ := jsMapIteratorFinalizer_spec linked i
    obtain ⟨s2, recs2, folded, shrinks', count', finalized'⟩ := ih shrinks.linked
    refine ⟨s2, recs2, ?_, shrinks.trans shrinks', count'.trans count, finalized.trans finalized'⟩
    simp only [freeValues, foldlM_cons] at folded ⊢
    simp [stepped, folded]

theorem sublist_around (sub : recs.Sublist (before ++ r :: after))
    (unique : (before ++ r :: after).Nodup) (member : r ∈ recs) :
    ∃ before' after', recs = before' ++ r :: after' ∧ before'.Sublist before ∧ after'.Sublist after := by
  obtain ⟨front, back, rfl, frontSub, backSub⟩ := sublist_append_iff.mp sub
  have parts := nodup_append.mp unique
  have notFront : r ∉ front := fun inside => parts.2.2 r (frontSub.subset inside) r (by simp) rfl
  have inBack : r ∈ back := (mem_append.mp member).resolve_left notFront
  cases backSub with
  | cons _ smaller => exact absurd (smaller.subset inBack) (nodup_cons.mp parts.2.1).1
  | cons_cons _ smaller => exact ⟨front, _, rfl, frontSub, smaller⟩

end JsMap
