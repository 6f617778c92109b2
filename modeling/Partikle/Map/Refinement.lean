import Partikle.Map.Delete
import Partikle.Map.Ecma

/-!
The map refines the ordered list of ECMAScript. Every record knows the place of its
entry; places grow along the records list, and a deleted record may be missing.
-/

namespace JsMap

open ListHead List Option

structure Entries (s : MapState) (recs : List RecId) (pos : RecId → Nat) (data : MapData) : Prop where
  ascending : recs.Pairwise fun q r => pos q < pos r
  content : ∀ r mr, s.record r = some mr →
    data[pos r]? = some (if mr.empty then none else some (mr.key, mr.value))
  covered : ∀ i entry, data[i]? = some (some entry) → ∃ r ∈ recs, pos r = i

/-- A cursor continues behind the place of its record. Nothing is asked of a freed one. -/
def CursorAt (pos : RecId → Nat) (c : Cursor) (e : EcmaCursor) : Prop :=
  e.kind = c.kind ∧ (c.freed = false →
    e.index = if c.attached then some (c.curRecord.elim 0 fun r => pos r + 1) else none)

structure Sim (s : MapState) (es : EcmaState) (recs : List RecId) (pos : RecId → Nat) : Prop where
  linked : Linked s recs
  hashed : Hashed s (recs.filter s.isLive)
  normal : ∀ r mr, s.record r = some mr → Normalized mr.key
  entries : Entries s recs pos es.data
  length : s.cursors.length = es.cursors.length
  cursors : ∀ (i : Nat) c e, s.cursors[i]? = some c → es.cursors[i]? = some e → CursorAt pos c e
  isSet : s.isSet = es.isSet

variable {s s' : MapState} {recs recs' : List RecId} {pos : RecId → Nat} {data : MapData}

variable {r : RecId} {dying : List Nat}

theorem record_of_content {mr : Record} (same : s'.content r = s.content r) (found : s'.record r = some mr) :
    ∃ mr0, s.record r = some mr0 ∧ mr.empty = mr0.empty ∧ mr.key = mr0.key ∧ mr.value = mr0.value := by
  unfold MapState.content at same
  cases present : s.record r with
  | none => simp [found, present] at same
  | some mr0 =>
    simp only [found, present, map_some, some.injEq, Prod.mk.injEq] at same
    exact ⟨mr0, rfl, same⟩

theorem Entries.isLive {entry : JsValue × JsValue} (entries : Entries s recs pos data)
    (linked : Linked s recs) (member : r ∈ recs) (there : data[pos r]? = some (some entry)) : s.isLive r = true := by
  obtain ⟨mr, found⟩ := (linked.allocated r).mp member
  have holds := entries.content r mr found
  rw [there] at holds
  cases isEmpty : mr.empty with
  | true => simp [isEmpty] at holds
  | false => simp [MapState.isLive, found, isEmpty]

theorem Entries.shrink (entries : Entries s recs pos data) (linked : Linked s recs)
    (shrinks : Shrinks s s' recs recs') : Entries s' recs' pos data := by
  refine ⟨entries.ascending.sublist shrinks.sub, ?_, ?_⟩
  · intro r mr found
    have member : r ∈ recs' := (shrinks.linked.allocated r).mpr ⟨mr, found⟩
    obtain ⟨mr0, present, empty, key, value⟩ := record_of_content (shrinks.data r member) found
    rw [empty, key, value]
    exact entries.content r mr0 present
  · intro i entry there
    obtain ⟨r, member, place⟩ := entries.covered i entry there
    refine ⟨r, ?_, place⟩
    by_contra absent
    have live := entries.isLive linked member (place ▸ there)
    simp [shrinks.gone r member absent] at live

theorem Shrinks.normal (shrinks : Shrinks s s' recs recs')
    (normal : ∀ r mr, s.record r = some mr → Normalized mr.key) :
    ∀ r mr, s'.record r = some mr → Normalized mr.key := by
  intro r mr found
  have member : r ∈ recs' := (shrinks.linked.allocated r).mpr ⟨mr, found⟩
  obtain ⟨mr0, present, -, key, -⟩ := record_of_content (shrinks.data r member) found
  rw [key]
  exact normal r mr0 present

theorem Shrinks.hashed_filter (shrinks : Shrinks s s' recs recs') (linked : Linked s recs)
    (hashed : Hashed s (recs.filter s.isLive)) : Hashed s' (recs'.filter s'.isLive) := by
  have same := shrinks.filter_isLive linked.nodup
  rw [same]
  apply shrinks.hashed hashed
  intro r member
  rw [← same] at member
  exact (mem_filter.mp member).1

theorem Finalized.cursorAt {ecma : List EcmaCursor} {i : Nat} (finalized : Finalized dying s s')
    (related : ∀ c e, s.cursors[i]? = some c → ecma[i]? = some e → CursorAt pos c e) :
    ∀ c e, s'.cursors[i]? = some c → ecma[i]? = some e → CursorAt pos c e := by
  intro c e now there
  obtain ⟨bound, -⟩ := List.getElem?_eq_some_iff.mp now
  rw [finalized.length] at bound
  have before := getElem?_eq_getElem bound
  have old := related _ e before there
  rcases finalized.cursors i _ before with kept | ⟨-, -, freed⟩
  · rw [kept] at now
    simp only [some.injEq] at now
    exact now ▸ old
  · rw [freed] at now
    simp only [some.injEq] at now
    subst now
    exact ⟨old.1, fun alive => by simp at alive⟩

theorem Sim.shrink {es : EcmaState} (sim : Sim s es recs pos) (shrinks : Shrinks s s' recs recs')
    (finalized : Finalized dying s s') : Sim s' es recs' pos :=
  ⟨shrinks.linked, shrinks.hashed_filter sim.linked sim.hashed, shrinks.normal sim.normal,
    sim.entries.shrink sim.linked shrinks, finalized.length.trans sim.length,
    fun i => finalized.cursorAt (sim.cursors i), shrinks.isSet.trans sim.isSet⟩

theorem firstFrom_of_records {before rest : List RecId} {index : Nat} (linked : Linked s (before ++ rest))
    (entries : Entries s (before ++ rest) pos data) (low : ∀ r ∈ before, pos r < index)
    (high : ∀ r ∈ rest, index ≤ pos r) {wanted : Option (JsValue × JsValue) → Bool} (blank : wanted none = false)
    {chosen : RecId → Bool}
    (agree : ∀ r mr, s.record r = some mr → chosen r = wanted (if mr.empty then none else some (mr.key, mr.value))) :
    firstFrom wanted data index = (rest.find? chosen).map pos := by
  -- a place from the cursor on that is wanted belongs to a chosen record of `rest`
  have owner : ∀ j entry, index ≤ j → data[j]? = some entry → wanted entry = true →
      ∃ r ∈ rest, pos r = j ∧ chosen r = true := by
    intro j entry after there holds
    cases entry with
    | none => simp [blank] at holds
    | some entry =>
      obtain ⟨r, member, place⟩ := entries.covered j entry there
      obtain ⟨mr, found⟩ := (linked.allocated r).mp member
      have inRest : r ∈ rest := by
        rcases mem_append.mp member with early | late
        · have bound := low r early
          omega
        · exact late
      have content := entries.content r mr found
      rw [place, there] at content
      refine ⟨r, inRest, place, ?_⟩
      rwa [agree r mr found, ← some.inj content]
  cases first : rest.find? chosen with
  | none =>
    apply firstFrom_eq_none
    intro j entry after there
    by_contra wants
    obtain ⟨r, member, -, chooses⟩ := owner j entry after there (by simpa using wants)
    exact absurd chooses (by simpa using find?_eq_none.mp first r member)
  | some r =>
    obtain ⟨chooses, front, back, split, skipped⟩ := find?_eq_some_iff_append.mp first
    have member : r ∈ rest := mem_of_find?_eq_some first
    obtain ⟨mr, found⟩ := (linked.allocated r).mp (mem_append_right _ member)
    apply firstFrom_eq_some (high r member) (entries.content r mr found)
    · rwa [← agree r mr found]
    · intro j entry after small there
      by_contra wants
      obtain ⟨q, inside, place, also⟩ := owner j entry after there (by simpa using wants)
      have order := (pairwise_append.mp entries.ascending).2.1
      rw [split] at inside order
      rcases mem_append.mp inside with early | late
      · have not := skipped q early
        simp [also] at not
      · have later : pos r ≤ pos q := by
          rcases mem_cons.mp late with same | behind
          · rw [same]
          · have sorted := (pairwise_append.mp order).2.1
            exact Nat.le_of_lt ((pairwise_cons.mp sorted).1 q behind)
        omega

end JsMap
