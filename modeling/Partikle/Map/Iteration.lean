import Partikle.Map.Refinement

/-!
Moving a cursor, for `next` and for `forEach` alike: it leaves its record, skips the
deleted ones and locks the first live record, as the ECMAScript cursor skips the
empty places.
-/

namespace JsMap

open ListHead List Option

variable {s s' : MapState} {before recs rest : List RecId} {fuel i : Nat} {c : Cursor} {es : EcmaState}
  {pos : RecId → Nat} {r : RecId}

theorem firstLive_loop {todo : List RecId} (linked : Linked s (before ++ todo)) (bound : todo.length < fuel) :
    firstLive s fuel (some (firstNode todo)) = some (todo.find? s.isLive) := by
  induction todo generalizing before fuel with
  | nil =>
    obtain _ | fuel := fuel
    · cases bound
    simp [firstLive]
  | cons r todo ih =>
    obtain _ | fuel := fuel
    · cases bound
    obtain ⟨mr, found⟩ := (linked.allocated r).mp (by simp)
    have rest : Linked s ((before ++ [r]) ++ todo) := by simpa using linked
    have later := ih rest (by simpa using bound)
    cases isEmpty : mr.empty with
    | true => simp [firstLive, found, isEmpty, MapState.isLive, linked.next_eq, later]
    | false => simp [firstLive, found, isEmpty, MapState.isLive]

theorem Linked.lock {old : Cursor} {mr : Record} (linked : Linked s recs) (there : s.cursors[i]? = some old)
    (nowhere : old.curRecord = none) (found : s.record r = some mr) (attached : c.attached = true)
    (alive : c.freed = false) :
    Linked ((s.setCursor i { c with curRecord := some r }).setRecord r { mr with refCount := mr.refCount + 1 })
      recs := by
  have positive := linked.positive r mr found
  apply linked.adjust there found
  · omega
  · simp [nowhere]
  · intro q different
    simp [nowhere, different.symm]
  · simp [attached, alive]

/-- A cursor that stands somewhere has neither finished nor been freed. -/
theorem Linked.active (linked : Linked s recs) (there : s.cursors[i]? = some c) (stands : c.curRecord = some r) :
    c.attached = true ∧ c.freed = false := by
  have rests := linked.idle c (mem_of_getElem? there)
  simpa [stands] using rests

/-- The refinement while cursor `i` is between two records. -/
structure Between (i : Nat) (s : MapState) (es : EcmaState) (recs : List RecId) (pos : RecId → Nat) :
    Prop where
  linked : Linked s recs
  hashed : Hashed s (recs.filter s.isLive)
  normal : ∀ r mr, s.record r = some mr → Normalized mr.key
  entries : Entries s recs pos es.data
  length : s.cursors.length = es.cursors.length
  others : ∀ (j : Nat) c e, j ≠ i → s.cursors[j]? = some c → es.cursors[j]? = some e → CursorAt pos c e
  nowhere : ∃ old, s.cursors[i]? = some old ∧ old.curRecord = none
  isSet : s.isSet = es.isSet

variable {recs' : List RecId} {dying : List Nat}

theorem Between.shrink (between : Between i s es recs pos)
    (shrinks : Shrinks s s' recs recs') (finalized : Finalized dying s s') : Between i s' es recs' pos := by
  refine ⟨shrinks.linked, shrinks.hashed_filter between.linked between.hashed,
    shrinks.normal between.normal, between.entries.shrink between.linked shrinks,
    finalized.length.trans between.length,
    fun j c e different => finalized.cursorAt (fun c e => between.others j c e different) c e, ?_,
    shrinks.isSet.trans between.isSet⟩
  obtain ⟨old, there, nowhere⟩ := between.nowhere
  rcases finalized.cursors i old there with kept | ⟨-, -, freed⟩
  · exact ⟨old, kept, nowhere⟩
  · exact ⟨_, freed, rfl⟩

theorem Between.settle {e : EcmaCursor} (between : Between i s es recs pos) (shrinks : Shrinks s s' recs recs)
    (cursors : s'.cursors = s.cursors.set i c) (placed : CursorAt pos c e) :
    Sim s' { es with cursors := es.cursors.set i e } recs pos := by
  refine ⟨shrinks.linked, shrinks.hashed_filter between.linked between.hashed, shrinks.normal between.normal,
    between.entries.shrink between.linked shrinks, ?_, ?_, shrinks.isSet.trans between.isSet⟩
  · rw [cursors, length_set, length_set]
    exact between.length
  · rw [cursors]
    intro j c' e' first second
    rcases eq_or_ne i j with rfl | same
    · rw [getElem?_set_self'] at first second
      cases old : s.cursors[i]? with
      | none => simp [old] at first
      | some _ =>
        cases other : es.cursors[i]? with
        | none => simp [other] at second
        | some _ =>
          simp only [old, other, Option.map_eq_map, map_some, Function.const_apply,
            some.injEq] at first second
          rwa [← first, ← second]
    · rw [getElem?_set_ne same] at first second
      exact between.others j c' e' (Ne.symm same) first second

theorem advance_spec {index : Nat} (between : Between i s es (before ++ rest) pos) (low : ∀ r ∈ before, pos r < index)
    (high : ∀ r ∈ rest, index ≤ pos r) (attached : c.attached = true) (alive : c.freed = false)
    (bound : rest.length < fuel) :
    ∃ s', advance fuel i c (some (firstNode rest)) s = some (s', (ecmaAdvance i c.kind index es).2) ∧
      Sim s' (ecmaAdvance i c.kind index es).1 (before ++ rest) pos := by
  have walked := firstLive_loop between.linked bound
  obtain ⟨old, there, nowhere⟩ := between.nowhere
  have places : firstFrom Option.isSome es.data index = (rest.find? s.isLive).map pos := by
    apply firstFrom_of_records between.linked between.entries low high rfl
    intro r mr found
    cases isEmpty : mr.empty <;> simp [MapState.isLive, found, isEmpty]
  cases first : rest.find? s.isLive with
  | none =>
    simp only [first, map_none] at places
    refine ⟨s.setCursor i { c with attached := false, curRecord := none }, ?_, ?_⟩
    · simp [advance, walked, first, ecmaAdvance, places]
    · simp only [ecmaAdvance, places]
      exact between.settle (.of_content (between.linked.setCursor there nowhere rfl)
        (fun _ => rfl) rfl rfl rfl rfl) rfl ⟨rfl, fun _ => by simp⟩
  | some r =>
    have live : s.isLive r = true := find?_some first
    obtain ⟨mr, found, notEmpty⟩ := record_of_isLive live
    have content := between.entries.content r mr found
    simp only [notEmpty, Bool.false_eq_true, ↓reduceIte] at content
    simp only [first, map_some] at places
    refine ⟨(s.setCursor i { c with curRecord := some r }).setRecord r
      { mr with refCount := mr.refCount + 1 }, ?_, ?_⟩
    · simp [advance, walked, first, ecmaAdvance, places, found, content, between.isSet,
        MapState.setRecord, MapState.setCursor]
    · simp only [ecmaAdvance, places, content]
      have locked := between.linked.lock there nowhere found attached alive
      exact between.settle (.of_content locked (content_setCount found) rfl rfl rfl rfl) rfl
        ⟨rfl, fun _ => by simp [attached]⟩

theorem resume_split (sub : recs.Sublist (before ++ rest)) (unique : (before ++ rest).Nodup)
    (stays : ∀ z, rest.head? = some z → z ∈ recs) :
    ∃ before' rest', recs = before' ++ rest' ∧ firstNode rest' = firstNode rest ∧ before'.Sublist before ∧
      rest'.Sublist rest := by
  cases rest with
  | nil => exact ⟨recs, [], by simp, rfl, by simpa using sub, Sublist.refl _⟩
  | cons z rest =>
    obtain ⟨before', rest', split, first, second⟩ := sublist_around sub unique (stays z rfl)
    exact ⟨before', z :: rest', split, rfl, first, second.cons_cons z⟩

theorem Sim.between (sim : Sim s es recs pos) (there : s.cursors[i]? = some c) (shrinks : Shrinks s s' recs recs')
    (cursors : s'.cursors = s.cursors.set i { c with curRecord := none }) : Between i s' es recs' pos := by
  obtain ⟨bound, -⟩ := List.getElem?_eq_some_iff.mp there
  refine ⟨shrinks.linked, shrinks.hashed_filter sim.linked sim.hashed, shrinks.normal sim.normal,
    sim.entries.shrink sim.linked shrinks, ?_, ?_, ?_, shrinks.isSet.trans sim.isSet⟩
  · rw [cursors, length_set]
    exact sim.length
  · intro j c' e different first second
    rw [cursors, getElem?_set_ne different.symm] at first
    exact sim.cursors j c' e first second
  · exact ⟨{ c with curRecord := none }, by simp [cursors, bound], rfl⟩

theorem Entries.sides {data : MapData} (entries : Entries s (before ++ r :: rest) pos data) :
    (∀ q ∈ before ++ [r], pos q < pos r + 1) ∧ ∀ q ∈ rest, pos r + 1 ≤ pos q := by
  obtain ⟨-, tail, cross⟩ := pairwise_append.mp entries.ascending
  constructor
  · intro q member
    rcases mem_append.mp member with early | same
    · have smaller := cross q early r (by simp)
      omega
    · rw [mem_singleton.mp same]
      omega
  · intro q member
    exact (pairwise_cons.mp tail).1 q member

theorem resume_spec (entries : Entries s (before ++ r :: rest) pos es.data) (unique : (before ++ r :: rest).Nodup)
    (between : Between i s' es recs pos) (sub : recs.Sublist (before ++ r :: rest))
    (stays : ∀ z, rest.head? = some z → z ∈ recs) (attached : c.attached = true) (alive : c.freed = false)
    (bound : recs.length < fuel) :
    ∃ s'', advance fuel i c (some (firstNode rest)) s' = some (s'', (ecmaAdvance i c.kind (pos r + 1) es).2) ∧
      Sim s'' (ecmaAdvance i c.kind (pos r + 1) es).1 recs pos := by
  have shape : before ++ r :: rest = (before ++ [r]) ++ rest := by simp
  rw [shape] at sub unique
  obtain ⟨before', rest', rfl, first, early, late⟩ := resume_split sub unique stays
  obtain ⟨low, high⟩ := entries.sides
  rw [← first]
  exact advance_spec between (fun q member => low q (early.subset member))
    (fun q member => high q (late.subset member)) attached alive (by simp at bound; omega)

theorem next_stays (unique : (before ++ r :: rest).Nodup)
    (kept : ∀ q ∈ before ++ r :: rest, some r ≠ some q → q ∈ recs) : ∀ z, rest.head? = some z → z ∈ recs := by
  intro z first
  have member := mem_of_mem_head? first
  apply kept z
  · simp [member]
  · rintro ⟨⟩
    exact (nodup_cons.mp (nodup_append.mp unique).2.1).1 member

theorem Sim.ecmaCursor (sim : Sim s es recs pos) (there : s.cursors[i]? = some c) (alive : c.freed = false) :
    es.cursors[i]? = some ⟨c.kind, if c.attached then some (c.curRecord.elim 0 fun r => pos r + 1) else none⟩ := by
  obtain ⟨small, -⟩ := List.getElem?_eq_some_iff.mp there
  rw [sim.length] at small
  have other := getElem?_eq_getElem small
  obtain ⟨kind, index⟩ := sim.cursors i c _ there other
  rw [other, ← kind, ← index alive]

theorem jsMapIteratorNext_spec (sim : Sim s es recs pos) (there : s.cursors[i]? = some c)
    (iterator : c.kind ≠ .forEach) (alive : c.freed = false) (bound : recs.length < fuel) :
    ∃ s' recs', jsMapIteratorNext fuel i s = some (s', (ecmaNext i es).2) ∧ Sim s' (ecmaNext i es).1 recs' pos ∧
      recs'.length ≤ recs.length := by
  have place := sim.ecmaCursor there alive
  cases attached : c.attached with
  | false =>
    have finished : ecmaNext i es = (es, .done) := by simp [ecmaNext, place, attached]
    refine ⟨s, recs, ?_, ?_, le_rfl⟩
    · simp [jsMapIteratorNext, there, iterator, alive, attached, finished]
    · rwa [finished]
  | true =>
    have stepped : ecmaNext i es = ecmaAdvance i c.kind (c.curRecord.elim 0 fun r => pos r + 1) es := by
      simp [ecmaNext, place, attached]
    obtain ⟨s1, recs1, left, shrinks, -, cursors, kept⟩ := leaveRecord_spec sim.linked there rfl
    have between := sim.between there shrinks cursors
    have fewer := shrinks.sub.length_le
    have unfolded : jsMapIteratorNext fuel i s = advance fuel i c (nextNode c s) s1 := by
      simp [jsMapIteratorNext, there, iterator, alive, attached, left]
    rw [unfolded, stepped]
    cases stands : c.curRecord with
    | none =>
      have same : recs1 = recs := shrinks.sub.eq_of_length_le
        ((subperm_of_subset sim.linked.nodup fun q member => kept q member (by simp [stands])).length_le)
      subst same
      have start : Between i s1 es ([] ++ recs1) pos := between
      obtain ⟨s2, advanced, simulated⟩ := advance_spec start (by simp) (fun _ _ => Nat.zero_le _) attached alive bound
      refine ⟨s2, recs1, ?_, simulated, fewer⟩
      simpa [nextNode, stands, sim.linked.next_head] using advanced
    | some r =>
      obtain ⟨before, rest, rfl⟩ := append_of_mem (sim.linked.held c (mem_of_getElem? there) r stands)
      rw [stands] at kept
      obtain ⟨s2, advanced, simulated⟩ := resume_spec sim.entries sim.linked.nodup between
        shrinks.sub (next_stays sim.linked.nodup kept) attached alive (fewer.trans_lt bound)
      refine ⟨s2, recs1, ?_, simulated, fewer⟩
      simpa [nextNode, stands, sim.linked.next_eq] using advanced

/-- Freeing the iterators `dying` does not free the record that a walk has saved as
its next one: the record is live, or a cursor stays on it. -/
def KeepsNext (s : MapState) (el : Option RecordNode) (dying : List Nat) : Prop :=
  ∀ z, el = some (.link z) → s.isLive z = false →
    ∃ (i : Nat) (c : Cursor), s.cursors[i]? = some c ∧ c.curRecord = some z ∧
      (i ∉ dying ∨ c.kind = .forEach)

theorem KeepsNext.stays {z : RecId} (keeps : KeepsNext s (some (firstNode rest)) dying)
    (finalized : Finalized dying s s') (linked : Linked s' recs) (first : rest.head? = some z)
    (gone : z ∉ recs → s.isLive z = false) : z ∈ recs := by
  have node : some (firstNode rest) = some (.link z) := by
    cases rest with
    | nil => simp at first
    | cons head rest => simpa using first
  by_contra absent
  obtain ⟨i, c, there, stands, survives⟩ := keeps z node (gone absent)
  rcases finalized.cursors i c there with kept | ⟨dies, iterator, -⟩
  · exact absent (linked.held c (mem_of_getElem? kept) z stands)
  · rcases survives with outside | running
    · exact outside dies
    · exact iterator running

section Cursor

variable (sim : Sim s es recs pos) (there : s.cursors[i]? = some c)

include sim there

theorem forEachLeave_spec (running : c.kind = .forEach) (stands : c.curRecord = some r) (dyingArgs : List Nat) :
    ∃ s1 s2 before rest recs2, forEachLeave i c dyingArgs s = some (some (firstNode rest), s2) ∧
      Entries s1 (before ++ r :: rest) pos es.data ∧ (before ++ r :: rest).Nodup ∧
      (before ++ r :: rest).length ≤ recs.length ∧ Between i s2 es recs2 pos ∧ recs2.Sublist (before ++ r :: rest) ∧
      (∀ z, rest.head? = some z → z ∈ recs2) ∧ s2.cursors[i]? = some { c with curRecord := none } := by
  obtain ⟨s1, recs1, freed, shrinks, -, finalized⟩ := freeValues_spec sim.linked dyingArgs
  have sim1 := sim.shrink shrinks finalized
  have there1 := finalized.forEach there running
  obtain ⟨s2, recs2, left, shrinks2, -, cursors2, kept2⟩ := leaveRecord_spec sim1.linked there1 rfl
  obtain ⟨before, rest, rfl⟩ := append_of_mem (sim1.linked.held c (mem_of_getElem? there1) r stands)
  refine ⟨s1, s2, before, rest, recs2, ?_, sim1.entries, sim1.linked.nodup, shrinks.sub.length_le,
    sim1.between there1 shrinks2 cursors2, shrinks2.sub, next_stays sim1.linked.nodup (stands ▸ kept2), ?_⟩
  · simp [forEachLeave, freed, left, nextNode, stands, sim1.linked.next_eq]
  · obtain ⟨bound, -⟩ := List.getElem?_eq_some_iff.mp there1
    simp [cursors2, bound]

theorem forEachResume_spec (running : c.kind = .forEach)
    (stands : c.curRecord = some r) (bound : recs.length < fuel) (throws : Bool) (dyingArgs dying : List Nat)
    (keeps : throws = false → ∀ el s', forEachLeave i c dyingArgs s = some (el, s') → KeepsNext s' el dying) :
    ∃ s' recs', forEachResume fuel i throws dyingArgs dying s = some
      (s', (ecmaStep (.callbackReturns i throws dyingArgs dying) es).2) ∧
      Sim s' (ecmaStep (.callbackReturns i throws dyingArgs dying) es).1 recs' pos ∧ recs'.length ≤ recs.length := by
  obtain ⟨attached, alive⟩ := sim.linked.active there stands
  have stepped : ecmaNext i es = ecmaAdvance i c.kind (pos r + 1) es := by
    simp [ecmaNext, sim.ecmaCursor there alive, attached, stands]
  obtain ⟨s1, s2, before, rest, recs2, left, entries, unique, shorter, between, sub, stays, there2⟩ :=
    forEachLeave_spec sim there running stands dyingArgs
  have fewer := sub.length_le
  cases throws with
  | true =>
    refine ⟨s2.setCursor i { c with attached := false, curRecord := none }, recs2, ?_, ?_, by omega⟩
    · simp [forEachResume, there, running, stands, left, ecmaStep]
    · exact between.settle (.of_content (between.linked.setCursor there2 rfl rfl)
        (fun _ => rfl) rfl rfl rfl rfl) rfl ⟨running.symm, fun _ => by simp⟩
  | false =>
    obtain ⟨s3, recs3, freed, shrinks, -, finalized⟩ := freeValues_spec between.linked dying
    have keeping := keeps rfl _ _ left
    have length := shrinks.sub.length_le
    obtain ⟨s4, advanced, simulated⟩ := resume_spec entries unique (between.shrink shrinks finalized)
      (shrinks.sub.trans sub)
      (fun z first => keeping.stays finalized shrinks.linked first (shrinks.gone z (stays z first)))
      attached alive (by omega : recs3.length < fuel)
    refine ⟨s4, recs3, ?_, ?_, by omega⟩
    · simp [forEachResume, there, running, stands, left, freed, advanced, ecmaStep, stepped]
    · simpa [ecmaStep, stepped] using simulated

end Cursor

theorem addCursor_linked (linked : Linked s recs) (kind : CursorKind) : Linked (addCursor kind s) recs := by
  have holders : ∀ r, (addCursor kind s).holders r = s.holders r := by simp [MapState.holders, addCursor]
  refine ⟨linked.list, linked.allocated, ?_, linked.positive, ?_, ?_⟩
  · intro r mr found
    rw [holders]
    exact linked.counted r mr found
  · intro c member r stands
    rcases mem_append.mp member with old | new
    · exact linked.held c old r stands
    · simp [mem_singleton.mp new] at stands
  · intro c member rests
    rcases mem_append.mp member with old | new
    · exact linked.idle c old rests
    · simp [mem_singleton.mp new]

theorem addCursor_sim (sim : Sim s es recs pos) (kind : CursorKind) :
    Sim (addCursor kind s) { es with cursors := es.cursors ++ [⟨kind, some 0⟩] } recs pos := by
  have linked := addCursor_linked sim.linked kind
  have shrinks : Shrinks s (addCursor kind s) recs recs := .of_content linked (fun _ => rfl) rfl rfl rfl rfl
  refine ⟨linked, shrinks.hashed_filter sim.linked sim.hashed, sim.normal,
    sim.entries.shrink sim.linked shrinks, by simp [addCursor, sim.length], ?_, sim.isSet⟩
  intro i c e first second
  by_cases old : i < s.cursors.length
  · simp only [addCursor] at first
    rw [getElem?_append_left old] at first
    rw [getElem?_append_left (by rwa [← sim.length])] at second
    exact sim.cursors i c e first second
  · simp only [addCursor] at first
    rw [getElem?_append_right (by omega), getElem?_singleton] at first
    rw [getElem?_append_right (by rw [← sim.length]; omega), getElem?_singleton] at second
    split at first
    · split at second
      · simp only [some.injEq] at first second
        subst first second
        exact ⟨rfl, fun _ => by simp⟩
      · cases second
    · cases first

theorem forEachStart_spec (sim : Sim s es recs pos) (bound : recs.length < fuel) :
    ∃ s', forEachStart fuel s = some (s', (ecmaStep .forEach es).2) ∧ Sim s' (ecmaStep .forEach es).1 recs pos := by
  have added := addCursor_sim sim .forEach
  have there : (addCursor .forEach s).cursors[s.cursors.length]? = some ⟨.forEach, true, false, none⟩ := by
    simp [addCursor]
  have between : Between s.cursors.length (addCursor .forEach s)
      { es with cursors := es.cursors ++ [⟨.forEach, some 0⟩] } ([] ++ recs) pos :=
    added.between there (.refl added.linked) (by simp [addCursor])
  obtain ⟨s', advanced, simulated⟩ := advance_spec (c := ⟨.forEach, true, false, none⟩) between (by simp)
    (fun _ _ => Nat.zero_le _) rfl rfl bound
  refine ⟨s', ?_, ?_⟩
  · simpa [forEachStart, sim.linked.next_head, ecmaStep, sim.length] using advanced
  · simpa [ecmaStep, sim.length] using simulated

end JsMap
