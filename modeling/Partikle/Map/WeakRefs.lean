import Partikle.Map.Count
import Partikle.Map.Weak

/-!
The lists of weak references. The list of an object holds exactly the records of weak maps whose key it is, also
while one record is on its way out of its map, and the deaths of objects, iterators and maps keep it so.
-/

namespace JsMap

open ListHead HashChain Function List Option

def KeyAt (w : Runtime) (mr : WeakRef) (p : Nat) : Prop :=
  ∃ o, w.maps mr.map = some o ∧ o.isWeak = true ∧
    (o.state.record mr.record).map Record.key = some (.object p)

def Chained (w : Runtime) (held : WeakRef → Nat → Prop) : Prop :=
  ∀ p, ∃ refs, Follows w.nextWeakRef (w.firstWeakRef p) refs ∧ ∀ mr, mr ∈ refs ↔ held mr p

section Chains

variable {w w' : Runtime} {held held' : WeakRef → Nat → Prop} {mr : WeakRef} {p fuel : Nat}

theorem Chained.congr (chained : Chained w held) (same : ∀ mr p, held' mr p ↔ held mr p)
    (first : w'.firstWeakRef = w.firstWeakRef) (next : w'.nextWeakRef = w.nextWeakRef) : Chained w' held' := by
  intro p
  obtain ⟨refs, follows, members⟩ := chained p
  refine ⟨refs, ?_, fun mr => (members mr).trans (same mr p).symm⟩
  rwa [first, next]

theorem Chained.addWeakRef (chained : Chained w held) (fresh : ∀ q, ¬held mr q) :
    Chained (w.addWeakRef p mr) fun mr' q => held mr' q ∨ mr' = mr ∧ q = p := by
  intro q
  obtain ⟨refs, follows, members⟩ := chained q
  have outside : mr ∉ refs := fun inside => fresh q ((members mr).mp inside)
  have kept : Follows (update w.nextWeakRef mr (w.firstWeakRef p)) (w.firstWeakRef q) refs := by
    refine follows.congr fun node member => ?_
    exact update_of_ne (fun same : node = mr => outside (same ▸ member)) _ _
  rcases eq_or_ne q p with rfl | same
  · refine ⟨mr :: refs, ⟨by simp [Runtime.addWeakRef], ?_⟩, ?_⟩
    · simpa [Runtime.addWeakRef] using kept
    · intro mr'
      rw [mem_cons, members mr']
      tauto
  · refine ⟨refs, ?_, ?_⟩
    · simpa [Runtime.addWeakRef, update_of_ne same] using kept
    · intro mr'
      rw [members mr']
      tauto

theorem deleteWeakRefLoop_write {refs : List WeakRef} {slot : Slot}
    (follows : Follows w.nextWeakRef (w.read slot) refs) (done : deleteWeakRefLoop mr fuel slot w = some w') :
    ∃ before after, refs = before ++ mr :: after ∧
      w' = w.write (w.nextWeakRef mr) (before.getLast?.elim slot .next) := by
  induction refs generalizing slot fuel with
  | nil =>
    cases fuel with
    | zero => cases done
    | succ fuel =>
      have ended : w.read slot = none := follows
      simp [deleteWeakRefLoop, ended] at done
  | cons mr1 rest ih =>
    cases fuel with
    | zero => cases done
    | succ fuel =>
      obtain ⟨here, behind⟩ := follows
      simp only [deleteWeakRefLoop, here, bind_eq_bind, bind_some] at done
      obtain ⟨_, -, walked⟩ := bind_eq_some_iff.mp done
      split at walked
      · rename_i same
        subst same
        cases walked
        exact ⟨[], rest, rfl, rfl⟩
      · obtain ⟨before, after, split, written⟩ :=
          ih (show Follows w.nextWeakRef (w.read (.next mr1)) rest from behind) walked
        refine ⟨mr1 :: before, after, by rw [split]; rfl, ?_⟩
        rw [written, getLast?_cons]
        cases before.getLast? <;> rfl

theorem deleteWeakRefLoop_spec (chained : Chained w held) (unique : ∀ mr p q, held mr p → held mr q → p = q)
    (done : deleteWeakRefLoop mr fuel (.first p) w = some w') :
    w'.maps = w.maps ∧ w'.created = w.created ∧ Chained w' fun mr' q => held mr' q ∧ mr' ≠ mr := by
  obtain ⟨refs, follows, members⟩ := chained p
  obtain ⟨before, after, split, written⟩ := deleteWeakRefLoop_write follows done
  have holds : held mr p := (members mr).mp (by simp [split])
  rw [split] at follows
  have left : ∀ mr', mr' ∈ before ++ after ↔ held mr' p ∧ mr' ≠ mr := by
    intro mr'
    rw [← members mr', split]
    exact mem_unlinked follows.nodup
  have elsewhere : ∀ q, q ≠ p → ∀ mr', held mr' q ∧ mr' ≠ mr ↔ held mr' q := by
    intro q different mr'
    refine ⟨fun both => both.1, fun here => ⟨here, ?_⟩⟩
    rintro rfl
    exact different (unique mr' q p here holds)
  rcases eq_nil_or_concat before with rfl | ⟨front, pred, rfl⟩
  · subst written
    refine ⟨rfl, rfl, ?_⟩
    intro q
    rcases eq_or_ne q p with rfl | same
    · exact ⟨after, by simpa [Runtime.write] using follows.2, by simpa using left⟩
    · obtain ⟨refs', follows', members'⟩ := chained q
      refine ⟨refs', ?_, fun mr' => (members' mr').trans (elsewhere q same mr').symm⟩
      simpa [Runtime.write, update_of_ne same] using follows'
  · simp only [concat_eq_append, getLast?_append, getLast?_singleton, some_or,
      elim_some] at written
    subst written
    refine ⟨rfl, rfl, ?_⟩
    intro q
    rcases eq_or_ne q p with rfl | same
    · refine ⟨front ++ pred :: after, ?_, by simpa using left⟩
      have whole : Follows w.nextWeakRef (w.firstWeakRef q) (front ++ pred :: mr :: after) := by
        simpa using follows
      exact whole.unlink
    · obtain ⟨refs', follows', members'⟩ := chained q
      refine ⟨refs', ?_, fun mr' => (members' mr').trans (elsewhere q same mr').symm⟩
      refine follows'.congr fun node member => ?_
      have apart : node ≠ pred := by
        rintro rfl
        have here : held node p := ((left node).mp (by simp)).1
        exact same (unique node q p ((members' node).mp member) here)
      exact update_of_ne apart _ _

end Chains

section Change

variable {w : Runtime} {m p : Nat} {f g : MapState → MapState} {mr : WeakRef}

variable {o : MapObject} {m' : Nat}

theorem change_maps_self (there : w.maps m = some o) : (w.change m f).maps m = some { o with state := f o.state } := by
  simp [Runtime.change, there]

theorem change_maps_of_ne (different : m' ≠ m) : (w.change m f).maps m' = w.maps m' := by
  simp [Runtime.change, update_of_ne different]

theorem of_change_maps {o' : MapObject} (there : (w.change m f).maps m' = some o') :
    ∃ o, w.maps m' = some o ∧ o'.isWeak = o.isWeak := by
  rcases eq_or_ne m' m with rfl | same
  · cases found : w.maps m' with
    | none => simp [Runtime.change, found] at there
    | some o =>
      rw [change_maps_self found, some.injEq] at there
      subst there
      exact ⟨o, rfl, rfl⟩
  · rw [change_maps_of_ne same] at there
    exact ⟨o', there, rfl⟩

theorem change_comm (commute : ∀ s, f (g s) = g (f s)) : (w.change m f).change m' g = (w.change m' g).change m f := by
  rcases eq_or_ne m m' with rfl | same
  · simp [Runtime.change, comp_def, commute]
  · simp only [Runtime.change, update_of_ne same, update_of_ne (Ne.symm same)]
    rw [update_comm (Ne.symm same)]

theorem keyAt_change_of_ne (different : mr.map ≠ m) : KeyAt (w.change m f) mr p ↔ KeyAt w mr p := by
  unfold KeyAt
  rw [change_maps_of_ne different]

theorem keyAt_change_self (there : w.maps m = some o) (same : mr.map = m) :
    KeyAt (w.change m f) mr p ↔ o.isWeak = true ∧ ((f o.state).record mr.record).map Record.key = some (.object p) := by
  unfold KeyAt
  rw [same, change_maps_self there]
  simp

theorem keyAt_change (there : w.maps m = some o)
    (keys : ∀ r, ((f o.state).record r).map Record.key = (o.state.record r).map Record.key) :
    KeyAt (w.change m f) mr p ↔ KeyAt w mr p := by
  by_cases same : mr.map = m
  · rw [keyAt_change_self there same, keys]
    unfold KeyAt
    rw [same, there]
    simp
  · exact keyAt_change_of_ne same

theorem keyAt_free (there : w.maps mr.map = some o) (gone : (f o.state).record mr.record = none)
    (others : ∀ r, r ≠ mr.record → (f o.state).record r = o.state.record r) {mr' : WeakRef} :
    KeyAt (w.change mr.map f) mr' p ↔ KeyAt w mr' p ∧ mr' ≠ mr := by
  by_cases same : mr'.map = mr.map
  · rw [keyAt_change_self there same]
    have equal : mr' = mr ↔ mr'.record = mr.record := by
      cases mr'
      cases mr
      simp only [WeakRef.mk.injEq]
      exact and_iff_right same
    unfold KeyAt
    rw [same, there]
    by_cases record : mr'.record = mr.record
    · simp [record, gone, equal]
    · simp [others _ record, record, equal]
  · rw [keyAt_change_of_ne same]
    refine ⟨fun here => ⟨here, ?_⟩, fun both => both.1⟩
    rintro rfl
    exact same rfl

theorem keyAt_congr {w' : Runtime} (same : w'.maps = w.maps) : KeyAt w' mr p ↔ KeyAt w mr p := by
  unfold KeyAt
  rw [same]

theorem KeyAt.unique {q : Nat} (first : KeyAt w mr p) (second : KeyAt w mr q) : p = q := by
  obtain ⟨o, there, -, key⟩ := first
  obtain ⟨o', there', -, key'⟩ := second
  rw [there, some.injEq] at there'
  subst there'
  rw [key] at key'
  simpa using key'

end Change

variable {out' : RecId → Bool}

section Leaving

variable {s : MapState} {recs : List RecId} {out : RecId → Bool} {lost : Nat} {r : RecId} {mr : Record}

section

variable (tally : Tally s recs out lost)

include tally

theorem Tally.takeOut (live : s.isLive r = true) (inside : out r = false) :
    Tally (s.delFromBucket r) recs (update out r true) lost := by
  obtain ⟨mr, found, -⟩ := record_of_isLive live
  have member : r ∈ recs := (tally.linked.allocated r).mpr ⟨mr, found⟩
  have inTable : r ∈ recs.filter fun q => s.isLive q && !out q :=
    mem_filter.mpr ⟨member, by simp [live, inside]⟩
  obtain ⟨front, back, split⟩ := append_of_mem inTable
  have distinct : (front ++ r :: back).Nodup := split ▸ tally.linked.nodup.filter _
  have shorter : recs.filter (fun q => (s.delFromBucket r).isLive q && !update out r true q) = front ++ back := by
    calc recs.filter (fun q => (s.delFromBucket r).isLive q && !update out r true q)
        = (recs.filter fun q => s.isLive q && !out q).filter (· != r) := by
          rw [List.filter_filter]
          apply filter_congr
          intro q _
          by_cases same : q = r
          · simp [same]
          · rw [update_of_ne same, show (q != r) = true by simpa using same, Bool.true_and]
            rfl
      _ = front ++ back := by
          rw [split]
          exact filter_ne_middle distinct
  refine ⟨tally.linked.setHashLinks _, ?_, tally.count, tally.small⟩
  rw [shorter]
  have hashed := tally.hashed
  rw [split] at hashed
  exact ⟨hashed.table, hashed.positive, hashed.small, hashed.buckets.del (indexAt_lt hashed.positive hashed.small r)⟩

theorem Tally.free (found : s.record r = some mr)
    (live : mr.empty = false) (unheld : s.holders r = 0) (outside : out r = true)
    (others : ∀ q, q ≠ r → out' q = out q) : ∃ recs', Tally (s.freeRecord r) recs' out' (lost + 1) := by
  obtain ⟨before, after, rfl⟩ := append_of_mem ((tally.linked.allocated r).mpr ⟨mr, found⟩)
  have alive : s.isLive r = true := by simp [MapState.isLive, found, live]
  have same : ∀ q ∈ before ++ after, (s.freeRecord r).isLive q = s.isLive q ∧ q ≠ r := by
    intro q inside
    have different := ((mem_unlinked tally.linked.nodup).mp inside).2
    exact ⟨by simp [MapState.isLive, MapState.freeRecord, update_of_ne different], different⟩
  have table : (before ++ after).filter (fun q => (s.freeRecord r).isLive q && !out' q) =
      (before ++ r :: after).filter fun q => s.isLive q && !out q := by
    rw [filter_append, filter_append, filter_cons_of_neg (by simp [outside])]
    congr 1 <;> apply filter_congr <;> intro q inside
    · obtain ⟨equal, different⟩ := same q (mem_append_left _ inside)
      rw [equal, others q different]
    · obtain ⟨equal, different⟩ := same q (mem_append_right _ inside)
      rw [equal, others q different]
  refine ⟨before ++ after, tally.linked.free rfl rfl unheld (fun _ _ => rfl) fun _ inside => .inl inside,
    ?_, ?_, tally.small⟩
  · rw [table]
    refine ⟨tally.hashed.table, tally.hashed.positive, tally.hashed.small, ?_⟩
    apply tally.hashed.buckets.congr
    intro q inside
    have different : q ≠ r := by
      rintro rfl
      simp [outside] at inside
    exact indexAt_of_content (by simp [MapState.content, MapState.freeRecord, update_of_ne different]) _
  · have fewer : (before ++ after).filter (s.freeRecord r).isLive = (before ++ after).filter s.isLive :=
      filter_congr fun q inside => (same q inside).1
    have count : s.recordCount = ((before ++ r :: after).filter s.isLive).length + lost := tally.count
    rw [filter_append, filter_cons_of_pos alive, length_append, length_cons] at count
    rw [fewer, filter_append, length_append]
    change s.recordCount = _
    omega

theorem Tally.lose (found : s.record r = some mr) (live : mr.empty = false) (unheld : s.holders r = 0)
    (inside : out r = false) : ∃ recs', Tally ((s.unlink r).discard r) recs' out (lost + 1) := by
  have alive : s.isLive r = true := by simp [MapState.isLive, found, live]
  have out' := tally.takeOut alive inside
  exact out'.free (s := s.delFromBucket r) found live unheld (by simp)
    (fun q different => (update_of_ne different _ _).symm)

theorem Tally.setRecordCount {count lost' : Nat} (counted : count = (recs.filter s.isLive).length + lost')
    (small : count < 2 ^ 32) : Tally { s with recordCount := count } recs out lost' :=
  ⟨tally.linked.setRecordCount count, { tally.hashed with }, counted, small⟩

theorem Tally.drop (found : s.record r = some mr)
    (live : mr.empty = false) (unheld : s.holders r = 0) (outside : out r = true)
    (others : ∀ q, q ≠ r → out' q = out q) : ∃ recs', Tally (s.dropRecord r mr) recs' out' lost := by
  obtain ⟨recs', freed⟩ := tally.free found live unheld outside others
  have last : mr.refCount - 1 = 0 := by
    have counted := tally.linked.counted r mr found
    simp only [live, Bool.false_eq_true, ↓reduceIte, unheld] at counted
    omega
  have count := freed.count
  have small := freed.small
  have lower : ((s.freeRecord r).recordCount + 2 ^ 32 - 1) % 2 ^ 32 =
      (recs'.filter (s.freeRecord r).isLive).length + lost := by
    omega
  refine ⟨recs', ?_⟩
  simp only [MapState.dropRecord, last, ↓reduceIte]
  exact freed.setRecordCount lower (Nat.mod_lt _ (by decide))

end

theorem Linked.bare (linked : Linked s recs) (bare : s.cursors = []) (found : s.record r = some mr) :
    mr.empty = false ∧ s.holders r = 0 := by
  have unheld : s.holders r = 0 := by simp [MapState.holders, bare]
  have counted := linked.counted r mr found
  have positive := linked.positive r mr found
  refine ⟨?_, unheld⟩
  cases isEmpty : mr.empty with
  | false => rfl
  | true =>
    simp only [isEmpty, ↓reduceIte, unheld] at counted
    omega

end Leaving

end JsMap
