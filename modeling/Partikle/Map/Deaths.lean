import Partikle.Map.WeakRefs

/-!
What the death of an object, an iterator or a map does to the maps of a runtime. The records of an object that dies
leave their maps; the counts of these maps are too high by one for each of them.
-/

namespace JsMap

open ListHead HashChain List Option

def outAt (out : Option WeakRef) (m : Nat) : RecId → Bool := fun r => decide (out = some ⟨m, r⟩)

theorem outAt_none (m : Nat) : outAt none m = nothing := by
  funext r
  simp [outAt]

variable {mr : WeakRef} {m p : Nat} {w' w : Runtime} {gone refs : List WeakRef} {start : Option WeakRef}
  {o : MapObject}

theorem outAt_of_ne (different : m ≠ mr.map) : outAt (some mr) m = nothing := by
  funext r
  simp only [outAt, some.injEq, decide_eq_false_iff_not]
  rintro rfl
  exact different rfl

/-- Every map keeps its records, and its count is too high by `lost`. The list of an object holds the records whose
key it is, except for the one record `out` that is being deleted. -/
structure Sound (w : Runtime) (out : Option WeakRef) (lost : Nat → Nat) : Prop where
  tallies : ∀ m o, w.maps m = some o → ∃ recs, Tally o.state recs (outAt out m) (lost m)
  bare : ∀ m o, w.maps m = some o → o.isWeak = true → o.state.cursors = []
  chains : Chained w fun mr p => KeyAt w mr p ∧ out ≠ some mr
  fresh : ∀ m, w.created ≤ m → w.maps m = none ∧ lost m = 0
  weak : ∀ mr o, out = some mr → w.maps mr.map = some o → o.isWeak = true

structure Fewer (w w' : Runtime) : Prop where
  kinds : ∀ m o', w'.maps m = some o' → ∃ o, w.maps m = some o ∧ o'.isWeak = o.isWeak
  keys : ∀ mr p, KeyAt w' mr p → KeyAt w mr p

theorem Fewer.refl (w : Runtime) : Fewer w w := ⟨fun _ o there => ⟨o, there, rfl⟩, fun _ _ here => here⟩

theorem Fewer.trans {w'' : Runtime} (first : Fewer w w') (second : Fewer w' w'') : Fewer w w'' := by
  refine ⟨fun m o'' there => ?_, fun mr p here => first.keys mr p (second.keys mr p here)⟩
  obtain ⟨o', there', kind'⟩ := second.kinds m o'' there
  obtain ⟨o, found, kind⟩ := first.kinds m o' there'
  exact ⟨o, found, kind'.trans kind⟩

theorem Fewer.weak {out : Option WeakRef} (fewer : Fewer w w')
    (weak : ∀ mr o, out = some mr → w.maps mr.map = some o → o.isWeak = true) :
    ∀ mr o, out = some mr → w'.maps mr.map = some o → o.isWeak = true := by
  intro mr o' pending there
  obtain ⟨o, found, kind⟩ := fewer.kinds _ o' there
  rw [kind]
  exact weak mr o pending found

def lostOf (refs : List WeakRef) (m : Nat) : Nat := refs.countP fun mr => mr.map = m

theorem lostOf_append (refs more : List WeakRef) (m : Nat) :
    lostOf (refs ++ more) m = lostOf refs m + lostOf more m := countP_append

variable {out : Option WeakRef} {lost : Nat → Nat} {fuel : Nat}

section Object

def lose (w : Runtime) (mr : WeakRef) : Runtime :=
  (w.change mr.map (·.unlink mr.record)).change mr.map (·.discard mr.record)

theorem unlinkWeakRefs_eq
    (follows : Follows w.nextWeakRef start refs) (done : unlinkWeakRefs fuel start w = some (w', gone)) :
    gone = refs ∧ w' = refs.foldl (fun w mr => w.change mr.map (·.unlink mr.record)) w := by
  induction fuel generalizing w start refs gone with
  | zero => cases done
  | succ fuel ih =>
    cases refs with
    | nil =>
      obtain rfl : start = none := follows
      cases done
      exact ⟨rfl, rfl⟩
    | cons mr refs =>
      obtain ⟨rfl, behind⟩ := follows
      obtain ⟨⟨o, record⟩, -, checked⟩ := bind_eq_some_iff.mp done
      simp only at checked
      split at checked
      · obtain ⟨⟨w1, rest⟩, walked, same⟩ := bind_eq_some_iff.mp checked
        cases same
        obtain ⟨rfl, rfl⟩ := ih (w := w.change mr.map (·.unlink mr.record)) behind walked
        exact ⟨rfl, rfl⟩
      · cases checked

theorem freeWeakRefs_eq (follows : Follows w.nextWeakRef start refs) (done : freeWeakRefs fuel start w = some w') :
    w' = refs.foldl (fun w mr => w.change mr.map (·.discard mr.record)) w := by
  induction fuel generalizing w start refs with
  | zero => cases done
  | succ fuel ih =>
    cases refs with
    | nil =>
      obtain rfl : start = none := follows
      cases done
      rfl
    | cons mr refs =>
      obtain ⟨rfl, behind⟩ := follows
      obtain ⟨_, -, walked⟩ := bind_eq_some_iff.mp done
      exact ih (w := w.change mr.map (·.discard mr.record)) behind walked

theorem foldl_unlink_discard (refs : List WeakRef) (w : Runtime) (mr : WeakRef) :
    refs.foldl (fun w mr => w.change mr.map (·.unlink mr.record)) (w.change mr.map (·.discard mr.record)) =
      (refs.foldl (fun w mr => w.change mr.map (·.unlink mr.record)) w).change mr.map (·.discard mr.record) := by
  induction refs generalizing w with
  | nil => rfl
  | cons mr' refs ih =>
    simp only [foldl_cons]
    rw [change_comm (f := (·.discard mr.record)) (g := (·.unlink mr'.record)) fun _ => rfl, ih]

theorem foldl_lose (refs : List WeakRef) (w : Runtime) : refs.foldl (fun w mr => w.change mr.map (·.discard mr.record))
      (refs.foldl (fun w mr => w.change mr.map (·.unlink mr.record)) w) = refs.foldl lose w := by
  induction refs generalizing w with
  | nil => rfl
  | cons mr refs ih =>
    simp only [foldl_cons]
    rw [← foldl_unlink_discard, ih]
    rfl

def SameLists (w w' : Runtime) : Prop :=
  w'.firstWeakRef = w.firstWeakRef ∧ w'.nextWeakRef = w.nextWeakRef ∧ w'.created = w.created

theorem foldl_sameLists {f : Runtime → WeakRef → Runtime} (same : ∀ w mr, SameLists w (f w mr)) (refs : List WeakRef)
    (w : Runtime) : SameLists w (refs.foldl f w) := by
  induction refs generalizing w with
  | nil => exact ⟨rfl, rfl, rfl⟩
  | cons mr refs ih =>
    obtain ⟨first, next, created⟩ := same w mr
    obtain ⟨first', next', created'⟩ := ih (f w mr)
    exact ⟨first'.trans first, next'.trans next, created'.trans created⟩

theorem lose_maps (there : w.maps mr.map = some o) :
    (lose w mr).maps mr.map = some { o with state := (o.state.unlink mr.record).discard mr.record } := by
  unfold lose
  rw [change_maps_self (change_maps_self there)]

theorem lose_maps_of_ne (different : m ≠ mr.map) : (lose w mr).maps m = w.maps m := by
  unfold lose
  rw [change_maps_of_ne different, change_maps_of_ne different]

theorem keyAt_lose {mr' : WeakRef} (there : w.maps mr.map = some o) :
    KeyAt (lose w mr) mr' p ↔ KeyAt w mr' p ∧ mr' ≠ mr := by
  have unlinked := change_maps_self (f := (·.unlink mr.record)) there
  unfold lose
  rw [keyAt_free unlinked (by simp [MapState.discard])
    (fun r different => by simp [MapState.discard, Function.update_of_ne different])]
  rw [keyAt_change there fun _ => rfl]

theorem foldl_lose_spec (distinct : refs.Nodup) (held : ∀ mr ∈ refs, KeyAt w mr p ∧ out ≠ some mr)
    (tallies : ∀ m o, w.maps m = some o → ∃ recs, Tally o.state recs (outAt out m) (lost m))
    (bare : ∀ m o, w.maps m = some o → o.isWeak = true → o.state.cursors = []) :
    (∀ m o, (refs.foldl lose w).maps m = some o →
      (∃ recs, Tally o.state recs (outAt out m) (lost m + lostOf refs m)) ∧ (o.isWeak = true → o.state.cursors = []) ∧
      ∃ o0, w.maps m = some o0 ∧ o.isWeak = o0.isWeak) ∧
      (∀ mr q, KeyAt (refs.foldl lose w) mr q ↔ KeyAt w mr q ∧ mr ∉ refs) := by
  induction refs generalizing w lost with
  | nil => exact ⟨fun m o there => ⟨tallies m o there, bare m o there, o, there, rfl⟩, by simp⟩
  | cons mr refs ih =>
    obtain ⟨⟨o, there, weak, key⟩, inside⟩ := held mr (by simp)
    obtain ⟨record, found, -⟩ := map_eq_some_iff.mp key
    obtain ⟨recs, tally⟩ := tallies _ o there
    obtain ⟨live, unheld⟩ := tally.linked.bare (bare _ o there weak) found
    obtain ⟨recs', gone⟩ := tally.lose found live unheld (by simpa [outAt] using inside)
    have apart := nodup_cons.mp distinct
    have held' : ∀ mr' ∈ refs, KeyAt (lose w mr) mr' p ∧ out ≠ some mr' := by
      intro mr' within
      obtain ⟨here, inside'⟩ := held mr' (.tail _ within)
      exact ⟨(keyAt_lose there).mpr ⟨here, fun same => apart.1 (same ▸ within)⟩, inside'⟩
    have tallies' : ∀ m o, (lose w mr).maps m = some o →
        ∃ recs, Tally o.state recs (outAt out m) (lost m + lostOf [mr] m) := by
      intro m o1 there1
      rcases eq_or_ne m mr.map with rfl | same
      · rw [lose_maps there, some.injEq] at there1
        subst there1
        exact ⟨recs', by simpa [lostOf] using gone⟩
      · rw [lose_maps_of_ne same] at there1
        simpa [lostOf, Ne.symm same] using tallies m o1 there1
    have bare' : ∀ m o, (lose w mr).maps m = some o → o.isWeak = true → o.state.cursors = [] := by
      intro m o1 there1 weak1
      rcases eq_or_ne m mr.map with rfl | same
      · rw [lose_maps there, some.injEq] at there1
        subst there1
        exact bare _ o there weak1
      · rw [lose_maps_of_ne same] at there1
        exact bare m o1 there1 weak1
    obtain ⟨after, keys⟩ := ih apart.2 held' tallies' bare'
    constructor
    · intro m o1 there1
      obtain ⟨⟨recs1, tally1⟩, bare1, o2, there2, kind⟩ := after m o1 there1
      refine ⟨⟨recs1, ?_⟩, bare1, ?_⟩
      · have sum := lostOf_append [mr] refs m
        rw [singleton_append] at sum
        rwa [sum, ← Nat.add_assoc]
      · rcases eq_or_ne m mr.map with rfl | same
        · rw [lose_maps there, some.injEq] at there2
          exact ⟨o, there, by rw [kind, ← there2]⟩
        · exact ⟨o2, lose_maps_of_ne same ▸ there2, kind⟩
    · intro mr' q
      rw [foldl_cons, keys, keyAt_lose there, mem_cons]
      tauto

theorem Sound.resetWeakRef (sound : Sound w out lost) (done : resetWeakRef fuel p w = some (w', gone)) :
    Sound w' out (fun m => lost m + lostOf gone m) ∧ Fewer w w' ∧ ∀ mr ∈ gone, KeyAt w mr p := by
  obtain ⟨refs, follows, members⟩ := sound.chains p
  obtain ⟨⟨w1, gone1⟩, unlinked, rest⟩ := bind_eq_some_iff.mp done
  obtain ⟨w2, freed, last⟩ := bind_eq_some_iff.mp rest
  simp only [some.injEq, Prod.mk.injEq] at last
  obtain ⟨same, rfl⟩ := last
  obtain ⟨rfl, rfl⟩ := unlinkWeakRefs_eq follows unlinked
  obtain ⟨first, next, -⟩ :=
    foldl_sameLists (f := fun w mr => w.change mr.map (·.unlink mr.record)) (fun _ _ => ⟨rfl, rfl, rfl⟩) gone1 w
  simp only [first] at freed
  have twice := freeWeakRefs_eq (by rwa [next]) freed
  rw [foldl_lose] at twice
  have held : ∀ mr ∈ gone1, KeyAt w mr p ∧ out ≠ some mr := fun mr inside => (members mr).mp inside
  obtain ⟨maps, keys⟩ := foldl_lose_spec follows.nodup held sound.tallies sound.bare
  obtain ⟨firsts, nexts, created⟩ := foldl_sameLists (f := lose) (fun _ _ => ⟨rfl, rfl, rfl⟩) gone1 w
  rw [← twice] at maps keys firsts nexts created
  have sameMaps : w'.maps = w2.maps := by rw [← same]
  have sameKeys : ∀ mr q, KeyAt w' mr q ↔ KeyAt w mr q ∧ mr ∉ gone1 := fun mr q =>
    (keyAt_congr sameMaps).trans (keys mr q)
  rw [← sameMaps] at maps
  have fewer : Fewer w w' :=
    ⟨fun m o there => (maps m o there).2.2, fun mr q here => ((sameKeys mr q).mp here).1⟩
  refine ⟨⟨fun m o there => (maps m o there).1, fun m o there => (maps m o there).2.1, ?_, ?_,
    fewer.weak sound.weak⟩, fewer, fun mr inside => (held mr inside).1⟩
  · intro q
    rcases eq_or_ne q p with rfl | equal
    · refine ⟨[], by simp [Follows, ← same], fun mr => ?_⟩
      simp only [sameKeys, members mr, not_mem_nil, false_iff]
      tauto
    · obtain ⟨refs', follows', members'⟩ := sound.chains q
      refine ⟨refs', ?_, fun mr => ?_⟩
      · simpa [← same, Function.update_of_ne equal, firsts, nexts] using follows'
      · simp only [sameKeys, members' mr]
        constructor
        · rintro ⟨here, inside⟩
          exact ⟨⟨here, fun member => equal (here.unique (held mr member).1)⟩, inside⟩
        · rintro ⟨⟨here, -⟩, inside⟩
          exact ⟨here, inside⟩
  · intro m late
    obtain ⟨absent, unlost⟩ := sound.fresh m (by rw [← created]; simpa [← same] using late)
    constructor
    · cases there : w'.maps m with
      | none => rfl
      | some o =>
        obtain ⟨-, -, o0, found, -⟩ := maps m o there
        simp [absent] at found
    · have none : lostOf gone1 m = 0 := by
        apply countP_eq_zero.mpr
        intro mr inside here
        obtain ⟨o, there, -⟩ := (held mr inside).1
        simp only [decide_eq_true_eq] at here
        simp [here, absent] at there
      rw [unlost, none]

end Object

section Map

theorem finalizeRecords_spec {held : WeakRef → Nat → Prop} {before todo : List RecId}
    (linked : Linked o.state (before ++ todo))
    (nonempty : o.isWeak = true → ∀ r record, o.state.record r = some record → record.empty = false)
    (unique : ∀ mr p q, held mr p → held mr q → p = q) (weak : ∀ mr p, held mr p → mr.map = m → o.isWeak = true)
    (here : ∃ o', w.maps m = some o' ∧ o'.isWeak = o.isWeak ∧ o'.state.links = o.state.links ∧ ∀ r ∈ todo,
      o'.state.record r = o.state.record r)
    (chains : Chained w fun mr p => held mr p ∧ (mr.map = m → mr.record ∈ todo))
    (done : finalizeRecords m fuel (some (firstNode todo)) w = some w') :
    (∀ m', m' ≠ m → w'.maps m' = w.maps m') ∧ w'.created = w.created ∧ Chained w' fun mr p => held mr p ∧
      mr.map ≠ m := by
  induction fuel generalizing w before todo with
  | zero => cases done
  | succ fuel ih =>
    cases todo with
    | nil =>
      simp only [finalizeRecords, firstNode_nil, ↓reduceIte, some.injEq] at done
      subst done
      exact ⟨fun _ _ => rfl, rfl, chains.congr (by simp) rfl rfl⟩
    | cons r todo =>
      obtain ⟨o', there, kind, links, records⟩ := here
      obtain ⟨record, found⟩ := (linked.allocated r).mp (by simp)
      have found' : w.record ⟨m, r⟩ = some (o', record) := by
        simp [Runtime.record, there, records r (by simp), found]
      simp only [finalizeRecords, firstNode_cons, some.injEq, reduceCtorEq, ↓reduceIte, found',
        bind_eq_bind, bind_some, links, linked.next_eq] at done
      obtain ⟨w1, unlisted, rest⟩ := bind_eq_some_iff.mp done
      have distinct := linked.nodup
      have apart : r ∉ todo := (nodup_cons.mp (nodup_append.mp distinct).2.1).1
      have passed : ∀ mr p, held mr p ∧ (mr.map = m → mr.record ∈ r :: todo) ∧ mr ≠ ⟨m, r⟩ ↔
          held mr p ∧ (mr.map = m → mr.record ∈ todo) := by
        intro mr p
        refine and_congr_right fun _ => ?_
        constructor
        · rintro ⟨inside, different⟩ same
          rcases mem_cons.mp (inside same) with first | later
          · exact absurd (by cases mr; simp_all) different
          · exact later
        · intro inside
          refine ⟨fun same => .tail _ (inside same), ?_⟩
          rintro rfl
          exact apart (inside rfl)
      have unlisted' : w1.maps = w.maps ∧ w1.created = w.created ∧
          Chained w1 fun mr p => held mr p ∧ (mr.map = m → mr.record ∈ todo) := by
        unfold finalizeKey at unlisted
        simp only [found', bind_eq_bind, bind_some, kind] at unlisted
        cases isWeak : o.isWeak with
        | true =>
          simp only [isWeak, nonempty isWeak r record found, Bool.not_false, Bool.and_self, ↓reduceIte,
            deleteWeakRef, found', bind_eq_bind, bind_some] at unlisted
          split at unlisted
          · obtain ⟨maps, created, chained⟩ := deleteWeakRefLoop_spec chains
              (fun mr p q first second => unique mr p q first.1 second.1) unlisted
            exact ⟨maps, created, chained.congr (fun mr p => by rw [← passed mr p, and_assoc]) rfl rfl⟩
          · cases unlisted
        | false =>
          simp only [isWeak, Bool.false_and, Bool.false_eq_true, ↓reduceIte, some.injEq] at unlisted
          subst unlisted
          refine ⟨rfl, rfl, chains.congr (fun mr p => and_congr_right fun holds => ?_) rfl rfl⟩
          have elsewhere : mr.map ≠ m := by
            intro same
            simp [weak mr p holds same] at isWeak
          simp [elsewhere]
      obtain ⟨maps, created, chained⟩ := unlisted'
      have there1 : w1.maps m = some o' := by rw [maps, there]
      have rest' : Linked o.state ((before ++ [r]) ++ todo) := by simpa using linked
      have here' : ∃ o'', (w1.change m (·.discard r)).maps m = some o'' ∧ o''.isWeak = o.isWeak ∧
          o''.state.links = o.state.links ∧ ∀ q ∈ todo, o''.state.record q = o.state.record q := by
        refine ⟨_, change_maps_self there1, kind, links, fun q inside => ?_⟩
        have different : q ≠ r := fun same => apart (same ▸ inside)
        simp only [MapState.discard, Function.update_of_ne different]
        exact records q (.tail _ inside)
      obtain ⟨others, created', chained'⟩ := ih rest' here' chained rest
      refine ⟨fun m' different => ?_, created'.trans created, chained'⟩
      rw [others m' different, change_maps_of_ne different, maps]

theorem Sound.jsMapFinalizer (sound : Sound w out lost) (done : jsMapFinalizer fuel m w = some w') :
    Sound w' out lost ∧ Fewer w w' := by
  obtain ⟨o, there, rest⟩ := bind_eq_some_iff.mp done
  obtain ⟨w1, looped, last⟩ := bind_eq_some_iff.mp rest
  simp only [some.injEq] at last
  obtain ⟨recs, tally⟩ := sound.tallies m o there
  rw [tally.linked.next_head] at looped
  have linked : Linked o.state ([] ++ recs) := tally.linked
  have chains : Chained w fun mr p => (KeyAt w mr p ∧ out ≠ some mr) ∧ (mr.map = m → mr.record ∈ recs) := by
    refine sound.chains.congr (fun mr p => and_iff_left_of_imp ?_) rfl rfl
    rintro ⟨⟨o', there', -, key⟩, -⟩ same
    rw [same, there, some.injEq] at there'
    subst there'
    obtain ⟨record, found, -⟩ := map_eq_some_iff.mp key
    exact (tally.linked.allocated _).mpr ⟨record, found⟩
  have weak : ∀ mr p, KeyAt w mr p ∧ out ≠ some mr → mr.map = m → o.isWeak = true := by
    rintro mr p ⟨⟨o', there', isWeak, -⟩, -⟩ same
    rw [same, there, some.injEq] at there'
    rw [there', isWeak]
  obtain ⟨others, created, chained⟩ := finalizeRecords_spec linked
    (fun isWeak r record found => (tally.linked.bare (sound.bare m o there isWeak) found).1)
    (fun mr p q first second => first.1.unique second.1) weak ⟨o, there, rfl, rfl, fun _ _ => rfl⟩ chains looped
  have gone : w'.maps m = none := by simp [← last]
  have kept : ∀ m', m' ≠ m → w'.maps m' = w.maps m' := by
    intro m' different
    rw [← others m' different, ← last]
    exact Function.update_of_ne different _ _
  have alive : ∀ m' o', w'.maps m' = some o' → w.maps m' = some o' := by
    intro m' o' there'
    have different : m' ≠ m := by
      rintro rfl
      simp [gone] at there'
    rwa [← kept m' different]
  have keys : ∀ mr p, KeyAt w' mr p ↔ KeyAt w mr p ∧ mr.map ≠ m := by
    intro mr p
    unfold KeyAt
    by_cases same : mr.map = m
    · simp [same, gone]
    · simp [kept _ same, same]
  have fewer : Fewer w w' :=
    ⟨fun m' o' there' => ⟨o', alive m' o' there', rfl⟩, fun mr p here => ((keys mr p).mp here).1⟩
  refine ⟨⟨fun m' o' there' => sound.tallies m' o' (alive m' o' there'),
    fun m' o' there' => sound.bare m' o' (alive m' o' there'), ?_, ?_, fewer.weak sound.weak⟩, fewer⟩
  · refine chained.congr (fun mr p => ?_) (by rw [← last]) (by rw [← last])
    rw [keys]
    tauto
  · intro m' late
    have before : w.created ≤ m' := by
      rw [← created]
      simpa [← last] using late
    obtain ⟨absent, unlost⟩ := sound.fresh m' before
    refine ⟨?_, unlost⟩
    by_cases same : m' = m
    · rw [same, gone]
    · rw [kept m' same, absent]

end Map

section Deaths

variable (sound : Sound w out lost)

include sound

variable {f : MapState → MapState}

/-- One map is changed. -/
theorem Sound.replace {out' : Option WeakRef} (there : w.maps m = some o) (maps : w'.maps = (w.change m f).maps)
    (created : w'.created = w.created) (tally : ∃ recs, Tally (f o.state) recs (outAt out' m) (lost m))
    (others : ∀ m', m' ≠ m → outAt out' m' = outAt out m') (bare : o.isWeak = true → (f o.state).cursors = [])
    (chains : Chained w' fun mr p => KeyAt w' mr p ∧ out' ≠ some mr)
    (weak : ∀ mr o, out' = some mr → w'.maps mr.map = some o → o.isWeak = true) : Sound w' out' lost := by
  have self : w'.maps m = some { o with state := f o.state } := maps ▸ change_maps_self there
  have rest : ∀ m', m' ≠ m → w'.maps m' = w.maps m' := fun m' different => maps ▸ change_maps_of_ne different
  refine ⟨?_, ?_, chains, ?_, weak⟩
  · intro m' o' there'
    rcases eq_or_ne m' m with rfl | equal
    · cases self.symm.trans there'
      exact tally
    · rw [others m' equal]
      exact sound.tallies m' o' ((rest m' equal).symm.trans there')
  · intro m' o' there' isWeak
    rcases eq_or_ne m' m with rfl | equal
    · cases self.symm.trans there'
      exact bare isWeak
    · exact sound.bare m' o' ((rest m' equal).symm.trans there') isWeak
  · intro m' late
    obtain ⟨absent, unlost⟩ := sound.fresh m' (created ▸ late)
    have different : m' ≠ m := by
      rintro rfl
      simp [absent] at there
    exact ⟨(rest m' different).trans absent, unlost⟩

theorem Sound.change (there : w.maps m = some o) (tally : ∃ recs, Tally (f o.state) recs (outAt out m) (lost m))
    (bare : o.isWeak = true → (f o.state).cursors = [])
    (keys : o.isWeak = true → ∀ r, ((f o.state).record r).map Record.key = (o.state.record r).map Record.key) :
    Sound (w.change m f) out lost ∧ Fewer w (w.change m f) := by
  have same : ∀ mr p, KeyAt (w.change m f) mr p ↔ KeyAt w mr p := by
    intro mr p
    by_cases here : mr.map = m
    · rw [keyAt_change_self there here]
      unfold KeyAt
      rw [here, there]
      cases isWeak : o.isWeak with
      | false => simp [isWeak]
      | true => simp [isWeak, keys isWeak]
    · exact keyAt_change_of_ne here
  have fewer : Fewer w (w.change m f) := by
    refine ⟨fun m' o' there' => ?_, fun mr p => (same mr p).mp⟩
    obtain ⟨o0, found, kind⟩ := of_change_maps there'
    exact ⟨o0, found, kind⟩
  have chains : Chained (w.change m f) fun mr p => KeyAt (w.change m f) mr p ∧ out ≠ some mr :=
    sound.chains.congr (fun mr p => and_congr_left fun _ => same mr p) rfl rfl
  exact ⟨sound.replace there rfl rfl tally (fun _ _ => rfl) bare chains (fewer.weak sound.weak), fewer⟩

theorem Sound.outAt_strong (there : w.maps m = some o) (strong : o.isWeak = false) : outAt out m = nothing := by
  cases pending : out with
  | none => exact outAt_none m
  | some mr =>
    refine outAt_of_ne fun same => ?_
    have weak := sound.weak mr o pending (same ▸ there)
    simp [strong] at weak

theorem Sound.die {death : Death} (done : die fuel death w = some (w', gone)) :
    Sound w' out (fun m => lost m + lostOf gone m) ∧ Fewer w w' ∧ ∀ mr ∈ gone, ∃ p, death = .object p ∧
      KeyAt w mr p := by
  cases death with
  | iterator m i =>
    unfold JsMap.die at done
    cases there : w.maps m with
    | none =>
      simp only [there, some.injEq, Prod.mk.injEq] at done
      obtain ⟨rfl, rfl⟩ := done
      exact ⟨sound, .refl _, by simp⟩
    | some o =>
      simp only [there] at done
      obtain ⟨s, finalized, same⟩ := bind_eq_some_iff.mp done
      cases same
      obtain ⟨recs, tally⟩ := sound.tallies m o there
      cases isWeak : o.isWeak with
      | true =>
        -- a weak map has no iterators
        have none := sound.bare m o there isWeak
        simp only [jsMapIteratorFinalizer, none, getElem?_nil, some.injEq] at finalized
        subst finalized
        obtain ⟨sound', fewer⟩ := sound.change (f := fun _ => o.state) there ⟨recs, tally⟩
          (fun _ => none) fun _ _ => rfl
        exact ⟨sound', fewer, by simp⟩
      | false =>
        rw [sound.outAt_strong there isWeak] at tally
        obtain ⟨recs1, tally1⟩ := tally.finalize finalized
        rw [← sound.outAt_strong there isWeak] at tally1
        obtain ⟨sound', fewer⟩ := sound.change (f := fun _ => s) there ⟨recs1, tally1⟩
          (fun weak => by simp [isWeak] at weak) fun weak => by simp [isWeak] at weak
        exact ⟨sound', fewer, by simp⟩
  | object p =>
    obtain ⟨sound', fewer, keys⟩ := sound.resetWeakRef done
    exact ⟨sound', fewer, fun mr inside => ⟨p, rfl, keys mr inside⟩⟩
  | map m =>
    obtain ⟨w1, finalized, same⟩ := bind_eq_some_iff.mp done
    cases same
    obtain ⟨sound', fewer⟩ := sound.jsMapFinalizer finalized
    exact ⟨sound', fewer, by simp⟩

theorem Sound.dieAll {dying : List Death} (done : dieAll fuel dying w = some (w', gone)) :
    Sound w' out (fun m => lost m + lostOf gone m) ∧ Fewer w w' ∧ ∀ mr ∈ gone, ∃ p, .object p ∈ dying ∧
      KeyAt w mr p := by
  induction dying generalizing w lost gone with
  | nil =>
    cases done
    exact ⟨sound, .refl _, by simp⟩
  | cons death dying ih =>
    obtain ⟨⟨w1, gone1⟩, first, rest⟩ := bind_eq_some_iff.mp done
    obtain ⟨⟨w2, gone2⟩, later, same⟩ := bind_eq_some_iff.mp rest
    cases same
    obtain ⟨sound1, fewer1, keys1⟩ := sound.die first
    obtain ⟨sound2, fewer2, keys2⟩ := ih sound1 later
    refine ⟨?_, fewer1.trans fewer2, ?_⟩
    · have sum : (fun m => lost m + lostOf (gone1 ++ gone2) m) = fun m => lost m + lostOf gone1 m + lostOf gone2 m := by
        funext m
        rw [lostOf_append, Nat.add_assoc]
      rwa [sum]
    · intro mr inside
      rcases mem_append.mp inside with early | late
      · obtain ⟨p, equal, key⟩ := keys1 mr early
        exact ⟨p, by simp [equal], key⟩
      · obtain ⟨p, member, key⟩ := keys2 mr late
        exact ⟨p, .tail _ member, fewer1.keys mr p key⟩

end Deaths

end JsMap
