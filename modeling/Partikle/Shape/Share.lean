import Partikle.Shape.Heap

/-!
References to shapes: taking and releasing them, cloning a shared shape, and making the
shape of an object safe to modify.
-/

namespace Shapes

open HashChain List Option

variable {V : Type} {P : Props → Prop} {h h' : Heap V} {extra extra' : List Ptr} {loose loose' : Ptr → Prop}
  {p q : Ptr} {sh sh' : Shape} {x : Holder}

section Basic

theorem Tabled.congr {entry entry' : Ptr → Prop} (table : Tabled h entry) (same : ∀ q, entry' q ↔ entry q) :
    Tabled h entry' :=
  ⟨table.bits, table.chains.of_iff same,
    fun q inside => table.listed q ((same q).mp inside),
    fun q inside => table.present q ((same q).mp inside)⟩

theorem Tabled.setShape {entry : Ptr → Prop} (table : Tabled h entry) (kept : entry p → ∃ sh, h.shape p = some sh ∧
    sh'.hash = sh.hash ∧ sh'.shapeHashNext = sh.shapeHashNext) : Tabled (h.setShape p sh') entry := by
  have shapes : ∀ q, q ≠ p → (h.setShape p sh').shape q = h.shape q := by
    intro q other
    simp [Heap.setShape, other]
  refine ⟨table.bits, table.chains.congr (fun _ => .rfl) ?_ (fun _ _ => rfl) ?_, table.listed, ?_⟩
  · intro q inside
    rcases eq_or_ne q p with rfl | same
    · obtain ⟨sh, found, -, next⟩ := kept inside
      rw [nextOf_eq found, ← next, nextOf_setShape, Function.update_self]
    · rw [nextOf_setShape, Function.update_of_ne same]
  · intro q inside
    rcases eq_or_ne q p with rfl | same
    · obtain ⟨sh, found, hash, -⟩ := kept inside
      simp [Heap.bucketOf, Heap.setShape, found, hash]
    · simp only [Heap.bucketOf, shapes q same]
      rfl
  · intro q inside
    by_cases same : q = p
    · exact ⟨sh', by simp [Heap.setShape, same]⟩
    · rw [shapes q same]
      exact table.present q inside

theorem refs_congr (objects : h'.objects = h.objects) (array : h'.arrayShape = h.arrayShape) (p : Ptr) :
    h'.refs p = h.refs p := by
  unfold Heap.refs
  rw [objects, array]

theorem object_congr (objects : h'.objects = h.objects) (o : Nat) : h'.object o = h.object o := by
  unfold Heap.object
  rw [objects]

theorem body_of_core (same : h'.core p = h.core p) (found : h'.shape p = some sh) :
    ∃ old, h.shape p = some old ∧ sh.body = old.body ∧ sh.refCount = old.refCount := by
  obtain ⟨old, was, core⟩ := shape_of_core same found
  exact ⟨old, was, core_body core⟩

theorem Relinked.hashedAt (relinked : Relinked h h') (p : Ptr) : h'.hashedAt p ↔ h.hashedAt p := by
  constructor
  · rintro ⟨sh, found, hashed⟩
    obtain ⟨old, was, body, -⟩ := body_of_core (relinked.core p) found
    exact ⟨old, was, by rwa [← (body_fields body).2.1]⟩
  · rintro ⟨sh, found, hashed⟩
    obtain ⟨now, is, body, -⟩ := body_of_core (relinked.core p).symm found
    exact ⟨now, is, by rwa [← (body_fields body).2.1]⟩

theorem Ok.relinked (ok : Ok P h extra loose) (relinked : Relinked h h')
    (table : Tabled h' fun p => h.hashedAt p ∧ ¬loose' p) : Ok P h' extra loose' := by
  have refs := refs_congr relinked.objects relinked.arrayShape
  apply ok_of_fine (table.congr fun q => by rw [relinked.hashedAt q])
  · intro p sh found
    obtain ⟨was, there, body, count⟩ := body_of_core (relinked.core p) found
    rw [refs]
    exact ⟨relinked.gcObjList ▸ ok.listed p was there, (ok.fine there).of_body body count⟩
  · intro p member
    exact relinked.present (ok.extras p member)
  · intro o obj there
    rw [object_congr relinked.objects] at there
    obtain ⟨was, found, size⟩ := ok.objects o obj there
    obtain ⟨now, is, body, -⟩ := body_of_core (relinked.core _).symm found
    exact ⟨now, is, by rwa [← (body_fields body).1]⟩
  · intro p held
    rw [relinked.arrayShape] at held
    obtain ⟨was, found, hashed⟩ := ok.array p held
    obtain ⟨now, is, body, -⟩ := body_of_core (relinked.core _).symm found
    exact ⟨now, is, by rwa [← (body_fields body).2.1]⟩

theorem Relinked.frame (relinked : Relinked h h') (x : Holder) : Frame x h h' := by
  refine ⟨fun o _ => object_congr relinked.objects o, fun _ => relinked.arrayShape,
    fun _ => congrArg length relinked.objects, ?_⟩
  intro y p _ _
  have same := relinked.core p
  cases now : h'.shape p with
  | none =>
    cases was : h.shape p with
    | none => rfl
    | some old => simp [Heap.core, now, was] at same
  | some sh =>
    obtain ⟨old, was, body, -⟩ := body_of_core same now
    rw [was, map_some, map_some, body_face body]

theorem Ok.setShape (ok : Ok P h extra loose) (found : h.shape p = some sh)
    (entryKept : sh.isHashed = true ∧ ¬loose p → sh'.hash = sh.hash ∧ sh'.shapeHashNext = sh.shapeHashNext)
    (entrySame : sh'.isHashed = true ∧ ¬loose' p ↔ sh.isHashed = true ∧ ¬loose p)
    (looseSame : ∀ q, q ≠ p → (loose' q ↔ loose q)) (props : P sh'.toProps)
    (hashes : sh'.isHashed = true → sh'.hash = hashOf sh'.proto sh'.entries)
    (count : sh'.refCount = h.refs p + extra'.count p ∧ 0 < sh'.refCount)
    (others : ∀ q, q ≠ p → extra'.count q = extra.count q) (owned : sh'.isHashed = false → sh'.refCount = 1)
    (size : sh'.propSize = sh.propSize) (array : h.arrayShape = some p → sh'.isHashed = true) :
    Ok P (h.setShape p sh') extra' loose' := by
  have self : (h.setShape p sh').shape p = some sh' := by simp [Heap.setShape]
  have shapes : ∀ q, q ≠ p → (h.setShape p sh').shape q = h.shape q := by
    intro q other
    simp [Heap.setShape, other]
  have hashedAt : ∀ q, ((h.setShape p sh').hashedAt q ∧ ¬loose' q) ↔ (h.hashedAt q ∧ ¬loose q) := by
    intro q
    rcases eq_or_ne q p with rfl | same
    · simp only [Heap.hashedAt, self, found, some.injEq, exists_eq_left']
      exact entrySame
    · simp [Heap.hashedAt, shapes q same, looseSame q same]
  apply ok_of_fine
  · refine (Tabled.setShape ok.table ?_).congr hashedAt
    rintro ⟨⟨old, was, hashed⟩, tight'⟩
    rw [found] at was
    cases was
    exact ⟨sh, found, entryKept ⟨hashed, tight'⟩⟩
  · intro q s is
    rcases update_some is with ⟨rfl, rfl⟩ | ⟨same, is⟩
    · exact ⟨ok.listed q sh found, props, hashes, count, owned⟩
    · rw [others q same]
      exact ⟨ok.listed q s is, ok.fine is⟩
  · intro q member
    rcases eq_or_ne q p with rfl | same
    · exact ⟨sh', self⟩
    · rw [shapes q same]
      apply ok.extras
      rw [← count_pos_iff, ← others q same]
      exact count_pos_iff.mpr member
  · intro o obj there
    obtain ⟨s, was, fits⟩ := ok.objects o obj there
    by_cases same : obj.shape = p
    · rw [same, found] at was
      cases was
      exact ⟨sh', by rwa [same], by rwa [size]⟩
    · exact ⟨s, by rwa [shapes _ same], fits⟩
  · intro q held
    rcases eq_or_ne q p with rfl | same
    · exact ⟨sh', self, array held⟩
    · rw [shapes q same]
      exact ok.array q held

end Basic

section Count

theorem jsDupShape_spec (ok : Ok P h extra loose) (found : h.shape p = some sh) (hashed : sh.isHashed = true) :
    ∃ h', jsDupShape p h = some h' ∧ Ok P h' (p :: extra) loose ∧
      h' = h.setShape p { sh with refCount := sh.refCount + 1 } := by
  refine ⟨h.setShape p { sh with refCount := sh.refCount + 1 }, by simp [jsDupShape, found], ?_, rfl⟩
  obtain ⟨count, positive⟩ := ok.counts p sh found
  refine ok.setShape found (fun _ => ⟨rfl, rfl⟩) .rfl (fun _ _ => .rfl) (ok.props p sh found)
    (ok.hashes p sh found) ?_ ?_ ?_ rfl (fun _ => hashed)
  · simp only [count_cons_self]
    omega
  · intro q other
    simp [other.symm]
  · intro unhashed
    simp [show sh.isHashed = false from unhashed] at hashed

structure Shrunk (h h' : Heap V) : Prop where
  body : ∀ q sh', h'.shape q = some sh' → ∃ sh, h.shape q = some sh ∧ sh'.body = sh.body
  arrayShape : h'.arrayShape = h.arrayShape
  objects : h'.objects = h.objects

theorem Ok.held_present (ok : Ok P h extra loose) (held : h.held x = some p) : ∃ sh, h.shape p = some sh := by
  cases x with
  | object o =>
    simp only [Heap.held, map_eq_some_iff] at held
    obtain ⟨obj, there, rfl⟩ := held
    obtain ⟨sh, found, -⟩ := ok.objects o obj there
    exact ⟨sh, found⟩
  | context =>
    obtain ⟨sh, found, -⟩ := ok.array p held
    exact ⟨sh, found⟩

theorem Shrunk.frame (shrunk : Shrunk h h') (ok : Ok P h' extra loose) (x : Holder) : Frame x h h' := by
  refine ⟨fun o _ => object_congr shrunk.objects o, fun _ => shrunk.arrayShape,
    fun _ => congrArg length shrunk.objects, ?_⟩
  intro y q _ held
  have held' : h'.held y = some q := by
    cases y with
    | object o => simpa only [Heap.held, object_congr shrunk.objects] using held
    | context => exact shrunk.arrayShape.trans held
  obtain ⟨sh', is⟩ := ok.held_present held'
  obtain ⟨sh, was, same⟩ := shrunk.body q sh' is
  rw [is, was, map_some, map_some, body_face same]

theorem shrunk_setCount (found : h.shape p = some sh) (n : Int) :
    Shrunk h (h.setShape p { sh with refCount := n }) := by
  refine ⟨?_, rfl, rfl⟩
  intro q sh' is
  rcases update_some is with ⟨rfl, rfl⟩ | ⟨same, is⟩
  · exact ⟨sh, found, rfl⟩
  · exact ⟨sh', is, rfl⟩

theorem dropShape_ok (ok : Ok P h (p :: extra) loose) (table : Tabled h' fun q => (h.hashedAt q ∧ ¬loose q) ∧ q ≠ p)
    (relinked : ∀ q, q ≠ p → h'.core q = h.core q) (list : h'.gcObjList = h.gcObjList)
    (array : h'.arrayShape = h.arrayShape) (objects : h'.objects = h.objects) (unreferenced : h.refs p = 0)
    (unheld : extra.count p = 0) : Ok P (h'.dropShape p) extra loose := by
  have shapes : ∀ q, q ≠ p → (h'.dropShape p).shape q = h'.shape q := by
    intro q other
    simp [Heap.dropShape, other]
  have gone : (h'.dropShape p).shape p = none := by simp [Heap.dropShape]
  have notP : ∀ q s, (h'.dropShape p).shape q = some s → q ≠ p := by
    rintro q s is rfl
    simp [gone] at is
  have old : ∀ q s, (h'.dropShape p).shape q = some s →
      ∃ was, h.shape q = some was ∧ s.body = was.body ∧ s.refCount = was.refCount := by
    intro q s is
    have other := notP q s is
    rw [shapes q other] at is
    exact body_of_core (relinked q other) is
  have new : ∀ q s, q ≠ p → h.shape q = some s → ∃ now, (h'.dropShape p).shape q = some now ∧ s.body = now.body := by
    intro q s other found
    obtain ⟨now, there, body, -⟩ := body_of_core (relinked q other).symm found
    exact ⟨now, (shapes q other).trans there, body⟩
  have refs : ∀ q, (h'.dropShape p).refs q = h.refs q := fun q => refs_congr objects array q
  refine ok_of_fine ⟨table.bits, ?_, ?_, ?_⟩ ?_ ?_ ?_ ?_
  · refine table.chains.congr ?_ ?_ (fun _ _ => rfl) ?_
    · intro q
      constructor
      · rintro ⟨⟨s, is, hashed⟩, tight'⟩
        obtain ⟨was, there, body, -⟩ := old q s is
        exact ⟨⟨⟨was, there, by rwa [← (body_fields body).2.1]⟩, tight'⟩, notP q s is⟩
      · rintro ⟨⟨⟨s, found, hashed⟩, tight'⟩, other⟩
        obtain ⟨now, is, body⟩ := new q s other found
        exact ⟨⟨now, is, by rwa [← (body_fields body).2.1]⟩, tight'⟩
    · intro q inside
      simp [Heap.nextOf, shapes q inside.2]
    · intro q inside
      simp only [Heap.bucketOf, shapes q inside.2]
      rfl
  · rintro q ⟨⟨s, is, -⟩, -⟩
    obtain ⟨was, there, -⟩ := old q s is
    exact (mem_erase_of_ne (notP q s is)).mpr (list ▸ ok.listed q was there)
  · rintro q ⟨⟨s, is, -⟩, -⟩
    exact ⟨s, is⟩
  · intro q s is
    obtain ⟨was, there, body, count⟩ := old q s is
    have fine := ok.fine there
    rw [count_cons_of_ne (Ne.symm (notP q s is)), ← refs] at fine
    exact ⟨(mem_erase_of_ne (notP q s is)).mpr (list ▸ ok.listed q was there), fine.of_body body count⟩
  · intro q member
    have other : q ≠ p := by
      rintro rfl
      exact absurd member (count_eq_zero.mp unheld)
    obtain ⟨was, there⟩ := ok.extras q (.tail _ member)
    obtain ⟨now, is, -⟩ := new q was other there
    exact ⟨now, is⟩
  · intro o obj there
    have there' : h.object o = some obj := (object_congr objects o).symm.trans there
    obtain ⟨was, found, size⟩ := ok.objects o obj there'
    have other : obj.shape ≠ p := by
      intro same
      have pos := refsIn_pos (object_lt there').2
      unfold Heap.refs at unreferenced
      rw [same] at pos
      omega
    obtain ⟨now, is, body⟩ := new _ was other found
    exact ⟨now, is, by rwa [← (body_fields body).1]⟩
  · intro q held
    have held' : h.arrayShape = some q := array ▸ held
    have other : q ≠ p := by
      rintro rfl
      unfold Heap.refs at unreferenced
      rw [if_pos held'] at unreferenced
      omega
    obtain ⟨was, found, hashed⟩ := ok.array q held'
    obtain ⟨now, is, body⟩ := new q was other found
    exact ⟨now, is, by rwa [← (body_fields body).2.1]⟩

theorem shrunk_dropShape (relinked : ∀ q, q ≠ p → h'.core q = h.core q) (array : h'.arrayShape = h.arrayShape)
    (objects : h'.objects = h.objects) : Shrunk h (h'.dropShape p) := by
  refine ⟨?_, array, objects⟩
  intro q s is
  rcases eq_or_ne q p with rfl | same
  · simp [Heap.dropShape] at is
  · simp only [Heap.dropShape, Function.update_of_ne same] at is
    obtain ⟨was, there, body, -⟩ := body_of_core (relinked q same) is
    exact ⟨was, there, body⟩

theorem core_setShape_of_ne (other : q ≠ p) : (h.setShape p sh').core q = h.core q := by
  simp [Heap.core, Heap.setShape, other]

theorem jsFreeShape_last (ok : Ok P h (p :: extra) loose) (found : h.shape p = some sh) (tight' : ¬loose p)
    (last : sh.refCount = 1) : ∃ h', jsFreeShape p h = some h' ∧ Ok P h' extra loose ∧ Shrunk h h' := by
  obtain ⟨count, -⟩ := ok.counts p sh found
  rw [count_cons_self, last] at count
  let h1 := h.setShape p { sh with refCount := sh.refCount - 1 }
  have found1 : h1.shape p = some { sh with refCount := sh.refCount - 1 } := by simp [h1, Heap.setShape]
  have table1 : Tabled h1 fun q => h.hashedAt q ∧ ¬loose q := ok.table.setShape fun _ => ⟨sh, found, rfl, rfl⟩
  have freed : jsFreeShape p h = jsFreeShape0 p h1 := by
    simp only [jsFreeShape, found, bind_eq_bind, bind_some]
    exact if_pos (by omega)
  have freed0 : jsFreeShape0 p h1 = (if sh.isHashed then jsShapeHashUnlink p h1 else some h1).map
      fun h2 => h2.dropShape p := by
    simp only [jsFreeShape0, found1, bind_eq_bind, bind_some]
    rw [if_pos (show sh.refCount - 1 = 0 by omega)]
    cases sh.isHashed <;> simp [map_eq_bind]
  rw [freed, freed0]
  cases hashed : sh.isHashed with
  | false =>
    have cores : ∀ q, q ≠ p → h1.core q = h.core q := fun q other => core_setShape_of_ne other
    refine ⟨h1.dropShape p, rfl, dropShape_ok ok ?_ cores rfl rfl rfl (by omega) (by omega),
      shrunk_dropShape cores rfl rfl⟩
    refine table1.congr fun q => ⟨And.left, fun inside => ⟨inside, ?_⟩⟩
    rintro rfl
    obtain ⟨⟨s, is, true'⟩, -⟩ := inside
    rw [found] at is
    cases is
    simp [hashed] at true'
  | true =>
    obtain ⟨h2, unlinked, table2, relinked⟩ := jsShapeHashUnlink_spec table1 ⟨⟨sh, found, hashed⟩, tight'⟩
    have cores : ∀ q, q ≠ p → h2.core q = h.core q := fun q other =>
      (relinked.core q).trans (core_setShape_of_ne other)
    refine ⟨h2.dropShape p, by simp [unlinked], dropShape_ok ok table2 cores relinked.gcObjList
      relinked.arrayShape relinked.objects (by omega) (by omega),
      shrunk_dropShape cores relinked.arrayShape relinked.objects⟩

theorem jsFreeShape_spec (ok : Ok P h (p :: extra) loose) (tight' : ¬loose p) :
    ∃ h', jsFreeShape p h = some h' ∧ Ok P h' extra loose ∧ Shrunk h h' := by
  obtain ⟨sh, found⟩ := ok.extras p mem_cons_self
  by_cases last : sh.refCount = 1
  · exact jsFreeShape_last ok found tight' last
  obtain ⟨count, positive⟩ := ok.counts p sh found
  rw [count_cons_self] at count
  have hashed : sh.isHashed = true := by
    by_contra unhashed
    exact last (ok.owned p sh found (by simpa using unhashed))
  refine ⟨h.setShape p { sh with refCount := sh.refCount - 1 }, ?_, ?_, shrunk_setCount found _⟩
  · simp only [jsFreeShape, found, bind_eq_bind, bind_some]
    exact if_neg (by omega)
  · refine ok.setShape found (fun _ => ⟨rfl, rfl⟩) .rfl (fun _ _ => .rfl) (ok.props p sh found)
      (ok.hashes p sh found) ?_ ?_ ?_ rfl (fun _ => hashed)
    · constructor
      · change sh.refCount - 1 = _
        omega
      · change 0 < sh.refCount - 1
        omega
    · intro q other
      rw [count_cons_of_ne other.symm]
    · intro unhashed
      simp [show sh.isHashed = false from unhashed] at hashed

end Count

end Shapes
