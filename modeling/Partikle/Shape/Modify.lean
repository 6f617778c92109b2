import Partikle.Shape.Update
import Partikle.Shape.Remove

/-!
`js_shape_prepare_update`, and the changes it makes possible: properties removed, flags
changed, the property table compacted or enlarged.
-/

namespace Shapes

open HashChain Option List

variable {V : Type} {P : Props → Prop} {h h' : Heap V} {extra extra' : List Ptr} {loose loose' : Ptr → Prop}
  {p q : Ptr} {sh sh' : Shape} {x : Holder} {o : Nat} {obj new : Object V}

section Exclusive

theorem Ok.frame_setShape (ok : Ok P h extra loose) (found : h.shape p = some sh) (single : sh.refCount = 1)
    (held : h.held x = some p) : Frame x h (h.setShape p sh') := by
  refine ⟨fun _ _ => rfl, fun _ => rfl, fun _ => rfl, ?_⟩
  intro y r other holds
  have different : r ≠ p := by
    rintro rfl
    exact ok.exclusive found single held other holds
  simp [Heap.setShape, different]

theorem Ok.change (ok : Good P h) (site : At h o obj sh) (unhashed : sh.isHashed = false) (props : P sh'.toProps)
    (still : sh'.isHashed = false) (single : sh'.refCount = sh.refCount) (size : sh'.propSize = sh.propSize) :
    Good P (h.setShape obj.shape sh') ∧ Frame (.object o) h (h.setShape obj.shape sh') ∧
      At (h.setShape obj.shape sh') o obj sh' := by
  have one := ok.owned _ _ site.shape unhashed
  refine ⟨?_, ok.frame_setShape site.shape one site.held, site.object, by simp [Heap.setShape]⟩
  refine ok.setShape site.shape ?_ ?_ (fun _ _ => .rfl) props ?_ ?_ (fun _ _ => rfl)
    (fun _ => single.trans one) size ?_
  · rintro ⟨hashed, -⟩
    simp [unhashed] at hashed
  · simp [unhashed, still]
  · intro hashed
    simp [still] at hashed
  · rw [single]
    exact ok.counts _ _ site.shape
  · intro held
    obtain ⟨s, found, hashed⟩ := ok.array _ held
    rw [site.shape] at found
    cases found
    simp [unhashed] at hashed

end Exclusive

section Prepare

/-- What `js_shape_prepare_update` and a failed operation leave of an object. -/
structure Kept (h' : Heap V) (o : Nat) (obj : Object V) (sh : Shape) (obj' : Object V) (sh' : Shape) : Prop where
  site : At h' o obj' sh'
  prop : obj'.prop = obj.prop
  propAlloc : obj'.propAlloc = obj.propAlloc
  face : sh'.face = sh.face

theorem At.kept (site : At h o obj sh) : Kept h o obj sh obj sh := ⟨site, rfl, rfl, rfl⟩

theorem Kept.toProps {obj' : Object V} (kept : Kept h' o obj sh obj' sh') : sh'.toProps = sh.toProps :=
  congrArg Prod.fst kept.face

theorem Kept.proto {obj' : Object V} (kept : Kept h' o obj sh obj' sh') : sh'.proto = sh.proto :=
  congrArg Prod.snd kept.face

theorem unlink_ok (ok : Good P h) (found : h.shape p = some sh) (hashed : sh.isHashed = true) :
    ∃ h1 sh1, jsShapeHashUnlink p h = some h1 ∧ h1.shape p = some sh1 ∧ sh1.core = sh.core ∧
      Ok P h1 [] (· = p) ∧ Relinked h h1 := by
  obtain ⟨h1, unlinked, table, relinked⟩ := jsShapeHashUnlink_spec ok.table ⟨⟨sh, found, hashed⟩, id⟩
  obtain ⟨sh1, found1, core⟩ := shape_of_core (relinked.core p).symm found
  refine ⟨h1, sh1, unlinked, found1, core.symm, ok.relinked relinked (table.congr fun q => ?_), relinked⟩
  simp [tight]

theorem jsShapePrepareUpdate_spec (ok : Good P h) (site : At h o obj sh) (mem : Memory) :
    ∃ done h' obj' sh', jsShapePrepareUpdate o mem h = some (done, h') ∧ Good P h' ∧
      Frame (.object o) h h' ∧ Kept h' o obj sh obj' sh' ∧ (done = true → sh'.isHashed = false) := by
  simp only [jsShapePrepareUpdate, site.object, site.shape, bind_eq_bind, bind_some]
  cases hashed : sh.isHashed with
  | false => exact ⟨true, h, obj, sh, by simp, ok, .refl _ _, site.kept, fun _ => hashed⟩
  | true =>
    rw [if_pos rfl]
    by_cases single : sh.refCount = 1
    · rw [if_neg (by simp [single])]
      obtain ⟨h1, sh1, unlinked, found1, core, ok1, relinked⟩ := unlink_ok ok site.shape hashed
      obtain ⟨body, count⟩ := core_body core
      have site1 : At h1 o obj sh1 := ⟨(object_congr relinked.objects o).trans site.object, found1⟩
      have single1 : sh1.refCount = 1 := count.trans single
      have props1 := ok1.props _ _ found1
      have counts1 := ok1.counts _ _ found1
      have face1 := body_face body
      refine ⟨true, h1.setShape obj.shape { sh1 with isHashed := false }, obj,
        { sh1 with isHashed := false }, ?_, ?_, ?_, ?_, fun _ => rfl⟩
      · simp [unlinked, found1]
      · refine ok1.setShape found1 ?_ ?_ ?_ props1 (fun hashed => by cases hashed) counts1
          (fun _ _ => rfl) (fun _ => single1) rfl ?_
        · rintro ⟨-, out⟩
          exact absurd rfl out
        · simp
        · intro q other
          simp [tight, other]
        · intro held
          exact absurd held (ok1.exclusive found1 single1 site1.held (y := .context) (by simp))
      · exact (relinked.frame _).trans (ok1.frame_setShape found1 single1 site1.held)
      · exact ⟨⟨site1.object, by simp [Heap.setShape]⟩, rfl, rfl, face1⟩
    · rw [if_pos single, jsCloneShape_eq site.shape]
      cases answer : h.fresh mem.clone with
      | none => exact ⟨false, h, obj, sh, rfl, ok, .refl _ _, site.kept, fun done => by cases done⟩
      | some q =>
        obtain ⟨-, fresh⟩ := fresh_eq_some.mp answer
        have size := ok.propSize_le site
        have cloned : Ok P (h.addShape q (cloneOf sh)) [q] tight := ok.clone site.shape fresh
        obtain ⟨h', freed, ok', frame, -, sh', site', body⟩ :=
          @swapShape_spec V P _ [] tight (cloneOf sh) o obj { obj with shape := q } cloned site.object
            addShape_self size id
        have face : sh'.face = (cloneOf sh).face := body_face body
        refine ⟨true, h', { obj with shape := q }, sh', ?_, ok', (ok.frame_addShape fresh).trans frame,
          ⟨site', rfl, rfl, face⟩, fun _ => (body_fields body).2.1⟩
        simp [freed]

end Prepare

section Change

theorem changeProps_spec {change : Props → Option Props} {props : Props} (ok : Good P h) (site : At h o obj sh)
    (unhashed : sh.isHashed = false) (changed : change sh.toProps = some props) (holds : P props)
    (size : props.propSize = sh.propSize) :
    ∃ h', changeProps o change h = some h' ∧ Good P h' ∧ Frame (.object o) h h' ∧
      At h' o obj { sh with toProps := props } := by
  refine ⟨h.setShape obj.shape { sh with toProps := props }, ?_, ?_⟩
  · simp [changeProps, site.object, site.shape, changed]
  · exact ok.change site unhashed holds unhashed rfl size

theorem writeProp_spec {i : Nat} (value : V) (ok : Good P h) (site : At h o obj sh) (inside : i < obj.propAlloc) :
    ∃ h', writeProp o i value h = some h' ∧ Good P h' ∧ Frame (.object o) h h' ∧
      At h' o { obj with prop := Function.update obj.prop i value } sh := by
  have size := ok.propSize_le site
  refine ⟨h.setObject o { obj with prop := Function.update obj.prop i value }, ?_, ?_, frame_setObject _,
    object_setObject_self site.object, site.shape⟩
  · simp [writeProp, site.object, inside]
  · exact ok.setObject site.object ⟨sh, site.shape, size⟩ fun _ => rfl

end Change

section Move

theorem Ok.reloose (ok : Ok P h extra loose) (same : ∀ r, h.hashedAt r → (loose' r ↔ loose r)) :
    Ok P h extra loose' := by
  refine { ok with table := ok.table.congr fun r => ?_ }
  constructor
  · rintro ⟨hashed, out⟩
    exact ⟨hashed, fun inside => out ((same r hashed).mpr inside)⟩
  · rintro ⟨hashed, out⟩
    exact ⟨hashed, fun inside => out ((same r hashed).mp inside)⟩

theorem moveShape_eq (different : p ≠ q) (listed : p ∈ h.gcObjList) :
    (h.moveShape p q sh').setObject o new = ((h.addShape q sh').setObject o new).dropShape p := by
  unfold Heap.moveShape Heap.dropShape Heap.addShape Heap.setObject Heap.setShape
  simp only [Heap.mk.injEq, and_true]
  exact ⟨Function.update_comm different _ _ _, (erase_append_left _ listed).symm⟩

theorem Ok.move (ok : Ok P h [] loose) (site : At h o obj sh) (single : sh.refCount = 1) (fresh : h.shape q = none)
    (out : sh.isHashed = true → loose obj.shape) (single' : sh'.refCount = 1) (out' : sh'.isHashed = true → loose' q)
    (looseSame : ∀ r, r ≠ obj.shape → r ≠ q → (loose' r ↔ loose r)) (props : P sh'.toProps)
    (hashes : sh'.isHashed = true → sh'.hash = hashOf sh'.proto sh'.entries) (points : new.shape = q)
    (fits : sh'.propSize ≤ new.propAlloc) : Ok P ((h.moveShape obj.shape q sh').setObject o new) [] loose' := by
  subst points
  have notNew : obj.shape ≠ new.shape := by
    intro same
    simp [← same, site.shape] at fresh
  -- the new shape comes first, with a reference of its own
  let middle (r : Ptr) : Prop := loose r ∨ r = new.shape
  have added : Ok P (h.addShape new.shape sh') [new.shape] middle := by
    refine ok.addShape fresh single' (fun _ => .inr rfl) ?_ props hashes
    intro r other
    simp [middle, other]
  have moved : Ok P ((h.addShape new.shape sh').setObject o new) [obj.shape] middle := by
    refine added.setObject site.object ⟨sh', addShape_self, fits⟩ ?_
    simp only [count_cons, count_nil, beq_iff_eq]
    omega
  have found : ((h.addShape new.shape sh').setObject o new).shape obj.shape = some sh :=
    (addShape_of_ne notNew).trans site.shape
  have count := (moved.counts _ _ found).1
  rw [count_cons_self, count_nil, single] at count
  have dropped : Ok P (((h.addShape new.shape sh').setObject o new).dropShape obj.shape) [] middle := by
    refine dropShape_ok moved (moved.table.congr fun r => ⟨And.left, fun inside => ⟨inside, ?_⟩⟩)
      (fun _ _ => rfl) rfl rfl rfl (by omega) rfl
    rintro rfl
    obtain ⟨⟨s, is, hashed⟩, tight'⟩ := inside
    rw [found] at is
    cases is
    exact tight' (.inl (out hashed))
  rw [moveShape_eq notNew (ok.listed _ _ site.shape)]
  refine dropped.reloose fun r hashed => ?_
  obtain ⟨s, is, hashed⟩ := hashed
  have notOld : r ≠ obj.shape := by
    rintro rfl
    simp [Heap.dropShape] at is
  rcases eq_or_ne r new.shape with rfl | isNew
  · have same : s = sh' := by simpa [Heap.dropShape, notOld, Heap.setObject, addShape_self] using is.symm
    exact iff_of_true (out' (same ▸ hashed)) (.inr rfl)
  · rw [looseSame r notOld isNew]
    simp [middle, isNew]

theorem Ok.frame_move (ok : Ok P h [] loose) (site : At h o obj sh) (single : sh.refCount = 1)
    (fresh : h.shape q = none) : Frame (.object o) h ((h.moveShape obj.shape q sh').setObject o new) := by
  have shapes : Frame (.object o) h (h.moveShape obj.shape q sh') := by
    refine ⟨fun _ _ => rfl, fun _ => rfl, fun _ => rfl, ?_⟩
    intro y r other holds
    have notOld : r ≠ obj.shape := by
      rintro rfl
      exact ok.exclusive site.shape single site.held other holds
    have notNew : r ≠ q := by
      rintro rfl
      obtain ⟨s, found⟩ := ok.held_present holds
      simp [fresh] at found
    simp [Heap.moveShape, Heap.dropShape, notOld, notNew]
  exact shapes.trans (frame_setObject new)

theorem at_move (there : h.object o = some obj) (points : new.shape = q) :
    At ((h.moveShape p q sh').setObject o new) o new sh' := by
  subst points
  have kept : (h.moveShape p new.shape sh').object o = some obj := there
  exact ⟨object_setObject_self kept, by simp [Heap.moveShape, Heap.setObject]⟩

end Move

section Compact

theorem compactProperties_spec (ok : Good P h) (site : At h o obj sh) (unhashed : sh.isHashed = false)
    (linked : Linked sh.toProps) (smaller : compactSize sh.toProps ≤ sh.propSize) (holds : P (compacted sh.toProps))
    (mem : Memory) :
    ∃ h' obj' sh', compactProperties o mem h = some h' ∧ Good P h' ∧ Frame (.object o) h h' ∧ At h' o obj' sh' ∧
      sh'.proto = sh.proto ∧ (obj' = obj ∧ sh' = sh ∨ sh'.toProps = compacted sh.toProps ∧
      obj'.prop = moveValues sh.prop 0 0 obj.prop) := by
  simp only [compactProperties, site.object, site.shape, bind_eq_bind, bind_some]
  rw [if_pos ⟨unhashed, smaller⟩]
  cases answer : h.fresh mem.compact with
  | none => exact ⟨h, obj, sh, rfl, ok, .refl _ _, site, rfl, .inl ⟨rfl, rfl⟩⟩
  | some q =>
    obtain ⟨-, fresh⟩ := fresh_eq_some.mp answer
    have single := ok.owned _ _ site.shape unhashed
    have size := ok.propSize_le site
    let propAlloc := if mem.shrink = true then compactSize sh.toProps else obj.propAlloc
    have fits : compactSize sh.toProps ≤ propAlloc := by
      simp only [propAlloc]
      split <;> omega
    let obj' : Object V := ⟨q, moveValues sh.prop 0 0 obj.prop, propAlloc⟩
    let sh' : Shape := { sh with toProps := compacted sh.toProps }
    have out : ∀ {holds : Prop}, sh.isHashed = true → holds := by
      intro holds hashed
      simp [unhashed] at hashed
    have ok' : Good P ((h.moveShape obj.shape q sh').setObject o obj') :=
      ok.move site single fresh out single out (fun _ _ _ => .rfl) holds out rfl fits
    refine ⟨(h.moveShape obj.shape q sh').setObject o obj', obj', sh', ?_, ok',
      ok.frame_move site single fresh, at_move site.object rfl, rfl, .inr ⟨rfl, rfl⟩⟩
    simp only [compactedProps_eq linked, bind_some]
    rfl

end Compact

section Resize

/-- While a property is added, the shape that gets it is out of the table. -/
def looseIf (hashed : Bool) (p q : Ptr) : Prop := hashed = true ∧ q = p

theorem resizeProperties_spec {count : Nat} (ok : Ok P h [] (looseIf sh.isHashed obj.shape))
    (site : At h o obj sh) (single : sh.refCount = 1) (linked : Linked sh.toProps)
    (grows : sh.propSize ≤ count) (holds : P (resizedProps count sh.toProps)) (mem : Memory) :
    ∃ done h' obj' sh', resizeProperties (.object o) obj.shape count mem h = some (done, h') ∧
      Ok P h' [] (looseIf sh.isHashed obj'.shape) ∧ Frame (.object o) h h' ∧ At h' o obj' sh' ∧ obj'.prop = obj.prop ∧
      (done = true → sh' = { sh with toProps := resizedProps count sh.toProps }) ∧
      (done = false → sh' = sh ∧ obj'.shape = obj.shape ∧
      ¬(mem.prop = true ∧ ∃ q, mem.shape = some q ∧ h.shape q = none)) := by
  cases allocated : mem.prop with
  | false =>
    refine ⟨false, h, obj, sh, ?_, ok, .refl _ _, site, rfl, (fun done => by cases done),
      fun _ => ⟨rfl, rfl, fun ample => by cases ample.1⟩⟩
    simp [resizeProperties, reallocProp, site.shape, allocated]
  | true =>
    let obj1 : Object V := { obj with propAlloc := newPropSize count sh.propSize }
    have larger : sh.propSize ≤ obj1.propAlloc := Nat.le_trans grows (le_newPropSize _ _)
    have ok1 : Ok P (h.setObject o obj1) [] (looseIf sh.isHashed obj1.shape) :=
      ok.setObject site.object ⟨sh, site.shape, larger⟩ fun _ => rfl
    have site1 : At (h.setObject o obj1) o obj1 sh := ⟨object_setObject_self site.object, site.shape⟩
    have frame1 : Frame (.object o) h (h.setObject o obj1) := frame_setObject obj1
    have realloc : reallocProp (.object o) (newPropSize count sh.propSize) mem.prop h =
        some (true, h.setObject o obj1) := by
      simp [reallocProp, allocated, site.object, obj1]
    cases answer : (h.setObject o obj1).fresh mem.shape with
    | none =>
      refine ⟨false, h.setObject o obj1, obj1, sh, ?_, ok1, frame1, site1, rfl,
        (fun done => by cases done), fun _ => ⟨rfl, rfl, ?_⟩⟩
      · simp [resizeProperties, site.shape, realloc, answer]
      · rintro ⟨-, q, given, fresh⟩
        have fresh1 : (h.setObject o obj1).shape q = none := fresh
        simp [fresh_eq_some.mpr ⟨given, fresh1⟩] at answer
    | some q =>
      obtain ⟨-, fresh⟩ := fresh_eq_some.mp answer
      let sh' : Shape := { sh with toProps := resizedProps count sh.toProps }
      let obj' : Object V := { obj1 with shape := q }
      let moved := (h.setObject o obj1).moveShape obj1.shape q sh'
      have fits : sh'.propSize ≤ obj'.propAlloc := Nat.le_of_eq (resizedProps_size count sh.toProps)
      have entries : sh'.entries = sh.entries := resizedProps_entries count linked
      have ok' : Ok P (moved.setObject o obj') [] (looseIf sh.isHashed q) := by
        refine ok1.move site1 single fresh (fun hashed => ⟨hashed, rfl⟩) single
          (fun hashed => ⟨hashed, rfl⟩) ?_ holds ?_ rfl fits
        · intro r notOld notNew
          simp [looseIf, notOld, notNew]
        · intro hashed
          rw [entries]
          exact ok.hashes _ _ site.shape hashed
      refine ⟨true, moved.setObject o obj', obj', sh', ?_, ok',
        frame1.trans (ok1.frame_move site1 single fresh), at_move site1.object rfl, rfl,
        fun _ => rfl, fun done => by cases done⟩
      have there : moved.object o = some obj1 := site1.object
      have held : moved.setHeld (.object o) q = some (moved.setObject o obj') := by
        simp [Heap.setHeld, there, obj']
      simp only [resizeProperties, site.shape, realloc, answer, bind_eq_bind, bind_some, if_true]
      exact congrArg (Option.bind · _) held

end Resize

end Shapes
