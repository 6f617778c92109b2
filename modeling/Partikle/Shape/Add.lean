import Partikle.Shape.Modify

/-!
`add_property`: the object takes a shape of the table that already has the new property,
or its own shape gets the property, cloned before if it is shared.
-/

namespace Shapes

open HashChain Option

variable {V : Type} {P : Props → Prop} {fits sizes : Nat → Prop} {h h' : Heap V} {extra : List Ptr} {p q : Ptr}
  {sh sh' : Shape} {x : Holder} {o : Nat} {obj new : Object V} {atom : BitVec 32} {flags : BitVec 6}

/-- What is known about the property tables survives every change of one. The number of
properties and the size of a table may be limited. -/
structure Closed (P : Props → Prop) (fits sizes : Nat → Prop) : Prop where
  one : fits 1
  sized : ∀ {count}, fits count → sizes count
  linked : ∀ {props}, P props → Linked props
  empty : ∀ {propSize}, propSize ≤ 2 → P (emptyProps JS_PROP_INITIAL_HASH_SIZE propSize)
  resized : ∀ {props count}, P props → props.prop.length ≤ count → props.propSize ≤ count → sizes count →
    P (resizedProps count props)
  appended : ∀ {props old atom flags}, P old → findOwnProperty old atom = some none → P props →
    props.entries = old.entries → atom ≠ JS_ATOM_NULL → props.prop.length < props.propSize →
    fits (props.prop.length + 1) → P (appended atom flags props)
  removed : ∀ {props atom i lpr pr}, P props → atom ≠ JS_ATOM_NULL →
    deleteLoop props.prop atom (props.prop.length + 1) none (props.propHash (props.bucket atom)) =
      some (some (i, lpr)) →
    props.prop[i]? = some pr → P (removed i lpr (props.bucket atom) pr props)
  flagged : ∀ {props props' i flags}, P props → setFlags i flags props = some props' → P props'
  compacted : ∀ {props}, P props → compactSize props ≤ props.propSize → P (compacted props)

section Attach

theorem detach_spec (ok : Good P h) (found : h.shape p = some sh) :
    ∃ h1 sh1, (if sh.isHashed then jsShapeHashUnlink p h else some h) = some h1 ∧ h1.shape p = some sh1 ∧
      sh1.core = sh.core ∧ Ok P h1 [] (looseIf sh.isHashed p) ∧ Relinked h h1 := by
  cases hashed : sh.isHashed with
  | false =>
    refine ⟨h, sh, by simp, found, rfl, ok.reloose fun r _ => ?_, .refl h⟩
    simp [looseIf, tight]
  | true =>
    obtain ⟨h1, sh1, unlinked, found1, core, ok1, relinked⟩ := unlink_ok ok found hashed
    refine ⟨h1, sh1, by simp [unlinked], found1, core, ok1.reloose fun r _ => ?_, relinked⟩
    simp [looseIf]

theorem attach_spec (ok : Ok P h extra (looseIf sh.isHashed p)) (found : h.shape p = some sh) :
    ∃ h', (if sh.isHashed then jsShapeHashLink p h else some h) = some h' ∧ Ok P h' extra tight ∧ Relinked h h' := by
  cases hashed : sh.isHashed with
  | false =>
    refine ⟨h, by simp, ok.reloose fun r _ => ?_, .refl h⟩
    simp [looseIf, tight, hashed]
  | true =>
    have out : ¬(h.hashedAt p ∧ ¬looseIf sh.isHashed p p) := fun inside => inside.2 ⟨hashed, rfl⟩
    obtain ⟨h', linked, table, relinked⟩ := jsShapeHashLink_spec ok.table found out (ok.listed p sh found)
    refine ⟨h', by simp [linked], ok.relinked relinked (table.congr fun r => ?_), relinked⟩
    constructor
    · rintro ⟨inside, -⟩
      by_cases same : r = p
      · exact .inr same
      · exact .inl ⟨inside, fun loose => same loose.2⟩
    · rintro (⟨inside, -⟩ | rfl)
      · exact ⟨inside, id⟩
      · exact ⟨⟨sh, found, hashed⟩, id⟩

end Attach

section Finish

def hashWith (sh : Shape) (atom : BitVec 32) (flags : BitVec 6) : BitVec 32 :=
  shapeHash (shapeHash sh.hash atom) (flags.setWidth 32)

def withProperty (sh : Shape) (atom : BitVec 32) (flags : BitVec 6) : Shape :=
  { sh with
    toProps := appended atom flags sh.toProps
    hash := if sh.isHashed then hashWith sh atom flags else sh.hash }

theorem finishAdd_eq (held : h.held x = some p) (found : h.shape p = some sh) (room : sh.prop.length < sh.propSize) :
    finishAdd x atom flags (hashWith sh atom flags) h =
      (if sh.isHashed then jsShapeHashLink p (h.setShape p (withProperty sh atom flags))
      else some (h.setShape p (withProperty sh atom flags))).map (Prod.mk true) := by
  cases hashed : sh.isHashed with
  | false => simp [finishAdd, held, found, hashed, appendProp_eq room, withProperty]
  | true =>
    simp [finishAdd, held, found, hashed, jsShapeHashLink, Heap.setShape, appendProp_eq room, withProperty]

theorem finishAdd_spec (ok : Ok P h [] (looseIf sh.isHashed p)) (held : h.held x = some p) (found : h.shape p = some sh)
    (single : sh.refCount = 1) (room : sh.prop.length < sh.propSize) (holds : P (appended atom flags sh.toProps)) :
    ∃ h' sh', finishAdd x atom flags (hashWith sh atom flags) h = some (true, h') ∧ Good P h' ∧ Frame x h h' ∧
      h'.objects = h.objects ∧ h'.arrayShape = h.arrayShape ∧ h'.shape p = some sh' ∧
      sh'.toProps = appended atom flags sh.toProps ∧ sh'.proto = sh.proto := by
  let sh2 := withProperty sh atom flags
  have found2 : (h.setShape p sh2).shape p = some sh2 := by simp [Heap.setShape]
  have frame2 : Frame x h (h.setShape p sh2) := ok.frame_setShape found single held
  have out : ¬(sh.isHashed = true ∧ ¬looseIf sh.isHashed p p) := fun inside => inside.2 ⟨inside.1, rfl⟩
  have ok2 : Ok P (h.setShape p sh2) [] (looseIf sh2.isHashed p) := by
    refine ok.setShape found (fun inside => absurd inside out) Iff.rfl (fun _ _ => Iff.rfl) holds ?_
      (ok.counts p sh found) (fun _ _ => rfl) (ok.owned p sh found) rfl ?_
    · intro hashed
      have hashed' : sh.isHashed = true := hashed
      have before := ok.hashes p sh found hashed'
      have entries : sh2.entries = sh.entries ++ [(atom, flags)] := appended_entries
      have hash : sh2.hash = hashWith sh atom flags := if_pos hashed'
      rw [entries, hash, hashWith, before, hashOf, hashOf, List.foldl_concat]
      rfl
    · intro array
      obtain ⟨s, is, hashed⟩ := ok.array p array
      rw [found] at is
      cases is
      exact hashed
  obtain ⟨h', attached, ok', relinked⟩ := attach_spec ok2 found2
  obtain ⟨sh', found', core⟩ := shape_of_core (relinked.core p).symm found2
  have fields := body_fields (core_body core).1
  refine ⟨h', sh', ?_, ok', frame2.trans (relinked.frame x), relinked.objects, relinked.arrayShape, found',
    fields.1.symm, fields.2.2.2.symm⟩
  rw [finishAdd_eq held found room, show (if sh.isHashed then jsShapeHashLink p (h.setShape p sh2)
    else some (h.setShape p sh2)) = some h' from attached]
  rfl

end Finish

section Add

def InPlace (old : Props) (atom : BitVec 32) (flags : BitVec 6) (props : Props) : Prop :=
  ∃ base, (base = old ∨ old.propSize ≤ old.prop.length ∧ base = resizedProps (old.prop.length + 1) old) ∧
    base.prop.length < base.propSize ∧ props = appended atom flags base

def Grown (h : Heap V) (old : Props) (atom : BitVec 32) (flags : BitVec 6) (props : Props) : Prop :=
  InPlace old atom flags props ∨
    ∃ q sh, h.shape q = some sh ∧ sh.entries = old.entries ++ [(atom, flags)] ∧ props = sh.toProps

theorem Grown.entries {old props : Props} (linked : Linked old) (grown : Grown h old atom flags props) :
    props.entries = old.entries ++ [(atom, flags)] := by
  rcases grown with ⟨base, rfl | ⟨-, rfl⟩, -, rfl⟩ | ⟨q, sh, -, same, rfl⟩
  · exact appended_entries
  · rw [appended_entries, resizedProps_entries _ linked]
  · exact same

structure Ample (mem : Memory) (h : Heap V) : Prop where
  object : mem.object = true
  prop : mem.prop = true
  shapes : ∃ p q, mem.clone = some p ∧ mem.shape = some q ∧ p ≠ q ∧ h.shape p = none ∧ h.shape q = none

structure Tried (h' : Heap V) (o : Nat) (obj : Object V) (sh : Shape) (obj' : Object V) (sh' : Shape)
    (added : Prop) (grown : Props → Prop) (excuse : Prop) : Prop where
  site : At h' o obj' sh'
  prop : obj'.prop = obj.prop
  proto : sh'.proto = sh.proto
  success : added → grown sh'.toProps
  failure : ¬added → sh'.toProps = sh.toProps ∧ excuse

theorem appended_old (closed : Closed P fits sizes) (holds : P sh.toProps)
    (absent : findOwnProperty sh.toProps atom = some none) (live : atom ≠ JS_ATOM_NULL)
    (small : fits (sh.prop.length + 1)) (room : sh.prop.length < sh.propSize) : P (appended atom flags sh.toProps) :=
  closed.appended holds absent holds rfl live room small

theorem addShapeProperty_full (held : h.held x = some p) (found : h.shape p = some sh)
    (full : sh.prop.length ≥ sh.propSize) {h1 h2 : Heap V} {done : Bool} {mem : Memory}
    (detached : (if sh.isHashed then jsShapeHashUnlink p h else some h) = some h1)
    (resized : resizeProperties x p (sh.prop.length + 1) mem h1 = some (done, h2)) :
    addShapeProperty x atom flags mem h = if done then finishAdd x atom flags (hashWith sh atom flags) h2
      else (if sh.isHashed then jsShapeHashLink p h2 else some h2).map (Prod.mk false) := by
  cases hashed : sh.isHashed <;> cases done <;>
    simp_all [addShapeProperty, hashWith, map_eq_bind]

theorem addShapeProperty_room (held : h.held x = some p) (found : h.shape p = some sh)
    (room : sh.prop.length < sh.propSize) {h1 : Heap V} {mem : Memory}
    (detached : (if sh.isHashed then jsShapeHashUnlink p h else some h) = some h1) :
    addShapeProperty x atom flags mem h = finishAdd x atom flags (hashWith sh atom flags) h1 := by
  cases hashed : sh.isHashed <;> simp_all [addShapeProperty, hashWith]

theorem addShapeProperty_spec (closed : Closed P fits sizes) (ok : Good P h) (site : At h o obj sh)
    (single : sh.refCount = 1) (absent : findOwnProperty sh.toProps atom = some none) (live : atom ≠ JS_ATOM_NULL)
    (small : fits (sh.prop.length + 1)) (mem : Memory) :
    ∃ done h' obj' sh', addShapeProperty (.object o) atom flags mem h = some (done, h') ∧ Good P h' ∧
      Frame (.object o) h h' ∧ Tried h' o obj sh obj' sh' (done = true) (InPlace sh.toProps atom flags)
      (¬(mem.prop = true ∧ ∃ q, mem.shape = some q ∧ h.shape q = none)) := by
  have holds := ok.props _ _ site.shape
  obtain ⟨h1, sh1, detached, found1, core, ok1, relinked⟩ := detach_spec ok site.shape
  obtain ⟨body, count⟩ := core_body core
  obtain ⟨props, hashed, hash, proto⟩ := body_fields body
  have site1 : At h1 o obj sh1 := ⟨(object_congr relinked.objects o).trans site.object, found1⟩
  have frame1 : Frame (.object o) h h1 := relinked.frame _
  have single1 : sh1.refCount = 1 := count.trans single
  have sameHash : hashWith sh1 atom flags = hashWith sh atom flags := by rw [hashWith, hash, hashWith]
  rw [← hashed] at ok1
  rw [← props] at holds absent small ⊢
  have linked := closed.linked holds
  by_cases full : sh1.prop.length ≥ sh1.propSize
  · have larger : sh1.propSize ≤ sh1.prop.length + 1 := by omega
    have resized := closed.resized holds (Nat.le_succ _) larger (closed.sized small)
    obtain ⟨done, h2, obj2, sh2, resize, ok2, frame2, site2, values, grown, failed⟩ :=
      resizeProperties_spec ok1 site1 single1 linked larger resized mem
    have fresh1 : ∀ {r}, h1.shape r = none ↔ h.shape r = none := by
      intro r
      have same := relinked.core r
      rw [Heap.core, Heap.core] at same
      rw [← map_eq_none_iff, same, map_eq_none_iff]
    cases done with
    | true =>
      obtain rfl := grown rfl
      have ok2' : Ok P h2 [] (looseIf (Shape.isHashed
          { sh1 with toProps := resizedProps (sh1.prop.length + 1) sh1.toProps }) obj2.shape) := ok2
      have length : (resizedProps (sh1.prop.length + 1) sh1.toProps).prop.length = sh1.prop.length := by
        rw [← entries_length, resizedProps_entries _ linked, entries_length]
      have room : (resizedProps (sh1.prop.length + 1) sh1.toProps).prop.length <
          (resizedProps (sh1.prop.length + 1) sh1.toProps).propSize := by
        rw [length, resizedProps_size]
        exact le_newPropSize _ _
      have fitting := @Closed.appended P fits sizes closed _ _ atom flags holds absent resized
        (resizedProps_entries _ linked) live room (by rwa [length])
      obtain ⟨h', sh', finished, ok', frame', objects, -, found', toProps, proto'⟩ :=
        finishAdd_spec ok2' site2.held site2.shape single1 room fitting
      refine ⟨true, h', obj2, sh', ?_, ok', frame1.trans (frame2.trans frame'),
        ⟨⟨(object_congr objects o).trans site2.object, found'⟩, values, proto'.trans proto, ?_, ?_⟩⟩
      · rw [addShapeProperty_full site.held site.shape (props ▸ full) detached (props ▸ resize), if_pos rfl,
          ← sameHash]
        exact finished
      · intro _
        exact ⟨_, .inr ⟨full, rfl⟩, room, toProps⟩
      · intro no
        exact absurd rfl no
    | false =>
      obtain ⟨rfl, points, excuse⟩ := failed rfl
      rw [points] at ok2
      obtain ⟨h', attached, ok', relinked'⟩ := attach_spec ok2 (points ▸ site2.shape)
      obtain ⟨sh', found', core'⟩ := shape_of_core (relinked'.core _).symm site2.shape
      obtain ⟨props', -, -, proto'⟩ := body_fields (core_body core').1
      refine ⟨false, h', obj2, sh', ?_, ok', frame1.trans (frame2.trans (relinked'.frame _)),
        ⟨⟨(object_congr relinked'.objects o).trans site2.object, found'⟩, values, proto'.symm.trans proto, ?_, ?_⟩⟩
      · rw [addShapeProperty_full site.held site.shape (props ▸ full) detached (props ▸ resize),
          if_neg (by simp), ← hashed, attached]
        rfl
      · intro yes
        cases yes
      · intro _
        refine ⟨props'.symm.trans props, ?_⟩
        rintro ⟨allocated, r, given, fresh⟩
        exact excuse ⟨allocated, r, given, fresh1.mpr fresh⟩
  · have room : sh1.prop.length < sh1.propSize := by omega
    have fitting : P (appended atom flags sh1.toProps) := appended_old closed holds absent live small room
    obtain ⟨h', sh', finished, ok', frame', objects, -, found', toProps, proto'⟩ :=
      finishAdd_spec ok1 site1.held found1 single1 room fitting
    refine ⟨true, h', obj, sh', ?_, ok', frame1.trans frame',
      ⟨⟨(object_congr objects o).trans site1.object, found'⟩, rfl, proto'.trans proto, ?_, ?_⟩⟩
    · rwa [addShapeProperty_room site.held site.shape (props ▸ room) detached, ← sameHash]
    · intro _
      exact ⟨_, .inl rfl, room, toProps⟩
    · intro no
      exact absurd rfl no

abbrev AddsTo (P : Props → Prop) (h : Heap V) (o : Nat) (obj : Object V) (sh : Shape)
    (call : Option (Option Nat × Heap V)) (grown : Props → Prop) (excuse : Prop) : Prop :=
  ∃ r h' obj' sh', call = some (r, h') ∧ Good P h' ∧ Frame (.object o) h h' ∧ (∀ i, r = some i → i = sh.prop.length) ∧
    Tried h' o obj sh obj' sh' (r ≠ none) grown excuse

theorem addInPlace_spec (closed : Closed P fits sizes) (ok : Good P h) (site : At h o obj sh)
    (single : sh.refCount = 1) (absent : findOwnProperty sh.toProps atom = some none) (live : atom ≠ JS_ATOM_NULL)
    (small : fits (sh.prop.length + 1)) (mem : Memory) :
    AddsTo P h o obj sh (addInPlace o atom flags mem h) (InPlace sh.toProps atom flags)
      (¬(mem.prop = true ∧ ∃ q, mem.shape = some q ∧ h.shape q = none)) := by
  obtain ⟨done, h', obj', sh', added, ok', frame, tried⟩ :=
    @addShapeProperty_spec V P fits sizes h sh o obj atom flags closed ok site single absent live small mem
  refine ⟨if done then some sh.prop.length else none, h', obj', sh', ?_, ok', frame, ?_,
    ⟨tried.site, tried.prop, tried.proto, ?_, ?_⟩⟩
  · simp [addInPlace, site.object, site.shape, single, added]
  · intro i is
    cases done <;> simp_all
  · intro some'
    exact tried.success (by cases done <;> simp_all)
  · intro none'
    exact tried.failure (by cases done <;> simp_all)

theorem useShape_spec {newSh : Shape} (ok : Good P h) (site : At h o obj sh) (found : h.shape q = some newSh)
    (hashed : newSh.isHashed = true) (proto : newSh.proto = sh.proto)
    (entries : newSh.entries = sh.entries ++ [(atom, flags)]) (mem : Memory) :
    AddsTo P h o obj sh (useShape o obj sh newSh q mem h) (Grown h sh.toProps atom flags) (mem.prop = false) := by
  unfold useShape
  by_cases failed : newSh.propSize ≠ sh.propSize ∧ mem.prop = false
  · rw [if_pos failed]
    exact ⟨none, h, obj, sh, rfl, ok, .refl _ _, by simp, site, rfl, rfl, fun no => absurd rfl no,
      fun _ => ⟨rfl, failed.2⟩⟩
  · rw [if_neg failed]
    obtain ⟨h1, dup, ok1, rfl⟩ := jsDupShape_spec ok found hashed
    have frame1 := (shrunk_setCount found (newSh.refCount + 1)).frame ok1 (.object o)
    let propAlloc := if newSh.propSize ≠ sh.propSize then newSh.propSize else obj.propAlloc
    let obj' : Object V := { obj with shape := q, propAlloc := propAlloc }
    have size := ok.propSize_le site
    have larger : newSh.propSize ≤ obj'.propAlloc := by
      simp only [obj', propAlloc]
      split <;> omega
    have self : (h.setShape q { newSh with refCount := newSh.refCount + 1 }).shape obj'.shape =
        some { newSh with refCount := newSh.refCount + 1 } := by simp [Heap.setShape, obj']
    obtain ⟨h', freed, ok', frame, -, sh', site', body⟩ :=
      @swapShape_spec V P _ [] tight _ o obj obj' ok1 site.object self larger id
    obtain ⟨props, -, -, proto'⟩ := body_fields body
    have length : newSh.prop.length = sh.prop.length + 1 := by
      rw [← entries_length, entries, List.length_append, entries_length]
      rfl
    refine ⟨some (newSh.prop.length - 1), h', obj', sh', ?_, ok', frame1.trans frame, ?_,
      site', rfl, proto'.trans proto, fun _ => .inr ⟨q, newSh, found, entries, props⟩, fun no => ?_⟩
    · simp only [dup, bind_eq_bind, bind_some]
      exact congrArg (Option.bind · _) freed
    · intro i is
      cases is
      omega
    · exact absurd (by simp) no

theorem cloneHashed_spec (ok : Good P h) (site : At h o obj sh) (hashed : sh.isHashed = true)
    (fresh : h.shape q = none) : ∃ h3 h4 sh4, jsShapeHashLink q ((h.addShape q (cloneOf sh)).setShape q
      { cloneOf sh with isHashed := true }) = some h3 ∧
      jsFreeShape obj.shape (h3.setObject o { obj with shape := q }) = some h4 ∧ Good P h4 ∧
      Frame (.object o) h h4 ∧ At h4 o { obj with shape := q } sh4 ∧ sh4.refCount = 1 ∧
      sh4.face = sh.face ∧ ∀ r, r ≠ q → h.shape r = none → h4.shape r = none := by
  let clone : Shape := { cloneOf sh with isHashed := true }
  have same : (h.addShape q (cloneOf sh)).setShape q clone = h.addShape q clone := by
    simp [Heap.addShape, Heap.setShape]
  have holds := ok.props _ _ site.shape
  have hash := ok.hashes _ _ site.shape hashed
  have fitting := ok.propSize_le site
  have ok2 : Ok P (h.addShape q clone) [q] (looseIf clone.isHashed q) := by
    refine ok.addShape fresh rfl (fun _ => ⟨rfl, rfl⟩) ?_ holds fun _ => hash
    intro r other
    simp [looseIf, tight, other]
  obtain ⟨h3, linked, ok3, relinked⟩ := attach_spec ok2 addShape_self
  have frame3 : Frame (.object o) h h3 := (ok.frame_addShape fresh).trans (relinked.frame _)
  obtain ⟨sh3, found3, core⟩ := shape_of_core (relinked.core q).symm addShape_self
  obtain ⟨props3, -, -, proto3⟩ := body_fields (core_body core).1
  have there3 : h3.object o = some obj := (object_congr relinked.objects o).trans site.object
  have size : sh3.propSize ≤ obj.propAlloc := by rwa [← props3]
  obtain ⟨h4, freed, ok4, frame4, shrunk, sh4, site4, body4⟩ :=
    @swapShape_spec V P h3 [] tight sh3 o obj { obj with shape := q } ok3 there3 found3 size id
  obtain ⟨props4, -, -, proto4⟩ := body_fields body4
  refine ⟨h3, h4, sh4, ?_, freed, ok4, frame3.trans frame4, site4, ?_, ?_, ?_⟩
  · rwa [same]
  · -- the object is the only one that refers to the clone
    have notOld : obj.shape ≠ q := by
      intro equal
      simp [← equal, site.shape] at fresh
    have moved := @refs_setObject V h3 o obj { obj with shape := q } there3 q
    rw [if_neg notOld, if_pos rfl, ← refs_congr shrunk.objects shrunk.arrayShape,
      refs_congr relinked.objects relinked.arrayShape] at moved
    have none' : (h.addShape q clone).refs q = 0 := (ok.refs_fresh fresh).1
    have count := (ok4.counts _ _ site4.shape).1
    simp only [List.count_nil] at count
    omega
  · rw [Shape.face, props4, proto4, ← props3, ← proto3]
    rfl
  · intro r other absent
    cases now : h4.shape r with
    | none => rfl
    | some s =>
      obtain ⟨s3, was, -⟩ := shrunk.body r s now
      obtain ⟨s2, was2, -⟩ := shape_of_core (relinked.core r) was
      simp [addShape_of_ne other, absent] at was2

theorem addProperty_spec (closed : Closed P fits sizes) (ok : Good P h) (site : At h o obj sh)
    (absent : findOwnProperty sh.toProps atom = some none) (live : atom ≠ JS_ATOM_NULL)
    (small : fits (sh.prop.length + 1)) (mem : Memory) :
    AddsTo P h o obj sh (addProperty o atom flags mem h) (Grown h sh.toProps atom flags) (¬Ample mem h) := by
  have unshared (single : sh.refCount = 1) :
      AddsTo P h o obj sh (addInPlace o atom flags mem h) (Grown h sh.toProps atom flags) (¬Ample mem h) := by
    obtain ⟨r, h', obj', sh', added, ok', frame, index, tried⟩ :=
      addInPlace_spec closed ok site single absent live small mem
    refine ⟨r, h', obj', sh', added, ok', frame, index, tried.site, tried.prop, tried.proto,
      fun yes => .inl (tried.success yes), fun no => ⟨(tried.failure no).1, ?_⟩⟩
    rintro ⟨-, allocated, -, q, -, given, -, -, fresh⟩
    exact (tried.failure no).2 ⟨allocated, q, given, fresh⟩
  simp only [addProperty, site.object, site.shape, bind_eq_bind, bind_some]
  cases hashed : sh.isHashed with
  | false => exact unshared (ok.owned _ _ site.shape hashed)
  | true =>
    rw [if_pos rfl]
    obtain ⟨result, searched, wanted⟩ := ok.table.search (fun sh1 => sh1.hash == hashWith sh atom flags &&
      sh1.proto == sh.proto && sh1.prop.length == sh.prop.length + 1 &&
      sh1.entries == sh.entries ++ [(atom, flags)]) (hashWith sh atom flags)
    rw [show findHashedShapeProp sh atom flags h = some result from searched, bind_some]
    cases result with
    | some q =>
      obtain ⟨⟨⟨s, is, isHashed⟩, -⟩, newSh, found, fitting⟩ := wanted q rfl
      obtain rfl : s = newSh := some.inj (is.symm.trans found)
      simp only [Bool.and_eq_true, beq_iff_eq] at fitting
      obtain ⟨⟨⟨-, proto⟩, -⟩, entries⟩ := fitting
      simp only [found, bind_some]
      obtain ⟨r, h', obj', sh', used, ok', frame, index, tried⟩ :=
        useShape_spec ok site found isHashed proto entries mem
      refine ⟨r, h', obj', sh', used, ok', frame, index, tried.site, tried.prop, tried.proto,
        tried.success, fun no => ⟨(tried.failure no).1, fun ample => ?_⟩⟩
      have failed := (tried.failure no).2
      simp [ample.prop] at failed
    | none =>
      by_cases single : sh.refCount = 1
      · rw [if_neg (by simp [single])]
        exact unshared single
      · rw [if_pos single, jsCloneShape_eq site.shape, bind_some]
        cases answer : h.fresh mem.clone with
        | none =>
          refine ⟨none, h, obj, sh, rfl, ok, .refl _ _, by simp, site, rfl, rfl, fun no => absurd rfl no,
            fun _ => ⟨rfl, ?_⟩⟩
          rintro ⟨-, -, r, -, given, -, -, fresh, -⟩
          simp [fresh_eq_some.mpr ⟨given, fresh⟩] at answer
        | some q =>
          obtain ⟨given, fresh⟩ := fresh_eq_some.mp answer
          obtain ⟨h3, h4, sh4, linked, freed, ok4, frame4, site4, single4, face, absent4⟩ :=
            cloneHashed_spec ok site hashed fresh
          have props4 : sh4.toProps = sh.toProps := congrArg Prod.fst face
          have proto4 : sh4.proto = sh.proto := congrArg Prod.snd face
          rw [← props4] at absent small
          obtain ⟨r, h', obj', sh', added, ok', frame, index, tried⟩ :=
            addInPlace_spec closed ok4 site4 single4 absent live small mem
          rw [props4] at index
          have success := tried.success
          have failure := tried.failure
          rw [props4] at success failure
          refine ⟨r, h', obj', sh', ?_, ok', frame4.trans frame, index, tried.site, tried.prop,
            tried.proto.trans proto4, fun yes => .inl (success yes), fun no => ⟨(failure no).1, ?_⟩⟩
          · simp only [addShape_self, bind_some, linked, freed]
            exact added
          · rintro ⟨-, allocated, p, r, givenClone, givenShape, different, -, freshShape⟩
            rw [given] at givenClone
            cases givenClone
            exact (failure no).2 ⟨allocated, r, givenShape, absent4 r different.symm freshShape⟩

end Add

end Shapes
