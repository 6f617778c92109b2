import Partikle.Shape.Ops

/-!
New shapes, new objects, the shape of arrays, and the end of an object.
-/

namespace Shapes

open HashChain List Option

variable {V : Type} {P : Props → Prop} {fits sizes : Nat → Prop} {h h' : Heap V} {p q : Ptr}
  {sh sh' : Shape} {o : Nat} {obj : Object V} {x : Holder}

section Shape

def newShape (proto : BitVec 64) (propSize : Nat) : Shape :=
  { emptyProps JS_PROP_INITIAL_HASH_SIZE propSize with
    refCount := 1
    isHashed := true
    hash := shapeInitialHash proto
    shapeHashNext := none
    proto := proto }

theorem jsNewShape2_eq {proto : BitVec 64} {propSize : Nat} {mem : Memory} {h1 : Heap V}
    (resized : (if 2 * (h.shapeHashCount + 1) > 2 ^ h.shapeHashBits then
      resizeShapeHash (h.shapeHashBits + 1) mem.table h else some h) = some h1) :
    jsNewShape2 proto JS_PROP_INITIAL_HASH_SIZE propSize mem h = match h1.fresh mem.shape with
      | none => some (none, h1)
      | some p => (jsShapeHashLink p (h1.addShape p (newShape proto propSize))).map fun h => (some p, h) := by
  unfold jsNewShape2
  by_cases crowded : 2 * (h.shapeHashCount + 1) > 2 ^ h.shapeHashBits
  · rw [if_pos crowded] at resized ⊢
    rw [resized]
    cases answer : h1.fresh mem.shape <;> simp [answer, map_eq_bind]
    rfl
  · rw [if_neg crowded] at resized ⊢
    cases resized
    cases answer : h.fresh mem.shape <;> simp [answer, map_eq_bind]
    rfl

theorem jsNewShape2_spec (closed : Closed P fits sizes) (ok : Good P h) (proto : BitVec 64) {propSize : Nat}
    (small : propSize ≤ 2) (mem : Memory) :
    ∃ r h', jsNewShape2 proto JS_PROP_INITIAL_HASH_SIZE propSize mem h = some (r, h') ∧ Frame x h h' ∧
      h'.objects = h.objects ∧ h'.arrayShape = h.arrayShape ∧
      (r = none → Good P h' ∧ ¬∃ q, mem.shape = some q ∧ h.shape q = none) ∧ ∀ p, r = some p → Ok P h' [p] tight ∧
      ∃ sh, h'.shape p = some sh ∧ sh.refCount = 1 ∧ sh.toProps = emptyProps JS_PROP_INITIAL_HASH_SIZE propSize ∧
      sh.proto = proto ∧ sh.isHashed = true := by
  obtain ⟨h1, resize, table1, relinked1⟩ : ∃ h1, (if 2 * (h.shapeHashCount + 1) > 2 ^ h.shapeHashBits then
      resizeShapeHash (h.shapeHashBits + 1) mem.table h else some h) = some h1 ∧
      Tabled h1 (fun q => h.hashedAt q ∧ ¬tight q) ∧ Relinked h h1 := by
    split
    · exact resizeShapeHash_spec mem.table ok.table
    · exact ⟨h, rfl, ok.table, .refl h⟩
  have ok1 : Good P h1 := ok.relinked relinked1 table1
  have frame1 : Frame x h h1 := relinked1.frame x
  cases answer : h1.fresh mem.shape with
  | none =>
    refine ⟨none, h1, ?_, frame1, relinked1.objects, relinked1.arrayShape, fun _ => ⟨ok1, ?_⟩,
      fun _ no => by cases no⟩
    · rw [jsNewShape2_eq resize, answer]
    · rintro ⟨q, given, fresh⟩
      have fresh1 : h1.shape q = none := by
        have same := relinked1.core q
        rwa [Heap.core, Heap.core, fresh, map_none, map_eq_none_iff] at same
      simp [fresh_eq_some.mpr ⟨given, fresh1⟩] at answer
  | some p =>
    obtain ⟨-, fresh⟩ := fresh_eq_some.mp answer
    let sh := newShape proto propSize
    have ok2 : Ok P (h1.addShape p sh) [p] (looseIf sh.isHashed p) := by
      refine ok1.addShape fresh rfl (fun _ => ⟨rfl, rfl⟩) ?_ (closed.empty small) fun _ => rfl
      intro r other
      simp [looseIf, tight, other]
    obtain ⟨h', attached, ok', relinked'⟩ := attach_spec ok2 addShape_self
    obtain ⟨sh', found', core⟩ := shape_of_core (relinked'.core p).symm addShape_self
    obtain ⟨body, count⟩ := core_body core
    obtain ⟨props, hashed, -, proto'⟩ := body_fields body
    refine ⟨some p, h', ?_, frame1.trans ((ok1.frame_addShape fresh).trans (relinked'.frame x)),
      relinked'.objects.trans relinked1.objects, relinked'.arrayShape.trans relinked1.arrayShape,
      (fun no => by cases no), ?_⟩
    · have linked : jsShapeHashLink p (h1.addShape p sh) = some h' := attached
      rw [jsNewShape2_eq resize, answer]
      simp only [sh] at linked
      simp [linked]
    · rintro _ ⟨⟩
      exact ⟨ok', sh', found', count.symm, props.symm, proto'.symm, hashed.symm⟩

end Shape

section Object

def Heap.addObject (h : Heap V) (obj : Object V) : Heap V := { h with objects := h.objects ++ [some obj] }

theorem addObject_self (obj : Object V) : (h.addObject obj).object h.objects.length = some obj := by
  simp [Heap.addObject, Heap.object]

theorem addObject_of_ne {o : Nat} (other : o ≠ h.objects.length) : (h.addObject obj).object o = h.object o := by
  unfold Heap.addObject Heap.object
  by_cases inside : o < h.objects.length
  · simp [getElem?_append_left inside]
  · simp [getElem?_eq_none (show h.objects.length ≤ o by omega),
      getElem?_eq_none (show (h.objects ++ [some obj]).length ≤ o by simp; omega)]

theorem addObject_ok (ok : Ok P h [obj.shape] tight) (found : h.shape obj.shape = some sh)
    (size : sh.propSize ≤ obj.propAlloc) : Good P (h.addObject obj) := by
  have table := ok.table
  refine ⟨⟨table.bits, table.chains, table.listed, table.present⟩, ok.listed, ok.props, ok.hashes, ?_, ok.owned,
    (by simp), ?_, ok.array⟩
  · intro q s is
    obtain ⟨count, positive⟩ := ok.counts q s is
    have more : (h.addObject obj).refs q = h.refs q + if obj.shape = q then 1 else 0 := by
      have after : (h.addObject obj).refs q =
          refsIn (h.objects ++ [some obj]) q + if h.arrayShape = some q then 1 else 0 := rfl
      rw [after, Heap.refs, refsIn, refsIn, countP_append, countP_singleton]
      simp only [map_some, beq_iff_eq, some.injEq]
      omega
    rw [count_singleton] at count
    simp only [beq_iff_eq] at count
    rw [more, count, count_nil]
    omega
  · intro o obj' there
    rcases eq_or_ne o h.objects.length with rfl | same
    · rw [addObject_self] at there
      cases there
      exact ⟨sh, found, size⟩
    · rw [addObject_of_ne same] at there
      exact ok.objects o obj' there

theorem jsNewObjectFromShape_spec [Inhabited V] (ok : Ok P h [p] tight) (found : h.shape p = some sh)
    (values : Nat → V) (mem : Memory) :
    ∃ r h', jsNewObjectFromShape p values mem h = some (r, h') ∧ Good P h' ∧ Frame (.object h.objects.length) h h' ∧
      (r = .exception ∧ h'.objects = h.objects ∧ ¬(mem.object = true ∧ mem.prop = true) ∨ r = .true ∧
      h'.objects = h.objects ++ [some ⟨p, values, sh.propSize⟩] ∧
      At h' h.objects.length ⟨p, values, sh.propSize⟩ sh) := by
  simp only [jsNewObjectFromShape, found, bind_eq_bind, bind_some]
  by_cases allocated : (mem.object && mem.prop) = true
  · rw [if_pos allocated]
    refine ⟨.true, h.addObject ⟨p, values, sh.propSize⟩, rfl, ?_,
      ⟨fun o other => ?_, fun _ => rfl, fun no => absurd rfl no, fun _ _ _ _ => rfl⟩,
      .inr ⟨rfl, rfl, addObject_self _, found⟩⟩
    · exact @addObject_ok V P h sh ⟨p, values, sh.propSize⟩ ok found (Nat.le_refl _)
    · exact addObject_of_ne fun same => other (by rw [same])
  · rw [if_neg allocated]
    obtain ⟨h', freed, ok', shrunk⟩ := jsFreeShape_spec ok id
    refine ⟨.exception, h', by rw [freed]; rfl, ok', shrunk.frame ok' _, .inl ⟨rfl, shrunk.objects, ?_⟩⟩
    simpa using allocated

theorem jsNewObjectProto_spec [Inhabited V] (closed : Closed P fits sizes) (ok : Good P h) (proto : BitVec 64)
    (mem : Memory) :
    ∃ r h', jsNewObjectProto proto mem h = some (r, h') ∧ Good P h' ∧ Frame (.object h.objects.length) h h' ∧
      (r = .exception ∧ h'.objects = h.objects ∧ ¬Ample mem h ∨ r = .true ∧ h'.objects.length = h.objects.length + 1 ∧
      ∃ obj sh, At h' h.objects.length obj sh ∧ sh.entries = [] ∧ sh.proto = proto) := by
  obtain ⟨result, searched, wanted⟩ := ok.table.search (fun sh1 => sh1.hash == shapeInitialHash proto &&
    sh1.proto == proto && sh1.prop.length == 0) (shapeInitialHash proto)
  simp only [jsNewObjectProto, bind_eq_bind]
  rw [show findHashedShapeProto proto h = some result from searched, bind_some]
  cases result with
  | some p =>
    obtain ⟨⟨⟨s, is, isHashed⟩, -⟩, found', there, fitting⟩ := wanted p rfl
    obtain rfl : s = found' := some.inj (is.symm.trans there)
    simp only [Bool.and_eq_true, beq_iff_eq, length_eq_zero_iff] at fitting
    obtain ⟨⟨-, isProto⟩, isEmpty⟩ := fitting
    obtain ⟨h1, dup, ok1, rfl⟩ := jsDupShape_spec ok is isHashed
    have frame1 := (shrunk_setCount is (s.refCount + 1)).frame ok1 (.object h.objects.length)
    have self : (h.setShape p { s with refCount := s.refCount + 1 }).shape p =
      some { s with refCount := s.refCount + 1 } := by simp [Heap.setShape]
    obtain ⟨r, h', created, ok', frame', outcome⟩ := jsNewObjectFromShape_spec ok1 self (fun _ => default) mem
    simp only [dup, bind_some]
    refine ⟨r, h', created, ok', frame1.trans frame', ?_⟩
    rcases outcome with ⟨failed, objects, excuse⟩ | ⟨done, objects, site⟩
    · exact .inl ⟨failed, objects, fun ample => excuse ⟨ample.object, ample.prop⟩⟩
    · refine .inr ⟨done, by rw [objects]; simp [Heap.setShape], _, _, site, ?_, isProto⟩
      simp [Props.entries, isEmpty]
  | none =>
    obtain ⟨result, h1, newed, frame1, objects1, -, failed, created⟩ :=
      @jsNewShape2_spec V P fits sizes h (.object h.objects.length) closed ok proto 2 (Nat.le_refl _) mem
    rw [show jsNewShape proto mem h = some (result, h1) from newed, bind_some]
    cases result with
    | none =>
      obtain ⟨ok1, excuse⟩ := failed rfl
      refine ⟨.exception, h1, rfl, ok1, frame1, .inl ⟨rfl, objects1, ?_⟩⟩
      rintro ⟨-, -, -, q, -, given, -, -, fresh⟩
      exact excuse ⟨q, given, fresh⟩
    | some p =>
      obtain ⟨ok1, sh, found, -, props, isProto, -⟩ := created p rfl
      obtain ⟨r, h', created, ok', frame', outcome⟩ :=
        jsNewObjectFromShape_spec ok1 found (fun _ => default) mem
      rw [objects1] at frame' outcome
      refine ⟨r, h', created, ok', frame1.trans frame', ?_⟩
      rcases outcome with ⟨failed, objects, excuse⟩ | ⟨done, objects, site⟩
      · exact .inl ⟨failed, objects, fun ample => excuse ⟨ample.object, ample.prop⟩⟩
      · refine .inr ⟨done, by rw [objects]; simp, _, _, site, ?_, isProto⟩
        rw [props]
        rfl

theorem dropObject_ok (ok : Good P h) (there : h.object o = some obj) :
    Ok P { h with objects := h.objects.set o none } [obj.shape] tight := by
  have table := ok.table
  obtain ⟨sh, site⟩ := ok.at_object there
  refine ⟨⟨table.bits, table.chains, table.listed, table.present⟩, ok.listed, ok.props, ok.hashes, ?_, ok.owned,
    ?_, ?_, ok.array⟩
  · intro q s is
    obtain ⟨count, positive⟩ := ok.counts q s is
    have changed := refsIn_set (object_lt there).2 none q
    simp only [map_none, reduceCtorEq, if_false] at changed
    have after : Heap.refs { h with objects := h.objects.set o none } q =
        refsIn (h.objects.set o none) q + if h.arrayShape = some q then 1 else 0 := rfl
    rw [after, count_singleton]
    rw [Heap.refs] at count
    simp only [beq_iff_eq]
    rw [count_nil] at count
    omega
  · intro q member
    rw [mem_singleton.mp member]
    exact ⟨sh, site.shape⟩
  · intro o' obj' there'
    have other : o' ≠ o := by
      rintro rfl
      simp [Heap.object, (object_lt there).1] at there'
    apply ok.objects o' obj'
    simpa [Heap.object, other.symm] using there'

theorem freeObject_spec (ok : Good P h) (there : h.object o = some obj) :
    ∃ h', freeObject o h = some h' ∧ Good P h' ∧ Frame (.object o) h h' ∧ h'.objects = h.objects.set o none := by
  obtain ⟨h', freed, ok', shrunk⟩ := jsFreeShape_spec (dropObject_ok ok there) id
  have frame1 : Frame (.object o) h { h with objects := h.objects.set o none } := by
    refine ⟨?_, fun _ => rfl, fun _ => length_set, fun _ _ _ _ => rfl⟩
    intro o' other
    have different : o ≠ o' := fun same => other (by rw [same])
    simp [Heap.object, different]
  refine ⟨h', ?_, ok', frame1.trans (shrunk.frame ok' _), shrunk.objects⟩
  simp only [freeObject, there, bind_eq_bind, bind_some]
  exact freed

end Object

section Array

def ArrayOk (h : Heap V) : Prop :=
  ∀ p sh, h.arrayShape = some p → h.shape p = some sh →
    sh.entries = [(JS_ATOM_length, JS_PROP_WRITABLE ||| JS_PROP_LENGTH)]

theorem ArrayOk.frame (array : ArrayOk h) (ok : Good P h) (frame : Frame x h h') (other : x ≠ .context) :
    ArrayOk h' := by
  intro p sh held found
  rw [frame.array other] at held
  obtain ⟨old, was, -⟩ := ok.array p held
  have face := frame.face .context p other.symm held
  rw [found, was, map_some, map_some, some.injEq] at face
  have props : sh.toProps = old.toProps := congrArg Prod.fst face
  rw [props]
  exact array p old held was

theorem setArray_ok {extra extra' : List Ptr} {array : Option Ptr} (ok : Ok P h extra tight)
    (present : ∀ p ∈ extra', ∃ sh, h.shape p = some sh)
    (hashed : ∀ p, array = some p → ∃ sh, h.shape p = some sh ∧ sh.isHashed = true)
    (balance : ∀ q, (if array = some q then 1 else 0) + extra'.count q =
      (if h.arrayShape = some q then 1 else 0) + extra.count q) : Ok P { h with arrayShape := array } extra' tight := by
  have table := ok.table
  refine ⟨⟨table.bits, table.chains, table.listed, table.present⟩, ok.listed, ok.props, ok.hashes, ?_, ok.owned,
    present, ok.objects, hashed⟩
  intro q s is
  obtain ⟨count, positive⟩ := ok.counts q s is
  have even := balance q
  have after : Heap.refs { h with arrayShape := array } q = refsIn h.objects q + if array = some q then 1 else 0 := rfl
  rw [Heap.refs] at count
  omega

theorem freeArrayShape_spec (ok : Good P h) :
    ∃ h', freeArrayShape h = some h' ∧ Good P h' ∧ Frame .context h h' ∧ h'.arrayShape = none ∧
      h'.objects = h.objects := by
  unfold freeArrayShape
  cases held : h.arrayShape with
  | none => exact ⟨h, rfl, ok, .refl _ _, held, rfl⟩
  | some p =>
    obtain ⟨sh, found, -⟩ := ok.array p held
    have ok1 : Ok P { h with arrayShape := none } [p] tight := by
      refine setArray_ok ok ?_ (fun _ no => by cases no) ?_
      · intro q member
        rw [mem_singleton.mp member]
        exact ⟨sh, found⟩
      · intro q
        rw [held, count_singleton]
        simp
    obtain ⟨h', freed, ok', shrunk⟩ := jsFreeShape_spec ok1 id
    have frame1 : Frame .context h { h with arrayShape := none } :=
      ⟨fun _ _ => rfl, fun no => absurd rfl no, fun _ => rfl, fun _ _ _ _ => rfl⟩
    exact ⟨h', freed, ok', frame1.trans (shrunk.frame ok' _), shrunk.arrayShape, shrunk.objects⟩

theorem initArrayShape_spec (closed : Closed P fits sizes) (ok : Good P h) (array : h.arrayShape = none)
    (proto : BitVec 64) (mem : Memory) :
    ∃ r h', initArrayShape proto mem h = some (r, h') ∧ Good P h' ∧ ArrayOk h' ∧ Frame .context h h' ∧
      h'.objects = h.objects ∧ (r = .exception ∧ h'.arrayShape = none ∨ r = .true ∧ h'.arrayShape ≠ none) := by
  obtain ⟨result, h1, newed, frame1, objects1, array1, failed, created⟩ :=
    @jsNewShape2_spec V P fits sizes h .context closed ok proto 1 (by decide) mem
  simp only [initArrayShape, newed, bind_eq_bind, bind_some]
  cases result with
  | none =>
    have none' : h1.arrayShape = none := array1.trans array
    refine ⟨.exception, h1, rfl, (failed rfl).1, ?_, frame1, objects1, .inl ⟨rfl, none'⟩⟩
    intro p sh held
    simp [none'] at held
  | some p =>
    obtain ⟨ok1, sh, found, single, props, -, hashed⟩ := created p rfl
    have ok2 : Good P { h1 with arrayShape := some p } := by
      apply setArray_ok ok1 (by simp)
      · rintro _ ⟨⟩
        exact ⟨sh, found, hashed⟩
      · intro q
        rw [array1.trans array, count_singleton]
        simp
    have frame2 : Frame .context h1 { h1 with arrayShape := some p } :=
      ⟨fun _ _ => rfl, fun no => absurd rfl no, fun _ => rfl, fun _ _ _ _ => rfl⟩
    obtain ⟨h3, sh3, detached, found3, core, ok3, relinked⟩ := detach_spec ok2 found
    obtain ⟨body, count⟩ := core_body core
    obtain ⟨props3, hashed3, hash3, -⟩ := body_fields body
    have held3 : h3.held .context = some p := relinked.arrayShape
    rw [← hashed3] at ok3
    have room : sh3.prop.length < sh3.propSize := by
      rw [props3, props]
      exact Nat.zero_lt_one
    have holds := ok3.props _ _ found3
    have fitting : P (appended JS_ATOM_length (JS_PROP_WRITABLE ||| JS_PROP_LENGTH) sh3.toProps) := by
      refine appended_old closed holds ?_ (by decide) ?_ room
      · rw [props3, props]
        simp [findOwnProperty, emptyProps, findLoop]
      · rw [props3, props]
        exact closed.one
    obtain ⟨h4, sh4, finished, ok4, frame4, objects4, array4, found4, toProps4, -⟩ :=
      finishAdd_spec ok3 held3 found3 (count.trans single) room fitting
    have added : addShapeProperty .context JS_ATOM_length (JS_PROP_WRITABLE ||| JS_PROP_LENGTH) mem
        { h1 with arrayShape := some p } = some (true, h4) := by
      have held2 : Heap.held { h1 with arrayShape := some p } .context = some p := rfl
      have found2 : Heap.shape { h1 with arrayShape := some p } p = some sh := found
      rw [addShapeProperty_room held2 found2 (by rwa [← props3]) detached, ← finished, hashWith,
        hashWith, hash3]
    simp only [added, bind_some]
    have array4' : h4.arrayShape = some p := array4.trans relinked.arrayShape
    refine ⟨.true, h4, rfl, ok4, ?_, frame1.trans (frame2.trans ((relinked.frame _).trans frame4)),
      objects4.trans (relinked.objects.trans objects1), .inr ⟨rfl, by rw [array4']; simp⟩⟩
    intro q s held is
    rw [array4'] at held
    cases held
    rw [found4] at is
    cases is
    rw [toProps4, appended_entries, props3, props]
    rfl

theorem jsNewArray_spec [Inhabited V] (ok : Good P h) (array : ArrayOk h) (zero : V) (mem : Memory) :
    ∃ r h', jsNewArray zero mem h = some (r, h') ∧ Good P h' ∧ Frame (.object h.objects.length) h h' ∧
      (h.arrayShape = none → r = .false ∧ h' = h) ∧ (h.arrayShape ≠ none → r = .exception ∧ h'.objects = h.objects ∨
      r = .true ∧ h'.objects.length = h.objects.length + 1 ∧ ∃ proto,
      Shows h' h.objects.length [(JS_ATOM_length, JS_PROP_WRITABLE ||| JS_PROP_LENGTH, zero)] proto) := by
  unfold jsNewArray
  cases held : h.arrayShape with
  | none => exact ⟨.false, h, rfl, ok, .refl _ _, fun _ => ⟨rfl, rfl⟩, fun no => absurd rfl no⟩
  | some p =>
    obtain ⟨sh, found, hashed⟩ := ok.array p held
    obtain ⟨h1, dup, ok1, rfl⟩ := jsDupShape_spec ok found hashed
    have frame1 := (shrunk_setCount found (sh.refCount + 1)).frame ok1 (.object h.objects.length)
    have self : (h.setShape p { sh with refCount := sh.refCount + 1 }).shape p =
      some { sh with refCount := sh.refCount + 1 } := by simp [Heap.setShape]
    obtain ⟨r, h', created, ok', frame', outcome⟩ :=
      jsNewObjectFromShape_spec ok1 self (Function.update (fun _ => default) 0 zero) mem
    simp only [dup, bind_eq_bind, bind_some]
    refine ⟨r, h', created, ok', frame1.trans frame', (fun no => by cases no), fun _ => ?_⟩
    rcases outcome with ⟨failed, objects, -⟩ | ⟨done, objects, site⟩
    · exact .inl ⟨failed, objects⟩
    · refine .inr ⟨done, by rw [objects]; simp [Heap.setShape], sh.proto, _, _, site, ?_, rfl⟩
      have entries := array p sh held found
      have whole : contents sh.entries (Function.update (fun _ => default) 0 zero) =
          [(JS_ATOM_length, JS_PROP_WRITABLE ||| JS_PROP_LENGTH, zero)] := by
        rw [entries]
        simp [contents, contentsFrom, JS_ATOM_length, JS_ATOM_NULL]
      exact whole

end Array

end Shapes
