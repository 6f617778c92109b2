import Partikle.Shape.Share

/-!
Changing the shape of one object. A shape that only one object refers to is changed in
place or replaced by a new one; a shared one is cloned first. Nothing else sees the change.
-/

namespace Shapes

open HashChain List Option

variable {V : Type} {P : Props → Prop} {h h' : Heap V} {extra extra' : List Ptr} {loose loose' : Ptr → Prop}
  {p q : Ptr} {sh sh' : Shape} {x : Holder} {o : Nat} {obj new : Object V}

structure At (h : Heap V) (o : Nat) (obj : Object V) (sh : Shape) : Prop where
  object : h.object o = some obj
  shape : h.shape obj.shape = some sh

theorem Ok.at_object (ok : Ok P h extra loose) (there : h.object o = some obj) : ∃ sh, At h o obj sh := by
  obtain ⟨sh, found, -⟩ := ok.objects o obj there
  exact ⟨sh, there, found⟩

theorem Ok.propSize_le (ok : Ok P h extra loose) (site : At h o obj sh) : sh.propSize ≤ obj.propAlloc := by
  obtain ⟨s, found, size⟩ := ok.objects o obj site.object
  rw [site.shape] at found
  cases found
  exact size

theorem Ok.mono {Q : Props → Prop} (ok : Ok P h extra loose) (weaker : ∀ props, P props → Q props) :
    Ok Q h extra loose :=
  { ok with props := fun p sh found => weaker _ (ok.props p sh found) }

theorem Ok.exclusive {y : Holder} (ok : Ok P h extra loose) (found : h.shape p = some sh) (single : sh.refCount = 1)
    (held : h.held x = some p) (other : y ≠ x) : h.held y ≠ some p := by
  intro second
  have two := two_le_refs other second held
  have count := (ok.counts p sh found).1
  omega

theorem At.held (site : At h o obj sh) : h.held (.object o) = some obj.shape := by
  simp [Heap.held, site.object]

section Object

theorem Ok.setObject (ok : Ok P h extra loose) (there : h.object o = some obj)
    (fits : ∃ s, h.shape new.shape = some s ∧ s.propSize ≤ new.propAlloc)
    (balance : ∀ q, (if new.shape = q then 1 else 0) + extra'.count q =
      (if obj.shape = q then 1 else 0) + extra.count q) :
    Ok P (h.setObject o new) extra' loose := by
  have table := ok.table
  refine ⟨⟨table.bits, table.chains, table.listed, table.present⟩, ok.listed, ok.props, ok.hashes, ?_,
    ok.owned, ?_, ?_, ok.array⟩
  · intro q s found
    obtain ⟨count, positive⟩ := ok.counts q s found
    have moved := @refs_setObject V h o obj new there q
    have even := balance q
    exact ⟨by omega, positive⟩
  · intro q member
    have counted := count_pos_iff.mpr member
    have even := balance q
    by_cases old : obj.shape = q
    · obtain ⟨s, found, -⟩ := ok.objects o obj there
      exact ⟨s, old ▸ found⟩
    · rw [if_neg old] at even
      exact ok.extras q (count_pos_iff.mp (by omega))
  · intro o' obj' there'
    rcases eq_or_ne o' o with rfl | same
    · rw [object_setObject_self there] at there'
      cases there'
      exact fits
    · rw [object_setObject_of_ne same] at there'
      exact ok.objects o' obj' there'

theorem frame_setObject (new : Object V) : Frame (.object o) h (h.setObject o new) := by
  refine ⟨?_, fun _ => rfl, fun _ => length_set, fun _ _ _ _ => rfl⟩
  intro o' other
  exact object_setObject_of_ne fun same => other (by rw [same])

theorem swapShape_spec (ok : Ok P h (new.shape :: extra) loose) (there : h.object o = some obj)
    (found : h.shape new.shape = some sh) (fits : sh.propSize ≤ new.propAlloc) (tight' : ¬loose obj.shape) :
    ∃ h', jsFreeShape obj.shape (h.setObject o new) = some h' ∧ Ok P h' extra loose ∧ Frame (.object o) h h' ∧
      Shrunk (h.setObject o new) h' ∧ ∃ sh', At h' o new sh' ∧ sh'.body = sh.body := by
  have moved : Ok P (h.setObject o new) (obj.shape :: extra) loose := by
    refine ok.setObject there ⟨sh, found, fits⟩ ?_
    simp only [count_cons, beq_iff_eq]
    omega
  obtain ⟨h', freed, ok', shrunk⟩ := jsFreeShape_spec moved tight'
  have there' : h'.object o = some new := (object_congr shrunk.objects o).trans (object_setObject_self there)
  obtain ⟨sh', site⟩ := ok'.at_object there'
  obtain ⟨s, was, body⟩ := shrunk.body _ _ site.shape
  rw [show h.shape new.shape = some s from was] at found
  cases found
  exact ⟨h', freed, ok', (frame_setObject new).trans (shrunk.frame ok' _), shrunk, sh', site, body⟩

end Object

section Clone

theorem Ok.refs_fresh (ok : Ok P h extra loose) (fresh : h.shape q = none) : h.refs q = 0 ∧ extra.count q = 0 := by
  constructor
  · unfold Heap.refs refsIn
    rw [countP_eq_zero.mpr, if_neg]
    · intro held
      obtain ⟨sh, found, -⟩ := ok.array q held
      simp [fresh] at found
    · intro slot member is
      obtain ⟨i, inside, rfl⟩ := mem_iff_getElem.mp member
      simp only [beq_iff_eq, map_eq_some_iff] at is
      obtain ⟨obj, there, rfl⟩ := is
      have present : h.object i = some obj := by simp [Heap.object, inside, there]
      obtain ⟨sh, found, -⟩ := ok.objects i obj present
      simp [fresh] at found
  · rw [count_eq_zero]
    intro member
    obtain ⟨sh, found⟩ := ok.extras q member
    simp [fresh] at found

def Heap.addShape (h : Heap V) (q : Ptr) (sh : Shape) : Heap V :=
  { h.setShape q sh with gcObjList := h.gcObjList ++ [q] }

theorem addShape_of_ne {r : Ptr} (other : r ≠ q) : (h.addShape q sh).shape r = h.shape r := by
  simp [Heap.addShape, Heap.setShape, other]

theorem addShape_self : (h.addShape q sh).shape q = some sh := by simp [Heap.addShape, Heap.setShape]

theorem Tabled.addShape {entry : Ptr → Prop} (table : Tabled h entry) (fresh : h.shape q = none) :
    Tabled (h.addShape q sh) entry := by
  have kept : Tabled (h.setShape q sh) entry := table.setShape fun inside => by
    obtain ⟨s, found⟩ := table.present q inside
    simp [fresh] at found
  exact { kept with listed := fun r inside => mem_append_left _ (kept.listed r inside) }

theorem Ok.addShape (ok : Ok P h extra loose) (fresh : h.shape q = none) (single : sh.refCount = 1)
    (out : sh.isHashed = true → loose' q) (looseSame : ∀ r, r ≠ q → (loose' r ↔ loose r)) (props : P sh.toProps)
    (hashes : sh.isHashed = true → sh.hash = hashOf sh.proto sh.entries) :
    Ok P (h.addShape q sh) (q :: extra) loose' := by
  obtain ⟨refs, unheld⟩ := ok.refs_fresh fresh
  have self : (h.addShape q sh).shape q = some sh := addShape_self
  have shapes : ∀ r, r ≠ q → (h.addShape q sh).shape r = h.shape r := fun r other => addShape_of_ne other
  have notFresh : ∀ r s, h.shape r = some s → r ≠ q := by
    rintro r s found rfl
    simp [fresh] at found
  apply ok_of_fine
  · refine (ok.table.addShape fresh).congr fun r => ?_
    rcases eq_or_ne r q with rfl | same
    · simp only [Heap.hashedAt, self, fresh, some.injEq, exists_eq_left', reduceCtorEq,
        false_and, exists_false, iff_false]
      rintro ⟨hashed, tight'⟩
      exact tight' (out hashed)
    · simp [Heap.hashedAt, shapes r same, looseSame r same]
  · intro r s is
    rcases update_some is with ⟨rfl, rfl⟩ | ⟨same, is⟩
    · have count : s.refCount = (h.refs r : Int) + (r :: extra).count r := by
        rw [count_cons_self, single]
        omega
      exact ⟨mem_append_right _ (by simp), props, hashes, ⟨count, by omega⟩, fun _ => single⟩
    · rw [count_cons_of_ne same.symm]
      exact ⟨mem_append_left _ (ok.listed r s is), ok.fine is⟩
  · intro r member
    rcases eq_or_ne r q with rfl | same
    · exact ⟨sh, self⟩
    · rw [shapes r same]
      exact ok.extras r ((mem_cons.mp member).resolve_left same)
  · intro o obj there
    obtain ⟨s, found, size⟩ := ok.objects o obj there
    exact ⟨s, (shapes _ (notFresh _ _ found)).trans found, size⟩
  · intro r held
    obtain ⟨s, found, hashed⟩ := ok.array r held
    exact ⟨s, (shapes _ (notFresh _ _ found)).trans found, hashed⟩

theorem Ok.frame_addShape (ok : Ok P h extra loose) (fresh : h.shape q = none) : Frame x h (h.addShape q sh) := by
  refine ⟨fun _ _ => rfl, fun _ => rfl, fun _ => rfl, ?_⟩
  intro y r _ held
  obtain ⟨s, found⟩ := ok.held_present held
  rw [addShape_of_ne]
  rintro rfl
  simp [fresh] at found

theorem fresh_eq_some {answer : Option Ptr} : h.fresh answer = some q ↔ answer = some q ∧ h.shape q = none := by
  unfold Heap.fresh
  rw [filter_eq_some_iff, isNone_iff_eq_none]

def cloneOf (sh : Shape) : Shape := { sh with refCount := 1, isHashed := false }

theorem jsCloneShape_eq (found : h.shape p = some sh) (answer : Option Ptr) :
    jsCloneShape p answer h = some (match h.fresh answer with
      | none => (none, h)
      | some q => (some q, h.addShape q (cloneOf sh))) := by
  simp only [jsCloneShape, found, bind_eq_bind, bind_some]
  cases h.fresh answer <;> rfl

theorem Ok.clone (ok : Good P h) (found : h.shape p = some sh) (fresh : h.shape q = none) :
    Ok P (h.addShape q (cloneOf sh)) [q] tight :=
  ok.addShape fresh rfl (fun hashed => by cases hashed) (fun _ _ => Iff.rfl) (ok.props p sh found)
    (fun hashed => by cases hashed)

end Clone

end Shapes
