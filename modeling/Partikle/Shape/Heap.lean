import Partikle.Shape.Table
import Mathlib.Data.List.Count

/-!
The invariant of the heap of shapes and objects: reference counts, the shape hash table,
and that only unshared shapes are outside the table. A function in the middle of its work
may hold references of its own (`extra`) and have a shape out of the table (`loose`).
-/

namespace Shapes

open HashChain Option List

variable {V : Type}

def hashOf (proto : BitVec 64) (entries : List (BitVec 32 × BitVec 6)) : BitVec 32 :=
  entries.foldl (fun hash entry => shapeHash (shapeHash hash entry.1) (entry.2.setWidth 32))
    (shapeInitialHash proto)

def Heap.hashedAt (h : Heap V) (p : Ptr) : Prop := ∃ sh, h.shape p = some sh ∧ sh.isHashed = true

def refsIn (objects : List (Option (Object V))) (p : Ptr) : Nat :=
  objects.countP fun o => o.map Object.shape == some p

def Heap.refs (h : Heap V) (p : Ptr) : Nat := refsIn h.objects p + if h.arrayShape = some p then 1 else 0

/-- `P` is what is known about every property table. -/
structure Ok (P : Props → Prop) (h : Heap V) (extra : List Ptr) (loose : Ptr → Prop) : Prop where
  table : Tabled h fun p => h.hashedAt p ∧ ¬loose p
  listed : ∀ p sh, h.shape p = some sh → p ∈ h.gcObjList
  props : ∀ p sh, h.shape p = some sh → P sh.toProps
  hashes : ∀ p sh, h.shape p = some sh → sh.isHashed = true → sh.hash = hashOf sh.proto sh.entries
  counts : ∀ p sh, h.shape p = some sh → sh.refCount = h.refs p + extra.count p ∧ 0 < sh.refCount
  owned : ∀ p sh, h.shape p = some sh → sh.isHashed = false → sh.refCount = 1
  extras : ∀ p ∈ extra, ∃ sh, h.shape p = some sh
  objects : ∀ o obj, h.object o = some obj → ∃ sh, h.shape obj.shape = some sh ∧
    sh.propSize ≤ obj.propAlloc
  array : ∀ p, h.arrayShape = some p → ∃ sh, h.shape p = some sh ∧ sh.isHashed = true

def tight (_ : Ptr) : Prop := False

abbrev Good (P : Props → Prop) (h : Heap V) : Prop := Ok P h [] tight

/-- Everything in a shape but its link in the table and its reference count. -/
def Shape.body (sh : Shape) : Shape := { sh with shapeHashNext := none, refCount := 0 }

def Shape.face (sh : Shape) : Props × BitVec 64 := (sh.toProps, sh.proto)

/-- Only what the holder `x` refers to has changed. -/
structure Frame (x : Holder) (h h' : Heap V) : Prop where
  object : ∀ o, x ≠ .object o → h'.object o = h.object o
  array : x ≠ .context → h'.arrayShape = h.arrayShape
  size : x ≠ .object h.objects.length → h'.objects.length = h.objects.length
  face : ∀ y p, y ≠ x → h.held y = some p → (h'.shape p).map Shape.face = (h.shape p).map Shape.face

variable {old sh : Shape} {y : Holder}

theorem core_body (same : sh.core = old.core) : sh.body = old.body ∧ sh.refCount = old.refCount := by
  unfold Shape.core at same
  unfold Shape.body
  simp only [Shape.mk.injEq] at same ⊢
  simp [same]

theorem body_fields (same : sh.body = old.body) :
    sh.toProps = old.toProps ∧ sh.isHashed = old.isHashed ∧ sh.hash = old.hash ∧ sh.proto = old.proto := by
  unfold Shape.body at same
  simp only [Shape.mk.injEq, true_and] at same
  exact same

theorem body_face (same : sh.body = old.body) : sh.face = old.face := by
  obtain ⟨props, -, -, proto⟩ := body_fields same
  simp [Shape.face, props, proto]

/-- What `Ok` has of one shape, to which there are `n` references. -/
structure Fine (P : Props → Prop) (sh : Shape) (n : Int) : Prop where
  props : P sh.toProps
  hash : sh.isHashed = true → sh.hash = hashOf sh.proto sh.entries
  count : sh.refCount = n ∧ 0 < sh.refCount
  owned : sh.isHashed = false → sh.refCount = 1

section Fine

variable {P : Props → Prop} {h : Heap V} {extra : List Ptr} {loose : Ptr → Prop} {p : Ptr} {sh' : Shape} {n : Int}

theorem Ok.fine (ok : Ok P h extra loose) (found : h.shape p = some sh) : Fine P sh (h.refs p + extra.count p) :=
  ⟨ok.props p sh found, ok.hashes p sh found, ok.counts p sh found, ok.owned p sh found⟩

theorem Fine.of_body (fine : Fine P sh n) (body : sh'.body = sh.body) (count : sh'.refCount = sh.refCount) :
    Fine P sh' n := by
  obtain ⟨props, hashed, hash, proto⟩ := body_fields body
  refine ⟨props ▸ fine.props, fun isHashed => ?_, count ▸ fine.count, fun unhashed => ?_⟩
  · rw [hash, proto, fine.hash (hashed ▸ isHashed), props]
  · rw [count, fine.owned (hashed ▸ unhashed)]

theorem ok_of_fine (table : Tabled h fun p => h.hashedAt p ∧ ¬loose p)
    (fine : ∀ p sh, h.shape p = some sh → p ∈ h.gcObjList ∧ Fine P sh (h.refs p + extra.count p))
    (extras : ∀ p ∈ extra, ∃ sh, h.shape p = some sh)
    (objects : ∀ o obj, h.object o = some obj → ∃ sh, h.shape obj.shape = some sh ∧ sh.propSize ≤ obj.propAlloc)
    (array : ∀ p, h.arrayShape = some p → ∃ sh, h.shape p = some sh ∧ sh.isHashed = true) : Ok P h extra loose :=
  ⟨table, fun p sh found => (fine p sh found).1, fun p sh found => (fine p sh found).2.props,
    fun p sh found => (fine p sh found).2.hash, fun p sh found => (fine p sh found).2.count,
    fun p sh found => (fine p sh found).2.owned, extras, objects, array⟩

end Fine

section Frames

variable {x : Holder} {h h' h'' : Heap V}

theorem Frame.held (frame : Frame x h h') (other : y ≠ x) : h'.held y = h.held y := by
  cases y with
  | object o => simp [Heap.held, frame.object o other.symm]
  | context => exact frame.array other.symm

theorem Frame.refl (x : Holder) (h : Heap V) : Frame x h h :=
  ⟨fun _ _ => rfl, fun _ => rfl, fun _ => rfl, fun _ _ _ _ => rfl⟩

theorem Frame.trans (first : Frame x h h') (second : Frame x h' h'') : Frame x h h'' := by
  refine ⟨?_, ?_, ?_, ?_⟩
  · intro o other
    exact (second.object o other).trans (first.object o other)
  · intro other
    exact (second.array other).trans (first.array other)
  · intro other
    have same := first.size other
    exact (second.size (same ▸ other)).trans same
  · intro y p other held
    rw [second.face y p other ((first.held other).trans held)]
    exact first.face y p other held

end Frames

section Refs

variable {h : Heap V} {p : Ptr} {o : Nat} {obj : Object V}

theorem object_lt (there : h.object o = some obj) : o < h.objects.length ∧ h.objects[o]? = some (some obj) := by
  unfold Heap.object at there
  cases slot : h.objects[o]? with
  | none => simp [slot] at there
  | some value =>
    rw [slot] at there
    have inside := (List.getElem?_eq_some_iff.mp slot).1
    exact ⟨inside, by rw [show value = some obj from there]⟩

theorem object_setObject_self {new : Object V} (there : h.object o = some obj) :
    (h.setObject o new).object o = some new := by
  obtain ⟨inside, -⟩ := object_lt there
  simp [Heap.object, Heap.setObject, inside]

theorem object_setObject_of_ne {new : Object V} {o' : Nat} (other : o' ≠ o) :
    (h.setObject o new).object o' = h.object o' := by
  simp [Heap.object, Heap.setObject, other.symm]

variable {objects : List (Option (Object V))}

theorem refsIn_pos (slot : objects[o]? = some (some obj)) : 0 < refsIn objects obj.shape :=
  countP_pos_iff.mpr ⟨some obj, mem_of_getElem? slot, by simp⟩

theorem refsIn_set (slot : objects[o]? = some (some obj)) (new : Option (Object V)) (p : Ptr) :
    refsIn (objects.set o new) p + (if obj.shape = p then 1 else 0) =
      refsIn objects p + if new.map Object.shape = some p then 1 else 0 := by
  obtain ⟨inside, value⟩ := List.getElem?_eq_some_iff.mp slot
  have positive := refsIn_pos slot
  unfold refsIn at positive ⊢
  rw [countP_set inside, value]
  rcases eq_or_ne obj.shape p with rfl | old
  · simp only [map_some, beq_self_eq_true, if_true, beq_iff_eq]
    omega
  · simp [old]

theorem refs_setObject {new : Object V} (there : h.object o = some obj) (p : Ptr) :
    (h.setObject o new).refs p + (if obj.shape = p then 1 else 0) = h.refs p + if new.shape = p then 1 else 0 := by
  have changed := refsIn_set (object_lt there).2 (some new) p
  simp only [map_some, some.injEq] at changed
  have after : (h.setObject o new).refs p =
      refsIn (h.objects.set o (some new)) p + if h.arrayShape = some p then 1 else 0 := rfl
  rw [after, Heap.refs]
  omega

theorem two_le_refs {x : Holder} (different : x ≠ y) (first : h.held x = some p)
    (second : h.held y = some p) : 2 ≤ h.refs p := by
  have counted : ∀ {o : Nat}, h.held (.object o) = some p → ∃ obj, h.object o = some obj ∧ obj.shape = p := by
    simp [Heap.held]
  have one : ∀ {o : Nat}, h.held (.object o) = some p → 0 < refsIn h.objects p := by
    intro o held
    obtain ⟨obj, there, rfl⟩ := counted held
    exact refsIn_pos (object_lt there).2
  have withContext : ∀ {o : Nat}, h.held (.object o) = some p → h.arrayShape = some p → 2 ≤ h.refs p := by
    intro o held array
    have := one held
    unfold Heap.refs
    rw [if_pos array]
    omega
  cases x with
  | context =>
    cases y with
    | context => exact absurd rfl different
    | object o => exact withContext second first
  | object o =>
    cases y with
    | context => exact withContext first second
    | object o' =>
      obtain ⟨obj, there, same⟩ := counted first
      obtain ⟨obj', there', rfl⟩ := counted second
      have other : o ≠ o' := fun equal => different (by rw [equal])
      -- taking the first object away leaves the second
      have changed := refsIn_set (object_lt there).2 none obj'.shape
      have still : (h.objects.set o none)[o']? = some (some obj') := by
        rw [getElem?_set_ne other]
        exact (object_lt there').2
      have left := refsIn_pos still
      rw [if_pos same] at changed
      simp only [map_none, reduceCtorEq, if_false] at changed
      unfold Heap.refs
      omega

end Refs

end Shapes
