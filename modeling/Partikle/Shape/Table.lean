import Partikle.Lib.HashChain
import Partikle.Shape.Core
import Mathlib.Data.List.Perm.Subperm

/-!
The shape hash table of the runtime: linking and unlinking shapes, searching, and moving
all shapes to a larger table.
-/

namespace Shapes

open HashChain Function List Option

variable {V : Type}

def Shape.core (sh : Shape) : Shape := { sh with shapeHashNext := none }

def Heap.core (h : Heap V) (p : Ptr) : Option Shape := (h.shape p).map Shape.core

def Heap.nextOf (h : Heap V) (p : Ptr) : Option Ptr := (h.shape p).bind Shape.shapeHashNext

def Heap.bucketOf (h : Heap V) (bits : Nat) (p : Ptr) : Nat :=
  ((h.shape p).map fun sh => getShapeHash sh.hash bits).getD 0

structure Tabled (h : Heap V) (entry : Ptr → Prop) : Prop where
  bits : h.shapeHashBits ≤ 30
  chains : IsTable h.nextOf h.shapeHash (2 ^ h.shapeHashBits) (h.bucketOf h.shapeHashBits) entry
  listed : ∀ p, entry p → p ∈ h.gcObjList
  present : ∀ p, entry p → ∃ sh, h.shape p = some sh

structure Relinked (h h' : Heap V) : Prop where
  core : ∀ p, h'.core p = h.core p
  gcObjList : h'.gcObjList = h.gcObjList
  arrayShape : h'.arrayShape = h.arrayShape
  objects : h'.objects = h.objects

theorem getShapeHash_lt (hash : BitVec 32) {bits : Nat} (small : bits ≤ 30) : getShapeHash hash bits < 2 ^ bits := by
  unfold getShapeHash
  rw [BitVec.toNat_ushiftRight, Nat.shiftRight_eq_div_pow]
  apply Nat.div_lt_of_lt_mul
  rw [← Nat.pow_add, Nat.sub_add_cancel (by omega)]
  exact hash.isLt

section Relinked

variable {h h' : Heap V}

theorem Relinked.refl (h : Heap V) : Relinked h h := ⟨fun _ => rfl, rfl, rfl, rfl⟩

theorem Relinked.trans {h'' : Heap V} (first : Relinked h h') (second : Relinked h' h'') : Relinked h h'' :=
  ⟨fun p => (second.core p).trans (first.core p), second.gcObjList.trans first.gcObjList,
    second.arrayShape.trans first.arrayShape, second.objects.trans first.objects⟩

variable {p : Ptr} {sh : Shape}

theorem shape_of_core (same : h'.core p = h.core p) (found : h'.shape p = some sh) :
    ∃ old, h.shape p = some old ∧ sh.core = old.core := by
  unfold Heap.core at same
  rw [found] at same
  cases present : h.shape p with
  | none => simp [present] at same
  | some old =>
    rw [present] at same
    exact ⟨old, rfl, some.inj same⟩

theorem Relinked.present (relinked : Relinked h h') (was : ∃ sh, h.shape p = some sh) : ∃ sh, h'.shape p = some sh := by
  obtain ⟨old, was⟩ := was
  obtain ⟨now, is, -⟩ := shape_of_core (relinked.core p).symm was
  exact ⟨now, is⟩

theorem Relinked.bucketOf (relinked : Relinked h h') (bits : Nat) (p : Ptr) :
    h'.bucketOf bits p = h.bucketOf bits p := by
  have same := congrArg (Option.map fun sh : Shape => getShapeHash sh.hash bits) (relinked.core p)
  simp only [Heap.core, Option.map_map] at same
  exact congrArg (Option.getD · 0) same

theorem relinked_setShape (found : h.shape p = some sh) (next : Option Ptr) :
    Relinked h (h.setShape p { sh with shapeHashNext := next }) := by
  refine ⟨?_, rfl, rfl, rfl⟩
  intro q
  rcases eq_or_ne q p with rfl | same
  · simp [Heap.core, Heap.setShape, found, Shape.core]
  · simp [Heap.core, Heap.setShape, same]

theorem nextOf_setShape : (h.setShape p sh).nextOf = update h.nextOf p sh.shapeHashNext := by
  funext q
  rcases eq_or_ne q p with rfl | same
  · simp [Heap.nextOf, Heap.setShape]
  · simp [Heap.nextOf, Heap.setShape, same]

theorem nextOf_eq (found : h.shape p = some sh) : h.nextOf p = sh.shapeHashNext := by
  simp [Heap.nextOf, found]

end Relinked

section Walk

variable {h : Heap V} {entry : Ptr → Prop} {start : Option Ptr} {nodes : List Ptr}

theorem chain_length (follows : Follows h.nextOf start nodes) (inside : nodes ⊆ h.gcObjList) :
    nodes.length < h.chainFuel :=
  Nat.lt_succ_of_le (subperm_of_subset follows.nodup inside).length_le

theorem searchLoop_spec {wanted : Shape → Bool} {fuel : Nat} (follows : Follows h.nextOf start nodes)
    (present : ∀ node ∈ nodes, ∃ sh, h.shape node = some sh) (bound : nodes.length < fuel) :
    searchLoop wanted h fuel start = some (nodes.find? fun node => (h.shape node).any wanted) := by
  induction nodes generalizing start fuel with
  | nil =>
    obtain _ | rest := fuel
    · cases bound
    rw [show start = none from follows]
    rfl
  | cons node nodes ih =>
    obtain _ | rest := fuel
    · cases bound
    obtain ⟨rfl, behind⟩ := follows
    obtain ⟨sh, found⟩ := present node (by simp)
    rw [nextOf_eq found] at behind
    have later := ih behind (fun n member => present n (.tail _ member)) (Nat.lt_of_succ_lt_succ bound)
    by_cases here : wanted sh = true
    · simp [searchLoop, found, here]
    · simp [searchLoop, found, here, later]

theorem Tabled.search (table : Tabled h entry) (wanted : Shape → Bool) (hash : BitVec 32) :
    ∃ result, searchLoop wanted h h.chainFuel (h.shapeHash (getShapeHash hash h.shapeHashBits)) = some result ∧ ∀ p,
      result = some p → entry p ∧ ∃ sh, h.shape p = some sh ∧ wanted sh = true := by
  obtain ⟨nodes, follows, members⟩ := table.chains.chains _ (getShapeHash_lt hash table.bits)
  have entries : ∀ node ∈ nodes, entry node := fun node member => ((members node).mp member).1
  refine ⟨_, searchLoop_spec follows (fun node member => table.present node (entries node member))
    (chain_length follows fun node member => table.listed node (entries node member)), ?_⟩
  intro p found
  have member := mem_of_find?_eq_some found
  obtain ⟨sh, present⟩ := table.present p (entries p member)
  have here := find?_some found
  rw [present] at here
  exact ⟨entries p member, sh, present, here⟩

end Walk

section Link

variable {h : Heap V} {entry : Ptr → Prop} {p : Ptr} {sh : Shape}

theorem jsShapeHashLink_spec (table : Tabled h entry) (found : h.shape p = some sh) (out : ¬entry p)
    (listed : p ∈ h.gcObjList) :
    ∃ h', jsShapeHashLink p h = some h' ∧ Tabled h' (fun q => entry q ∨ q = p) ∧ Relinked h h' := by
  let b := getShapeHash sh.hash h.shapeHashBits
  let linked := h.setShape p { sh with shapeHashNext := h.shapeHash b }
  let h' : Heap V := { linked with
    shapeHash := update h.shapeHash b (some p)
    shapeHashCount := h.shapeHashCount + 1 }
  have relinked : Relinked h h' := by
    obtain ⟨core, list, array, objects⟩ := relinked_setShape found (h.shapeHash b)
    exact ⟨core, list, array, objects⟩
  have bucket : h'.bucketOf h.shapeHashBits p = b := by
    rw [relinked.bucketOf]
    simp [Heap.bucketOf, found, b]
  refine ⟨h', by simp [jsShapeHashLink, found, h', linked, b], ⟨table.bits, ?_, ?_, ?_⟩, relinked⟩
  · have old : IsTable h.nextOf h.shapeHash (2 ^ h.shapeHashBits) (h'.bucketOf h.shapeHashBits) entry :=
      table.chains.congr (fun _ => .rfl) (fun _ _ => rfl) (fun _ _ => rfl)
        (fun q _ => relinked.bucketOf _ q)
    apply old.push out
    · rw [bucket]
      exact getShapeHash_lt _ table.bits
    · rw [bucket]
      exact (congrFun nextOf_setShape p).trans (update_self ..)
    · intro q inside
      have other : q ≠ p := fun same => out (same ▸ inside)
      exact (congrFun nextOf_setShape q).trans (update_of_ne other ..)
    · intro c _
      rw [bucket]
      by_cases own : c = b
      · simp [h', own]
      · simp [h', own]
  · rintro q (inside | rfl)
    · exact table.listed q inside
    · exact listed
  · rintro q (inside | rfl)
    · exact relinked.present (table.present q inside)
    · exact relinked.present ⟨sh, found⟩

theorem unlinkLoop_spec {pred : Ptr} {shp : Shape} {target : Option Ptr} {fuel : Nat} {start : Option Ptr}
    {before after : List Ptr} (predFound : h.shape pred = some shp)
    (follows : Follows h.nextOf start (before ++ pred :: p :: after))
    (present : ∀ node ∈ before, ∃ sh, h.shape node = some sh) (bound : before.length < fuel) :
    unlinkLoop p target h fuel start = some (h.setShape pred { shp with shapeHashNext := target }) := by
  have unique := follows.nodup
  induction before generalizing start fuel with
  | nil =>
    obtain _ | rest := fuel
    · cases bound
    obtain ⟨rfl, next, -⟩ := follows
    rw [nextOf_eq predFound] at next
    simp [unlinkLoop, predFound, next]
  | cons node before ih =>
    obtain _ | rest := fuel
    · cases bound
    obtain ⟨rfl, behind⟩ := follows
    obtain ⟨shn, found⟩ := present node (by simp)
    have passes : shn.shapeHashNext ≠ some p := by
      intro hit
      rw [nextOf_eq found, hit] at behind
      cases before with
      | nil =>
        have same : some p = some pred := behind.1
        cases same
        simp at unique
      | cons first before =>
        have same : some p = some first := behind.1
        cases same
        simp at unique
    rw [nextOf_eq found] at behind
    have later := ih behind (fun n member => present n (.tail _ member))
      (Nat.lt_of_succ_lt_succ bound) (nodup_cons.mp unique).2
    simp [unlinkLoop, found, passes, later]

theorem jsShapeHashUnlink_spec (table : Tabled h entry) (isEntry : entry p) :
    ∃ h', jsShapeHashUnlink p h = some h' ∧ Tabled h' (fun q => entry q ∧ q ≠ p) ∧ Relinked h h' := by
  obtain ⟨sh, found⟩ := table.present p isEntry
  have bucket : h.bucketOf h.shapeHashBits p = getShapeHash sh.hash h.shapeHashBits := by
    simp [Heap.bucketOf, found]
  have small : getShapeHash sh.hash h.shapeHashBits < 2 ^ h.shapeHashBits := getShapeHash_lt _ table.bits
  obtain ⟨nodes, follows, members⟩ := table.chains.chains _ small
  obtain ⟨before, after, rfl⟩ := append_of_mem ((members p).mpr ⟨isEntry, bucket⟩)
  have entries : ∀ node ∈ before ++ p :: after, entry node := fun node member => ((members node).mp member).1
  have length := chain_length follows fun node member => table.listed node (entries node member)
  -- the entries that stay are still there once the links have changed
  have stays : ∀ h' : Heap V, Relinked h h' → (∀ q, entry q ∧ q ≠ p → q ∈ h'.gcObjList) ∧
      ∀ q, entry q ∧ q ≠ p → ∃ sh, h'.shape q = some sh := by
    intro h' relinked
    exact ⟨fun q inside => relinked.gcObjList ▸ table.listed q inside.1,
      fun q inside => relinked.present (table.present q inside.1)⟩
  rcases eq_nil_or_concat before with rfl | ⟨front, pred, rfl⟩
  · obtain ⟨head, rest⟩ := follows
    rw [nextOf_eq found] at rest
    let h' : Heap V := { h with
      shapeHash := update h.shapeHash (getShapeHash sh.hash h.shapeHashBits) sh.shapeHashNext
      shapeHashCount := h.shapeHashCount - 1 }
    have relinked : Relinked h h' := ⟨fun _ => rfl, rfl, rfl, rfl⟩
    refine ⟨h', by simp [jsShapeHashUnlink, found, head, h'], ⟨table.bits, ?_, (stays h' relinked).1,
      (stays h' relinked).2⟩, relinked⟩
    have chain : Follows h.nextOf (h.shapeHash (h.bucketOf h.shapeHashBits p)) ([] ++ p :: after) := by
      rw [bucket]
      exact ⟨head, by rwa [nextOf_eq found]⟩
    have behind : Follows h'.nextOf (h'.shapeHash (h.bucketOf h.shapeHashBits p)) ([] ++ after) := by
      rw [bucket]
      simp only [h', update_self]
      exact rest
    apply table.chains.remove chain behind (fun _ _ _ => rfl)
    intro b _ other
    rw [bucket] at other
    simp [h', other]
  · have chain := follows
    simp only [concat_eq_append, append_assoc, singleton_append] at follows entries length
    have unique := follows.nodup
    have outside : pred ∉ p :: after := (nodup_cons.mp unique.of_append_right).1
    obtain ⟨shp, predFound⟩ := table.present pred (entries pred (by simp))
    have notHead : h.shapeHash (getShapeHash sh.hash h.shapeHashBits) ≠ some p := by
      intro head
      cases front with
      | nil =>
        have same := follows.1.symm.trans head
        cases same
        exact outside (by simp)
      | cons first front =>
        have same := follows.1.symm.trans head
        cases same
        simp at unique
    have short : front.length < h.chainFuel := by
      simp only [length_append, length_cons] at length
      omega
    have walked : unlinkLoop p sh.shapeHashNext h h.chainFuel
        (h.shapeHash (getShapeHash sh.hash h.shapeHashBits)) = _ :=
      unlinkLoop_spec predFound follows
        (fun node member => table.present node (entries node (mem_append_left _ member))) short
    let unlinked := h.setShape pred { shp with shapeHashNext := sh.shapeHashNext }
    let h' : Heap V := { unlinked with shapeHashCount := h.shapeHashCount - 1 }
    have relinked : Relinked h h' := by
      obtain ⟨core, list, array, objects⟩ := relinked_setShape predFound sh.shapeHashNext
      exact ⟨core, list, array, objects⟩
    have links : h'.nextOf = update h.nextOf pred (h.nextOf p) := by
      rw [nextOf_eq found]
      exact nextOf_setShape
    refine ⟨h', ?_, ⟨table.bits, ?_, (stays h' relinked).1, (stays h' relinked).2⟩, relinked⟩
    · simp [jsShapeHashUnlink, found, notHead, walked, h', unlinked, Heap.setShape]
    · have rest : Follows h'.nextOf (h'.shapeHash (h.bucketOf h.shapeHashBits p)) (front ++ [pred] ++ after) := by
        rw [bucket, append_assoc, singleton_append]
        exact (Follows.unlink follows).congr fun q _ => congrFun links q
      have removed := table.chains.remove (by rw [bucket]; simpa using chain) rest
        (fun q _ elsewhere => by
          rw [links]
          apply update_of_ne
          rintro rfl
          exact elsewhere (((members q).mp (by simp)).2.trans bucket.symm))
        (fun _ _ _ => rfl)
      exact removed.congr (fun _ => .rfl) (fun _ _ => rfl) (fun _ _ => rfl) (fun q _ => relinked.bucketOf _ q)

end Link

section Resize

variable {h : Heap V} {entry : Ptr → Prop}

theorem moveShapes_spec {bits fuel : Nat} {start : Option Ptr} {nodes : List Ptr} {newHash : Nat → Option Ptr}
    (follows : Follows h.nextOf start nodes) (present : ∀ node ∈ nodes, ∃ sh, h.shape node = some sh)
    (bound : nodes.length < fuel) :
    ∃ h' newHash', moveShapes bits fuel start h newHash = some (h', newHash') ∧ Relinked h h' ∧
      h'.shapeHash = h.shapeHash ∧
      (h'.nextOf, newHash') = nodes.foldl (place (h.bucketOf bits)) (h.nextOf, newHash) := by
  induction nodes generalizing h start fuel newHash with
  | nil =>
    obtain _ | rest := fuel
    · cases bound
    rw [show start = none from follows]
    exact ⟨h, newHash, rfl, .refl h, rfl, rfl⟩
  | cons node nodes ih =>
    obtain _ | rest := fuel
    · cases bound
    have outside : node ∉ nodes := (nodup_cons.mp follows.nodup).1
    obtain ⟨rfl, behind⟩ := follows
    obtain ⟨sh, found⟩ := present node (by simp)
    rw [nextOf_eq found] at behind
    let b := getShapeHash sh.hash bits
    have bucket : h.bucketOf bits node = b := by simp [Heap.bucketOf, found, b]
    have relinked := relinked_setShape found (newHash b)
    obtain ⟨h', newHash', looped, relinked', heads, state⟩ :=
      @ih (h.setShape node { sh with shapeHashNext := newHash b }) rest sh.shapeHashNext
        (update newHash b (some node))
        (behind.congr fun q member => by
          have other : q ≠ node := fun same => outside (same ▸ member)
          rw [nextOf_setShape, update_of_ne other])
        (fun q member => relinked.present (present q (.tail _ member)))
        (Nat.lt_of_succ_lt_succ bound)
    refine ⟨h', newHash', ?_, relinked.trans relinked', heads, ?_⟩
    · simp [moveShapes, found, b] at looped ⊢
      exact looped
    · have buckets : (h.setShape node { sh with shapeHashNext := newHash b }).bucketOf bits =
          h.bucketOf bits := funext fun q => relinked.bucketOf bits q
      rw [state, buckets, nextOf_setShape, foldl_cons, place, bucket]

theorem moveBuckets_spec {bits : Nat} {buckets : List Nat} {chain : Nat → List Ptr} {newHash : Nat → Option Ptr}
    (unique : (buckets.flatMap chain).Nodup) (follows : ∀ b ∈ buckets, Follows h.nextOf (h.shapeHash b) (chain b))
    (present : ∀ b ∈ buckets, ∀ node ∈ chain b, node ∈ h.gcObjList ∧ ∃ sh, h.shape node = some sh) :
    ∃ h' newHash', moveBuckets bits buckets h newHash = some (h', newHash') ∧ Relinked h h' ∧
      (h'.nextOf, newHash') = (buckets.flatMap chain).foldl (place (h.bucketOf bits)) (h.nextOf, newHash) := by
  induction buckets generalizing h newHash with
  | nil => exact ⟨h, newHash, rfl, .refl h, rfl⟩
  | cons b buckets ih =>
    have first := follows b (by simp)
    obtain ⟨-, uniqueRest, apart⟩ := nodup_append.mp unique
    have length := chain_length first fun node member => (present b (by simp) node member).1
    obtain ⟨h1, newHash1, moved, relinked, heads, state⟩ :=
      moveShapes_spec first (fun node member => (present b (by simp) node member).2) length
    have placed := foldl_place_kept (h.bucketOf bits) (chain b) (h.nextOf, newHash)
    obtain ⟨h', newHash', looped, relinked', state'⟩ := @ih h1 newHash1 uniqueRest
      (by
        intro c member
        rw [heads]
        refine (follows c (mem_cons_of_mem _ member)).congr fun node inside => ?_
        have other : node ∉ chain b := fun own => apart node own node
          (mem_flatMap.mpr ⟨c, member, inside⟩) rfl
        rw [show h1.nextOf = (h1.nextOf, newHash1).1 from rfl, state]
        exact placed node other)
      (by
        intro c member node inside
        obtain ⟨listed, was⟩ := present c (.tail _ member) node inside
        exact ⟨relinked.gcObjList ▸ listed, relinked.present was⟩)
    refine ⟨h', newHash', by simp [moveBuckets, moved, looped], relinked.trans relinked', ?_⟩
    have buckets' : h1.bucketOf bits = h.bucketOf bits := funext fun q => relinked.bucketOf bits q
    rw [state', buckets', state, flatMap_cons, foldl_append]

theorem resizeShapeHash_spec {bits : Nat} (allocated : Bool) (table : Tabled h entry) :
    ∃ h', resizeShapeHash bits allocated h = some h' ∧ Tabled h' entry ∧ Relinked h h' := by
  unfold resizeShapeHash
  by_cases enough : allocated ∧ bits ≤ 30
  · rw [if_pos enough]
    obtain ⟨chain, follows, members, unique, everything⟩ := table.chains.exists_chains
    obtain ⟨h1, newHash, moved, relinked, state⟩ := @moveBuckets_spec _ h bits
      (range (2 ^ h.shapeHashBits)) chain (fun _ => none) unique
      (fun b inside => follows b (mem_range.mp inside))
      (fun b inside node member => by
        have isEntry := ((members b (mem_range.mp inside) node).mp member).1
        exact ⟨table.listed node isEntry, table.present node isEntry⟩)
    have empty : IsTable (h.nextOf, fun _ : Nat => (none : Option Ptr)).1
        (h.nextOf, fun _ : Nat => (none : Option Ptr)).2 (2 ^ bits) (h.bucketOf bits) fun _ => False :=
      isTable_empty fun _ _ => rfl
    have below : ∀ node ∈ (range (2 ^ h.shapeHashBits)).flatMap chain, h.bucketOf bits node < 2 ^ bits := by
      intro node member
      obtain ⟨sh, found⟩ := table.present node ((everything node).mp member)
      simp only [Heap.bucketOf, found, map_some, getD_some]
      exact getShapeHash_lt _ enough.2
    have placed := empty.place_all unique (fun _ _ absurd => absurd) below
    rw [← state] at placed
    refine ⟨{ h1 with shapeHash := newHash, shapeHashBits := bits }, by simp [moved],
      ⟨enough.2, ?_, ?_, ?_⟩, relinked.core, relinked.gcObjList, relinked.arrayShape, relinked.objects⟩
    · refine placed.congr ?_ (fun _ _ => rfl) (fun _ _ => rfl) (fun q _ => relinked.bucketOf bits q)
      intro node
      rw [everything node]
      simp
    · intro q isEntry
      exact relinked.gcObjList ▸ table.listed q isEntry
    · intro q isEntry
      exact relinked.present (table.present q isEntry)
  · rw [if_neg enough]
    exact ⟨h, rfl, table, .refl h⟩

end Resize

end Shapes
