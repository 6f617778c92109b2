import Partikle.Gc.Core
import Mathlib.Data.List.Perm.Basic
import Mathlib.Data.List.Count
import Mathlib.Tactic.Tauto

/-!
The first pass of a collection. `gc_decref` subtracts every reference held by a GC
object, so that only the external references stay counted. The invariant follows
the references already subtracted.
-/

namespace Gc

open ListHead Function List

def edges (rt : Runtime) (objs : List Ptr) : List Ptr := objs.flatMap rt.children

inductive Reachable (rt : Runtime) (objs : List Ptr) (external : Ptr → Nat) : Ptr → Prop
  | root {p} : p ∈ objs → 0 < external p → Reachable rt objs external p
  | child {p q} : Reachable rt objs external p → q ∈ rt.children p →
      Reachable rt objs external q

/-- The state in which a collection starts: every object is on `gc_obj_list`,
unmarked, and its count is that of its internal and external references. -/
structure Counted (rt : Runtime) (objs : List Ptr) (external : Ptr → Nat) : Prop where
  list : IsList rt.links .gcObjList (objs.map .link)
  closed : ∀ p ∈ objs, ∀ q ∈ rt.children p, q ∈ objs
  unmarked : ∀ p ∈ objs, rt.mark p = 0
  counted : ∀ p ∈ objs, rt.refCount p = (edges rt objs).count p + external p

structure Lists (rt : Runtime) (live dead : List Ptr) : Prop where
  gcObj : IsList rt.links .gcObjList (live.map .link)
  tmpObj : IsList rt.links .tmpObjList (dead.map .link)
  unique : (live ++ dead).Nodup

variable {rt start : Runtime} {live dead visited todo kept : List Ptr} {p : Ptr} {external : Ptr → Nat}

theorem Lists.disjoint (lists : Lists rt live dead) :
    List.Disjoint (Node.gcObjList :: live.map Node.link) (Node.tmpObjList :: dead.map Node.link) := by
  have apart := disjoint_of_nodup_append lists.unique
  intro node first second
  simp only [mem_cons, mem_map] at first second
  rcases first with rfl | ⟨p, inLive, rfl⟩
  · simp at second
  · rcases second with absurd | ⟨q, inDead, same⟩
    · simp at absurd
    · cases same
      exact apart inLive inDead

variable {before after removed : List Ptr} {fuel : Nat}

theorem Lists.toTmpObjList (lists : Lists rt (before ++ p :: after) dead) :
    Lists (rt.moveTo p .tmpObjList) (before ++ after) (dead ++ [p]) := by
  have apart := lists.disjoint
  have source := lists.gcObj
  simp only [map_append, map_cons] at apart source
  have moved := source.move lists.tmpObj apart
  refine ⟨by simpa [Runtime.moveTo] using moved.1, by simpa [Runtime.moveTo] using moved.2, ?_⟩
  refine (Perm.nodup_iff ?_).mp lists.unique
  simp only [append_assoc, cons_append]
  apply Perm.append_left before
  have rotated : ([p] ++ (after ++ dead)).Perm ((after ++ dead) ++ [p]) := perm_append_comm
  simpa using rotated

theorem Lists.toGcObjList (lists : Lists rt live (before ++ p :: after)) :
    Lists (rt.moveTo p .gcObjList) (live ++ [p]) (before ++ after) := by
  have apart : List.Disjoint (Node.tmpObjList :: (before ++ p :: after).map Node.link)
      (Node.gcObjList :: live.map Node.link) := fun node first second => lists.disjoint second first
  have source := lists.tmpObj
  simp only [map_append, map_cons] at apart source
  have moved := source.move lists.gcObj apart
  refine ⟨by simpa [Runtime.moveTo] using moved.2, by simpa [Runtime.moveTo] using moved.1, ?_⟩
  refine (Perm.nodup_iff ?_).mp lists.unique
  simp only [append_assoc]
  apply Perm.append_left live
  exact perm_middle

theorem Lists.setRefCount (lists : Lists rt live dead)
    (p : Ptr) (count : Nat) : Lists (rt.setRefCount p count) live dead :=
  ⟨lists.gcObj, lists.tmpObj, lists.unique⟩

theorem Lists.setMark (lists : Lists rt live dead) (p : Ptr) (mark : Nat) : Lists (rt.setMark p mark) live dead :=
  ⟨lists.gcObj, lists.tmpObj, lists.unique⟩

/-- Between two steps of `gc_decref`: `visited` are the objects whose references are
subtracted, `todo` the rest of the list, `removed` the references subtracted so far. -/
structure DecrefState (start rt : Runtime) (visited todo kept dead removed : List Ptr) : Prop where
  heap : rt.heap = start.heap
  lists : Lists rt (kept ++ todo) dead
  split : (kept ++ dead).Perm visited
  marked : ∀ p ∈ visited, rt.mark p = 1
  unmarked : ∀ p ∈ todo, rt.mark p = 0
  counts : ∀ p ∈ visited ++ todo, rt.refCount p + removed.count p = start.refCount p
  positive : ∀ p ∈ kept, 0 < rt.refCount p
  zero : ∀ p ∈ dead, rt.refCount p = 0

theorem count_append_singleton (items : List Ptr) (p q : Ptr) :
    (items ++ [p]).count q = items.count q + if p = q then 1 else 0 := by
  by_cases same : p = q <;> simp [same]

theorem refCount_setRefCount (p q : Ptr) (count : Nat) :
    (rt.setRefCount p count).refCount q = if p = q then count else rt.refCount q := by
  simp [Runtime.setRefCount, update_apply, eq_comm]

theorem gcDecrefChild_step (state : DecrefState start rt visited todo kept dead removed)
    (member : p ∈ visited ++ todo) (held : 0 < rt.refCount p) : ∃ next kept' dead', gcDecrefChild p rt = some next ∧
      DecrefState start next visited todo kept' dead' (removed ++ [p]) := by
  have counts : ∀ q ∈ visited ++ todo, (rt.setRefCount p (rt.refCount p - 1)).refCount q + (removed ++ [p]).count q =
        start.refCount q := by
    intro q inside
    have before := state.counts q inside
    rw [count_append_singleton, refCount_setRefCount]
    rcases eq_or_ne p q with rfl | same
    · simp only [↓reduceIte]
      omega
    · simp only [same, ↓reduceIte]
      omega
  have notDead : p ∉ dead := fun inside => by have := state.zero p inside; omega
  have zero : ∀ q ∈ dead, (rt.setRefCount p (rt.refCount p - 1)).refCount q = 0 := by
    intro q inside
    have different : q ≠ p := fun equal => notDead (equal ▸ inside)
    simpa [Runtime.setRefCount, update_of_ne different] using state.zero q inside
  by_cases drops : rt.refCount p - 1 = 0 ∧ rt.mark p = 1
  · -- the last reference of an object already visited goes: it leaves `gc_obj_list`
    have notTodo : p ∉ todo := fun inside => by have := state.unmarked p inside; omega
    have inVisited : p ∈ visited := (mem_append.mp member).resolve_right notTodo
    have inKept : p ∈ kept := (mem_append.mp (state.split.symm.subset inVisited)).resolve_right notDead
    obtain ⟨before, after, rfl⟩ := append_of_mem inKept
    have unique := state.lists.unique
    refine ⟨(rt.setRefCount p (rt.refCount p - 1)).moveTo p .tmpObjList, before ++ after, dead ++ [p], ?_, ?_⟩
    · simp [gcDecrefChild, held, Runtime.setRefCount, drops]
    · refine ⟨state.heap, ?_, ?_, state.marked, state.unmarked, counts, ?_, ?_⟩
      · have lists : Lists (rt.setRefCount p (rt.refCount p - 1)) (before ++ p :: (after ++ todo)) dead := by
          simpa using state.lists.setRefCount p (rt.refCount p - 1)
        simpa using lists.toTmpObjList
      · refine Perm.trans ?_ state.split
        have rotated : ((after ++ dead) ++ [p]).Perm ([p] ++ (after ++ dead)) := perm_append_comm
        simpa using Perm.append_left before rotated
      · intro q inside
        have parts := (nodup_append.mp (nodup_append.mp unique).1).1
        obtain ⟨whole, different⟩ := (mem_unlinked parts).mp inside
        have positive := state.positive q whole
        simpa [Runtime.moveTo, Runtime.setRefCount, update_of_ne different] using positive
      · intro q inside
        rcases mem_append.mp inside with old | new
        · exact zero q old
        · have same : q = p := mem_singleton.mp new
          subst same
          simpa [Runtime.moveTo, Runtime.setRefCount] using drops.1
  · refine ⟨rt.setRefCount p (rt.refCount p - 1), kept, dead, ?_, ?_⟩
    · simp only [gcDecrefChild, held, ↓reduceIte]
      rw [if_neg (by simpa [Runtime.setRefCount] using drops)]
    · refine ⟨state.heap, state.lists.setRefCount _ _, state.split, state.marked, state.unmarked, counts, ?_, zero⟩
      intro q inside
      rcases eq_or_ne q p with rfl | same
      · have marked := state.marked q (state.split.subset (mem_append_left _ inside))
        simp only [Runtime.setRefCount, update_self]
        omega
      · simpa [Runtime.setRefCount, update_of_ne same] using state.positive q inside

theorem gcDecrefChild_fold {children : List Ptr} (state : DecrefState start rt visited todo kept dead removed)
    (members : ∀ p ∈ children, p ∈ visited ++ todo)
    (enough : ∀ p ∈ children, (removed ++ children).count p ≤ start.refCount p) :
    ∃ next kept' dead', children.foldlM (fun state child => gcDecrefChild child state) rt = some next ∧
      DecrefState start next visited todo kept' dead' (removed ++ children) := by
  induction children generalizing rt kept dead removed with
  | nil => exact ⟨rt, kept, dead, rfl, by simpa using state⟩
  | cons child rest ih =>
    have member := members child (by simp)
    have held : 0 < rt.refCount child := by
      have counted := state.counts child member
      have bound := enough child (by simp)
      simp only [count_append, count_cons_self] at bound
      omega
    obtain ⟨next, kept', dead', stepped, nextState⟩ := gcDecrefChild_step state member held
    obtain ⟨final, kept'', dead'', folded, finalState⟩ := ih nextState
      (fun p inside => members p (.tail _ inside))
      (fun p inside => by simpa using enough p (.tail _ inside))
    refine ⟨final, kept'', dead'', ?_, by simpa using finalState⟩
    simp [stepped, folded]

theorem edges_append (rt : Runtime) (left right : List Ptr) :
    edges rt (left ++ right) = edges rt left ++ edges rt right := by
  simp [edges]

theorem children_of_heap {other : Runtime} (same : rt.heap = other.heap) (p : Ptr) :
    rt.children p = other.children p := by
  simp [Runtime.children, same]

theorem gcDecrefObject_step (counted : Counted start (visited ++ p :: todo) external)
    (state : DecrefState start rt visited (p :: todo) kept dead (edges start visited)) :
    ∃ next kept' dead', gcDecrefObject p rt = some next ∧
      DecrefState start next (visited ++ [p]) todo kept' dead' (edges start (visited ++ [p])) := by
  have all : ∀ q ∈ start.children p, q ∈ visited ++ p :: todo := counted.closed p (by simp)
  have enough : ∀ q ∈ start.children p, (edges start visited ++ start.children p).count q ≤ start.refCount q := by
    intro q inside
    rw [counted.counted q (all q inside)]
    simp only [edges, flatMap_append, flatMap_cons, count_append]
    omega
  obtain ⟨next, kept', dead', folded, after⟩ := gcDecrefChild_fold state all enough
  have edgesNext : edges start visited ++ start.children p = edges start (visited ++ [p]) := by simp [edges]
  have unmarked := state.unmarked p (by simp)
  have run : forChildren gcDecrefChild p rt = some next := by rwa [forChildren, children_of_heap state.heap]
  have unique := after.lists.unique
  have notKept : p ∉ kept' ∧ p ∉ todo ∧ p ∉ dead' := by
    simp only [append_assoc, cons_append, nodup_middle, nodup_cons,
      mem_append, not_or] at unique
    exact ⟨unique.1.1, unique.1.2.1, unique.1.2.2⟩
  have marked : ∀ q ∈ visited ++ [p], (next.setMark p 1).mark q = 1 := by
    intro q inside
    by_cases same : q = p
    · simp [Runtime.setMark, same]
    · have old : q ∈ visited := by simpa [same] using inside
      simpa [Runtime.setMark, update_of_ne same] using after.marked q old
  have stillUnmarked : ∀ q ∈ todo, (next.setMark p 1).mark q = 0 := by
    intro q inside
    have different : q ≠ p := fun equal => notKept.2.1 (equal ▸ inside)
    simpa [Runtime.setMark, update_of_ne different] using after.unmarked q (.tail _ inside)
  have counts : ∀ q ∈ (visited ++ [p]) ++ todo,
      next.refCount q + (edges start (visited ++ [p])).count q = start.refCount q := by
    intro q inside
    rw [← edgesNext]
    exact after.counts q (by simpa using inside)
  by_cases gone : next.refCount p = 0
  · refine ⟨(next.setMark p 1).moveTo p .tmpObjList, kept', dead' ++ [p], ?_, ?_⟩
    · simp [gcDecrefObject, unmarked, run, Runtime.setMark, gone]
    · refine ⟨after.heap, (after.lists.setMark p 1).toTmpObjList, ?_, marked, stillUnmarked, counts,
        after.positive, ?_⟩
      · simpa using Perm.append_right [p] after.split
      · intro q inside
        rcases mem_append.mp inside with old | new
        · exact after.zero q old
        · rwa [mem_singleton.mp new]
  · refine ⟨next.setMark p 1, kept' ++ [p], dead', ?_, ?_⟩
    · simp [gcDecrefObject, unmarked, run, Runtime.setMark, gone]
    · refine ⟨after.heap, by simpa using after.lists.setMark p 1, ?_, marked, stillUnmarked, counts,
        ?_, after.zero⟩
      · refine Perm.trans ?_ (Perm.append_right [p] after.split)
        simpa using Perm.append_left kept' (perm_append_comm : ([p] ++ dead').Perm (dead' ++ [p]))
      · intro q inside
        rcases mem_append.mp inside with old | new
        · exact after.positive q old
        · rw [mem_singleton.mp new]
          exact Nat.pos_of_ne_zero gone

theorem gcDecref_loop (bound : todo.length < fuel) (counted : Counted start (visited ++ todo) external)
    (state : DecrefState start rt visited todo kept dead (edges start visited)) : ∃ next kept' dead',
      forEachSafe .gcObjList gcDecrefObject fuel
      (some ((todo.map Node.link ++ [Node.gcObjList]).head (by simp))) rt = some next ∧
      DecrefState start next (visited ++ todo) [] kept' dead' (edges start (visited ++ todo)) := by
  induction todo generalizing rt visited kept dead fuel with
  | nil =>
    obtain _ | fuel := fuel
    · cases bound
    exact ⟨rt, kept, dead, by simp [forEachSafe], by simpa using state⟩
  | cons p todo ih =>
    obtain _ | fuel := fuel
    · cases bound
    obtain ⟨next, kept', dead', stepped, after⟩ := gcDecrefObject_step counted state
    have rest : Counted start ((visited ++ [p]) ++ todo) external := by simpa using counted
    obtain ⟨final, kept'', dead'', looped, finished⟩ := ih (by simpa using bound) rest after
    have cursor : rt.links.next (.link p) = some ((todo.map Node.link ++ [Node.gcObjList]).head (by simp)) := by
      have list := state.lists.gcObj
      simp only [map_append, map_cons] at list
      exact list.next_eq
    refine ⟨final, kept'', dead'', ?_, by simpa using finished⟩
    simp [forEachSafe, cursor, stepped, looped]

theorem gcDecref_spec {objs : List Ptr} (counted : Counted rt objs external) (bound : objs.length < fuel) :
    ∃ next kept dead, gcDecref fuel rt = some next ∧ next.heap = rt.heap ∧ Lists next kept dead ∧
      (kept ++ dead).Perm objs ∧ (∀ p ∈ objs, next.refCount p = external p) ∧ (∀ p ∈ kept, 0 < external p) ∧
      ∀ p ∈ dead, external p = 0 := by
  have frame : IsList (initListHead .tmpObjList rt.links) .gcObjList (objs.map .link) :=
    counted.list.initListHead (by simp)
  have unique : objs.Nodup := (nodup_cons.mp counted.list.nodup).2.of_map
  have initial : DecrefState rt { rt with links := initListHead .tmpObjList rt.links } [] objs [] [] (edges rt []) := by
    refine ⟨rfl, ⟨by simpa using frame, initListHead_isList _ _, by simpa using unique⟩, by simp,
      by simp, counted.unmarked, by simp [edges], by simp, by simp⟩
  obtain ⟨next, kept, dead, looped, state⟩ := gcDecref_loop bound (by simpa using counted) initial
  have perm : (kept ++ dead).Perm objs := by simpa using state.split
  have counts : ∀ p ∈ objs, next.refCount p = external p := by
    intro p inside
    have total := state.counts p (by simpa using inside)
    rw [counted.counted p inside] at total
    simp only [nil_append] at total
    omega
  refine ⟨next, kept, dead, ?_, state.heap, by simpa using state.lists, perm, counts, ?_, ?_⟩
  · rwa [gcDecref, frame.next_head]
  · intro p inside
    rw [← counts p (perm.subset (mem_append_left _ inside))]
    exact state.positive p inside
  · intro p inside
    rw [← counts p (perm.subset (mem_append_right _ inside))]
    exact state.zero p inside

end Gc
