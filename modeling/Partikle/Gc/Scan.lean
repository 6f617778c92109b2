import Partikle.Gc.Decref

/-!
The second pass of a collection. `gc_scan` adds back the references of every object
that is held from outside, directly or not, and what stays on `tmp_obj_list` is the
garbage. Both loops grow what they iterate over, so the invariant follows the
references already added.
-/

namespace Gc

open ListHead Function List Option

/-- Between two steps of the first loop of `gc_scan`: `scanned` and `todo` together are
`gc_obj_list`, and `added` the references added back so far. -/
structure ScanState (start rt : Runtime) (objs : List Ptr) (external : Ptr → Nat)
    (scanned todo dead added : List Ptr) : Prop where
  heap : rt.heap = start.heap
  lists : Lists rt (scanned ++ todo) dead
  split : (scanned ++ todo ++ dead).Perm objs
  counts : ∀ p ∈ objs, rt.refCount p = external p + added.count p
  positive : ∀ p ∈ scanned ++ todo, 0 < rt.refCount p
  zero : ∀ p ∈ dead, rt.refCount p = 0
  reached : ∀ p ∈ scanned ++ todo, Reachable start objs external p

variable {start rt : Runtime} {objs scanned todo dead added : List Ptr} {external : Ptr → Nat}

variable {p : Ptr} {fuel : Nat}

section

variable (state : ScanState start rt objs external scanned todo dead added)

include state

theorem ScanState.setMark (p : Ptr) (mark : Nat) :
    ScanState start (rt.setMark p mark) objs external scanned todo dead added :=
  { state with lists := state.lists.setMark p mark }

theorem gcScanIncrefChild_step (member : p ∈ objs) (reached : Reachable start objs external p) :
    ∃ next todo' dead', gcScanIncrefChild p rt = some next ∧ todo'.length + dead'.length = todo.length + dead.length ∧
      ScanState start next objs external scanned todo' dead' (added ++ [p]) := by
  have counts : ∀ q ∈ objs, (rt.setRefCount p (rt.refCount p + 1)).refCount q =
      external q + (added ++ [p]).count q := by
    intro q inside
    have before := state.counts q inside
    rw [count_append_singleton, refCount_setRefCount]
    by_cases same : p = q <;> simp only [same, ↓reduceIte] <;> omega
  have grows : ∀ q, rt.refCount q ≤ (rt.setRefCount p (rt.refCount p + 1)).refCount q := by
    intro q
    rw [refCount_setRefCount]
    split <;> simp_all
  by_cases first : rt.refCount p = 0
  · -- a reference from a kept object to one given up: it returns to `gc_obj_list`
    have inDead : p ∈ dead := by
      refine (mem_append.mp (state.split.symm.subset member)).resolve_left fun inside => ?_
      have := state.positive p inside
      omega
    obtain ⟨before, after, rfl⟩ := append_of_mem inDead
    have moved := (state.lists.setRefCount p (rt.refCount p + 1)).toGcObjList
    have members : ∀ q ∈ scanned ++ (todo ++ [p]), q ∈ scanned ++ todo ∨ q = p := by
      intro q inside
      simp only [mem_append, mem_singleton] at inside ⊢
      tauto
    refine ⟨((rt.setRefCount p (rt.refCount p + 1)).moveTo p .gcObjList).setMark p 0,
      todo ++ [p], before ++ after, ?_, by simp; omega, ?_⟩
    · simp [gcScanIncrefChild, Runtime.setRefCount, first]
    · refine ⟨state.heap, ?_, ?_, counts, ?_, ?_, ?_⟩
      · simpa using moved.setMark p 0
      · refine Perm.trans ?_ state.split
        have rotated : ([p] ++ (before ++ after)).Perm (before ++ p :: after) := by
          simpa using (perm_middle (a := p)).symm
        simpa using Perm.append_left (scanned ++ todo) rotated
      · intro q inside
        rcases members q inside with old | rfl
        · exact Nat.lt_of_lt_of_le (state.positive q old) (grows q)
        · simp [Runtime.setMark, Runtime.moveTo, Runtime.setRefCount]
      · intro q inside
        have unique := (nodup_append.mp state.lists.unique).2.1
        obtain ⟨whole, different⟩ := (mem_unlinked unique).mp inside
        have zero := state.zero q whole
        simpa [Runtime.setMark, Runtime.moveTo, Runtime.setRefCount, update_of_ne different] using zero
      · intro q inside
        rcases members q inside with old | rfl
        · exact state.reached q old
        · exact reached
  · refine ⟨rt.setRefCount p (rt.refCount p + 1), todo, dead, ?_, rfl, ?_⟩
    · simp [gcScanIncrefChild, Runtime.setRefCount, first]
    · refine ⟨state.heap, state.lists.setRefCount _ _, state.split, counts, ?_, ?_, state.reached⟩
      · intro q inside
        exact Nat.lt_of_lt_of_le (state.positive q inside) (grows q)
      · intro q inside
        have different : q ≠ p := by
          rintro rfl
          exact first (state.zero q inside)
        simpa [Runtime.setRefCount, update_of_ne different] using state.zero q inside

theorem gcScanIncrefChild_fold {children : List Ptr} (members : ∀ p ∈ children, p ∈ objs)
    (reached : ∀ p ∈ children, Reachable start objs external p) :
    ∃ next todo' dead', children.foldlM (fun state child => gcScanIncrefChild child state) rt = some next ∧
      todo'.length + dead'.length = todo.length + dead.length ∧
      ScanState start next objs external scanned todo' dead' (added ++ children) := by
  induction children generalizing rt todo dead added with
  | nil => exact ⟨rt, todo, dead, rfl, rfl, by simpa using state⟩
  | cons child rest ih =>
    obtain ⟨next, todo', dead', stepped, sizes, nextState⟩ :=
      gcScanIncrefChild_step state (members child (by simp)) (reached child (by simp))
    obtain ⟨final, todo'', dead'', folded, finalSizes, finalState⟩ := ih nextState
      (fun p inside => members p (.tail _ inside))
      (fun p inside => reached p (.tail _ inside))
    refine ⟨final, todo'', dead'', ?_, by omega, by simpa using finalState⟩
    simp [stepped, folded]

end

theorem gcScan_loop (bound : todo.length + dead.length < fuel) (closed : ∀ p ∈ objs, ∀ q ∈ start.children p, q ∈ objs)
    (state : ScanState start rt objs external scanned todo dead (edges start scanned)) : ∃ next live dead',
      forEach .gcObjList gcScanObject fuel
      (some ((todo.map Node.link ++ [Node.gcObjList]).head (by simp))) rt = some next ∧
      ScanState start next objs external live [] dead' (edges start live) := by
  induction fuel generalizing rt scanned todo dead with
  | zero => omega
  | succ fuel ih =>
    cases todo with
    | nil => exact ⟨rt, scanned, dead, by simp [forEach], by simpa using state⟩
    | cons p todo =>
      have member : p ∈ objs := state.split.subset (by simp)
      have positive := state.positive p (by simp)
      have visited : ScanState start (rt.setMark p 0) objs external (scanned ++ [p]) todo dead
          (edges start scanned) := by
        have marked := state.setMark p 0
        exact ⟨marked.heap, by simpa using marked.lists, by simpa using marked.split,
          marked.counts, by simpa using marked.positive, marked.zero,
          by simpa using marked.reached⟩
      obtain ⟨next, todo', dead', folded, sizes, after⟩ :=
        gcScanIncrefChild_fold visited (closed p member)
          (fun q inside => Reachable.child (state.reached p (by simp)) inside)
      have edgesNext : edges start scanned ++ start.children p = edges start (scanned ++ [p]) := by
        simp [edges]
      rw [edgesNext] at after
      have run : gcScanObject p rt = some next := by
        have children : (rt.setMark p 0).children p = start.children p := children_of_heap state.heap p
        simp only [gcScanObject, positive, ↓reduceIte, forChildren, children]
        exact folded
      have cursor : next.links.next (.link p) = some ((todo'.map Node.link ++ [Node.gcObjList]).head (by simp)) := by
        have list := after.lists.gcObj
        simp only [append_assoc, singleton_append, map_append, map_cons] at list
        exact list.next_eq
      have shorter : todo'.length + dead'.length < fuel := by
        simp only [length_cons] at bound
        omega
      obtain ⟨final, live, garbage, looped, finished⟩ := ih shorter after
      refine ⟨final, live, garbage, ?_, finished⟩
      simp [forEach, run, cursor, looped]

def Runtime.addRefs (rt : Runtime) (targets : List Ptr) : Runtime :=
  { rt with refCount := fun p => rt.refCount p + targets.count p }

theorem gcScanIncrefChild2_fold (rt : Runtime) (children : List Ptr) :
    children.foldlM (fun state child => gcScanIncrefChild2 child state) rt = some (rt.addRefs children) := by
  induction children generalizing rt with
  | nil => simp [Runtime.addRefs]
  | cons child rest ih =>
    have step : gcScanIncrefChild2 child rt = some (rt.setRefCount child (rt.refCount child + 1)) := rfl
    rw [foldlM_cons, step, bind_eq_bind, bind_some, ih]
    simp only [Runtime.addRefs, Runtime.setRefCount, some.injEq, Runtime.mk.injEq, true_and, and_true]
    funext p
    rcases eq_or_ne p child with rfl | same
    · simp only [update_self, count_cons_self]
      omega
    · simp [update_of_ne same, count_cons_of_ne (Ne.symm same)]

theorem gcScan_restore {done : List Ptr} (bound : todo.length < fuel)
    (list : IsList rt.links .tmpObjList ((done ++ todo).map .link)) :
    forEach .tmpObjList (forChildren gcScanIncrefChild2) fuel
      (some ((todo.map Node.link ++ [Node.tmpObjList]).head (by simp))) rt = some (rt.addRefs (edges rt todo)) := by
  induction todo generalizing rt done fuel with
  | nil =>
    obtain _ | fuel := fuel
    · cases bound
    simp [forEach, Runtime.addRefs, edges]
  | cons p todo ih =>
    obtain _ | fuel := fuel
    · cases bound
    have cursor : rt.links.next (.link p) = some ((todo.map Node.link ++ [Node.tmpObjList]).head (by simp)) := by
      simp only [map_append, map_cons] at list
      exact list.next_eq
    have rest : IsList (rt.addRefs (rt.children p)).links .tmpObjList (((done ++ [p]) ++ todo).map .link) := by
      simpa [Runtime.addRefs] using list
    have step : forChildren gcScanIncrefChild2 p rt = some (rt.addRefs (rt.children p)) :=
      gcScanIncrefChild2_fold rt (rt.children p)
    have looped := ih (by simpa using bound) rest
    have next : (rt.addRefs (rt.children p)).links.next (.link p) = rt.links.next (.link p) := rfl
    have merged : (rt.addRefs (rt.children p)).addRefs
        (edges (rt.addRefs (rt.children p)) todo) = rt.addRefs (edges rt (p :: todo)) := by
      have same : edges (rt.addRefs (rt.children p)) todo = edges rt todo := rfl
      rw [same]
      simp [Runtime.addRefs, edges, Nat.add_assoc]
    simp [forEach, step, next, cursor, looped, merged]

theorem ScanState.live_of_reachable {live : List Ptr} (closed : ∀ p ∈ objs, ∀ q ∈ start.children p, q ∈ objs)
    (state : ScanState start rt objs external live [] dead (edges start live))
    (reached : Reachable start objs external p) : p ∈ live := by
  have split : ∀ q ∈ objs, rt.refCount q ≠ 0 → q ∈ live := by
    intro q inside held
    have placed := state.split.symm.subset inside
    simp only [append_nil, mem_append] at placed
    exact placed.resolve_right fun garbage => held (state.zero q garbage)
  induction reached with
  | root member held =>
    apply split _ member
    rw [state.counts _ member]
    omega
  | @child source target _ edge ih =>
    have member : source ∈ objs := state.split.subset (by simp [ih])
    have inside := closed source member target edge
    apply split target inside
    rw [state.counts target inside]
    have counted : 0 < (edges start live).count target :=
      count_pos_iff.mpr (mem_flatMap.mpr ⟨source, ih, edge⟩)
    omega

/-- After `gc_decref` and `gc_scan`, `tmp_obj_list` holds exactly the objects that no
externally held object reaches, `gc_obj_list` the others, and every count is what it was. -/
theorem trialDeletion_correct (rt : Runtime) (objs : List Ptr) (external : Ptr → Nat) (fuel : Nat)
    (counted : Counted rt objs external) (bound : objs.length < fuel) :
    ∃ (final : Runtime) (live dead : List Ptr), (gcDecref fuel rt >>= gcScan fuel) = some final ∧
      IsList final.links .gcObjList (live.map .link) ∧ IsList final.links .tmpObjList (dead.map .link) ∧
      (∀ p, p ∈ dead ↔ p ∈ objs ∧ ¬ Reachable rt objs external p) ∧
      (∀ p, p ∈ live ↔ p ∈ objs ∧ Reachable rt objs external p) ∧ ∀ p ∈ objs, final.refCount p = rt.refCount p := by
  obtain ⟨middle, kept, given, decremented, heap, lists, perm, counts, held, dropped⟩ :=
    gcDecref_spec counted bound
  have sizes : kept.length + given.length = objs.length := by simpa using perm.length_eq
  have initial : ScanState rt middle objs external [] kept given (edges rt []) := by
    refine ⟨heap, by simpa using lists, by simpa using perm, by simpa [edges] using counts, ?_, ?_, ?_⟩
    · intro p inside
      rw [counts p (perm.subset (mem_append_left _ (by simpa using inside)))]
      exact held p (by simpa using inside)
    · intro p inside
      rw [counts p (perm.subset (mem_append_right _ inside))]
      exact dropped p inside
    · intro p inside
      have member : p ∈ kept := by simpa using inside
      exact Reachable.root (perm.subset (mem_append_left _ member)) (held p member)
  obtain ⟨scanned, live, dead, looped, state⟩ := gcScan_loop
    (show kept.length + given.length < fuel by omega) counted.closed initial
  have split : (live ++ dead).Perm objs := by simpa using state.split
  have deadSize : dead.length < fuel := by
    have := split.length_eq
    simp only [length_append] at this
    omega
  have garbage : IsList scanned.links .tmpObjList (([] ++ dead).map .link) := state.lists.tmpObj
  have restored := gcScan_restore deadSize garbage
  have liveIff : ∀ p, p ∈ live ↔ p ∈ objs ∧ Reachable rt objs external p := by
    intro p
    constructor
    · intro inside
      exact ⟨split.subset (mem_append_left _ inside), state.reached p (by simpa using inside)⟩
    · rintro ⟨_, reached⟩
      exact state.live_of_reachable counted.closed reached
  refine ⟨scanned.addRefs (edges scanned dead), live, dead, ?_, ?_, state.lists.tmpObj, ?_, liveIff, ?_⟩
  · have firstNext := lists.gcObj.next_head
    have secondNext := state.lists.tmpObj.next_head
    simp [decremented, gcScan, firstNext, looped, secondNext, restored]
  · have list := state.lists.gcObj
    rwa [append_nil] at list
  · intro p
    have unique := state.lists.unique
    simp only [append_nil] at unique
    constructor
    · intro inside
      refine ⟨split.subset (mem_append_right _ inside), fun reached => ?_⟩
      exact disjoint_of_nodup_append unique ((liveIff p).mpr
        ⟨split.subset (mem_append_right _ inside), reached⟩) inside
    · rintro ⟨member, unreached⟩
      refine (mem_append.mp (split.symm.subset member)).resolve_left fun inside => ?_
      exact unreached ((liveIff p).mp inside).2
  · intro p member
    have total : (edges rt _).count p = (edges rt _).count p := (split.flatMap_right _).count_eq p
    have sameEdges : edges scanned dead = edges rt dead :=
      flatMap_congr fun q _ => children_of_heap state.heap q
    have final : (scanned.addRefs (edges scanned dead)).refCount p =
        scanned.refCount p + (edges scanned dead).count p := rfl
    rw [edges_append, count_append] at total
    rw [final, counted.counted p member, ← total, sameEdges, state.counts p member]
    omega

def cycleRuntime : Runtime where
  heap p := if p = 1 then .shape (some 2) else if p = 2 then .shape (some 1) else .shape none
  refCount _ := 1
  mark _ := 0
  links := listAddTail (.link 2) .gcObjList (listAddTail (.link 1) .gcObjList
    (listAddTail (.link 0) .gcObjList (initListHead .gcObjList ⟨fun _ => none, fun _ => none⟩)))

theorem trialDeletion_correct_cycle :
    ∃ (final : Runtime) (live dead : List Ptr),
      (gcDecref 4 cycleRuntime >>= gcScan 4) = some final ∧
      IsList final.links .gcObjList (live.map .link) ∧
      IsList final.links .tmpObjList (dead.map .link) ∧
      (∀ p, p ∈ dead ↔ p ∈ [0, 1, 2] ∧
        ¬ Reachable cycleRuntime [0, 1, 2] (fun p => if p = 0 then 1 else 0) p) ∧
      (∀ p, p ∈ live ↔ p ∈ [0, 1, 2] ∧
        Reachable cycleRuntime [0, 1, 2] (fun p => if p = 0 then 1 else 0) p) ∧
      ∀ p ∈ [0, 1, 2], final.refCount p = cycleRuntime.refCount p := by
  refine trialDeletion_correct cycleRuntime [0, 1, 2] (fun p => if p = 0 then 1 else 0) 4 ?_ (by decide)
  refine ⟨?_, by decide, by decide, by decide⟩
  have empty := initListHead_isList (⟨fun _ => none, fun _ => none⟩ : Links Node) Node.gcObjList
  have first := empty.addTail (show Node.link 0 ∉ [Node.gcObjList] by decide)
  have second := first.addTail (show Node.link 1 ∉ [Node.gcObjList, .link 0] by decide)
  exact second.addTail (show Node.link 2 ∉ [Node.gcObjList, .link 0, .link 1] by decide)

end Gc
