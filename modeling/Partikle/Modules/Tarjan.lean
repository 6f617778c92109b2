import Partikle.Modules.Evaluate

/-!
What holds while modules are evaluated. The modules on the stack are those whose component is not complete; the
completed ones form components of the graph, each with the module as its root that was entered first.
-/

namespace Modules

open Dfs Function List

variable {n : Nat} {E : Type}

def requests (g : Graph n) (m : Fin n) : List (Fin n) := (g m).requested

def Done (s : EvalState n E) (x : Fin n) : Prop := s.status x = .evaluated ∧ s.evalException x = none

def seen (s : EvalState n E) : Set (Fin n) := {x | s.status x ≠ .linked}

/-- The part of the graph that has been evaluated, and which modules are on the stack. -/
structure Settled (g : Graph n) (s : EvalState n E) : Prop where
  closed : ∀ x y, Done s x → Edge (requests g) x y → Done s y
  rooted : ∀ x, Done s x → ∃ r, s.cycleRoot x = some r ∧ Done s r ∧ Mutual (requests g) x r
  same : ∀ x y, Done s x → Mutual (requests g) x y → s.cycleRoot y = s.cycleRoot x
  first : ∀ x y r, Done s x → s.cycleRoot x = some r → Mutual (requests g) x y → s.dfsIndex r ≤ s.dfsIndex y
  failed : ∀ x e, s.evalException x = some e → s.status x = .evaluated ∧
    ∃ r, s.cycleRoot x = some r ∧ s.evalException r = some e ∧ s.promise r = some (.rejected e)
  onStack : ∀ x, s.status x = .evaluating ↔ x ∈ s.stack
  distinct : s.stack.Nodup

/-- The stack, while the modules of `path` are being evaluated. Each of these reaches what stands above it on the
stack; every module of the stack reaches one of them below it, and no module below its ancestor index. -/
structure Open (g : Graph n) (s : EvalState n E) (path : List (Fin n)) (index : Nat) : Prop where
  sorted : s.stack.Pairwise fun x y => s.dfsIndex y < s.dfsIndex x
  below : ∀ x ∈ s.stack, s.dfsIndex x < index
  held : ∀ p ∈ path, p ∈ s.stack
  above : ∀ p ∈ path, ∀ x ∈ s.stack, s.dfsIndex p ≤ s.dfsIndex x → Reaches (requests g) p x
  back : ∀ x ∈ s.stack, ∃ p ∈ path, s.dfsIndex p ≤ s.dfsIndex x ∧ Reaches (requests g) x p
  ancestor : ∀ x ∈ s.stack, s.dfsAncestorIndex x ≤ s.dfsIndex x ∧
    ∃ y ∈ s.stack, s.dfsAncestorIndex x = s.dfsIndex y ∧ Reaches (requests g) x y
  edges : ∀ x ∈ s.stack, x ∉ path → ∀ y, Edge (requests g) x y →
    Done s y ∨ y ∈ s.stack ∧ s.dfsAncestorIndex x ≤ s.dfsIndex y

def Lowest (s : EvalState n E) (m : Fin n) : Prop :=
  ∀ x ∈ s.stack, s.dfsIndex m ≤ s.dfsIndex x → s.dfsAncestorIndex m ≤ s.dfsAncestorIndex x

def Handled (s : EvalState n E) (m : Fin n) (requested : List (Fin n)) : Prop :=
  ∀ y ∈ requested, Done s y ∨ y ∈ s.stack ∧ s.dfsAncestorIndex m ≤ s.dfsIndex y

structure Kept (m : Option (Fin n)) (s s' : EvalState n E) : Prop where
  status : ∀ x, s.status x ≠ .linked → s'.status x = s.status x
  dfsIndex : ∀ x, s.status x ≠ .linked → s'.dfsIndex x = s.dfsIndex x
  cycleRoot : ∀ x, s.status x ≠ .linked → s'.cycleRoot x = s.cycleRoot x
  ancestor : ∀ x, s.status x ≠ .linked → m ≠ some x → s'.dfsAncestorIndex x = s.dfsAncestorIndex x
  evalException : s'.evalException = s.evalException
  promise : s'.promise = s.promise

def Normal (body : Bodies n E) : List (Fin n) → List (Fin n) → Prop
  | _, [] => True
  | ran, x :: rest => body ran x = none ∧ Normal body (ran ++ [x]) rest

def failed (s : EvalState n E) : Set (Fin n) := {x | s.evalException x ≠ none}

/-- Why an evaluation behind the state `s` stops with the exception `e` after these bodies: the last one has thrown
it, it is the exception of a module that had failed before, or the C stack had no room. -/
def Cause (body : Bodies n E) (overflow : E) (s : EvalState n E) (e : E) (done : List (Fin n)) :
    Stop (Fin n) → Prop
  | .deep => Normal body s.ran done ∧ e = overflow
  | .bad y => Normal body s.ran done ∧ s.evalException y = some e
  | .last x => ∃ before, done = before ++ [x] ∧ Normal body s.ran before ∧ body (s.ran ++ before) x = some e

/-- An evaluation that has returned. `pre` and `post` are the new modules in the order of entry and of execution,
`new` those that are still on the stack. -/
structure Passed (g : Graph n) (body : Bodies n E) (frames : Nat) (path starts : List (Fin n))
    (index : Nat) (s : EvalState n E) (i : Nat) (s' : EvalState n E) (pre post new : List (Fin n)) : Prop where
  goes : Goes (requests g) (failed s) frames (seen s) starts pre post
  ran : s'.ran = s.ran ++ post
  normal : Normal body s.ran post
  count : i = index + pre.length
  numbered : ∀ k x, pre[k]? = some x → s'.dfsIndex x = index + k
  seen : seen s' = seen s ∪ {x | x ∈ pre}
  settled : Settled g s'
  isOpen : Open g s' path i
  stack : s'.stack = new ++ s.stack
  fresh : ∀ x ∈ new, x ∈ pre

structure Broken (g : Graph n) (body : Bodies n E) (overflow : E) (frames : Nat)
    (starts : List (Fin n)) (s : EvalState n E) (e : E) (s' : EvalState n E) (some' : List (Fin n))
    (stop : Stop (Fin n)) : Prop where
  ran : s'.ran = s.ran ++ some'
  stops : Stops (requests g) (Modules.failed s) frames (Modules.seen s) starts some' stop
  cause : Cause body overflow s e some' stop
  settled : Settled g s'
  status : ∀ x, s.status x ≠ .linked → s'.status x = s.status x
  cycleRoot : ∀ x, s.status x ≠ .linked → s'.cycleRoot x = s.cycleRoot x
  evalException : s'.evalException = s.evalException
  promise : s'.promise = s.promise
  stack : ∃ new, s'.stack = new ++ s.stack
  entered : ∀ x ∈ some', s'.status x ≠ .linked

variable {g : Graph n} {body : Bodies n E} {overflow : E} {frames : Nat}
  {s s' s'' : EvalState n E} {m : Fin n} {index i : Nat} {path : List (Fin n)}

theorem Normal.append {ran first second : List (Fin n)} (left : Normal body ran first)
    (right : Normal body (ran ++ first) second) : Normal body ran (first ++ second) := by
  induction first generalizing ran with
  | nil => simpa using right
  | cons x first ih =>
    refine ⟨left.1, ih left.2 ?_⟩
    simpa using right

variable {but : Option (Fin n)} {x : Fin n}

theorem Kept.refl : Kept but s s :=
  ⟨fun _ _ => rfl, fun _ _ => rfl, fun _ _ => rfl, fun _ _ _ => rfl, rfl, rfl⟩

theorem Done.kept (done : Done s x) (kept : Kept but s s') : Done s' x := by
  have entered : s.status x ≠ .linked := by simp [done.1]
  exact ⟨(kept.status x entered).trans done.1, by rw [kept.evalException]; exact done.2⟩

theorem Kept.weaken (kept : Kept none s s') (but : Option (Fin n)) : Kept but s s' :=
  { kept with ancestor := fun x here _ => kept.ancestor x here (by simp) }

theorem Kept.trans (first : Kept but s s') (second : Kept but s' s'') : Kept but s s'' := by
  have entered : ∀ x, s.status x ≠ .linked → s'.status x ≠ .linked := by
    intro x here
    rwa [first.status x here]
  refine ⟨?_, ?_, ?_, ?_, second.evalException.trans first.evalException, second.promise.trans first.promise⟩
  · intro x here
    exact (second.status x (entered x here)).trans (first.status x here)
  · intro x here
    exact (second.dfsIndex x (entered x here)).trans (first.dfsIndex x here)
  · intro x here
    exact (second.cycleRoot x (entered x here)).trans (first.cycleRoot x here)
  · intro x here different
    exact (second.ancestor x (entered x here) different).trans (first.ancestor x here different)

section Enter

theorem Settled.linked (settled : Settled g s) (linked : s.status m = .linked) :
    s.evalException m = none ∧ m ∉ s.stack ∧ ¬Done s m := by
  refine ⟨?_, ?_, ?_⟩
  · cases exception : s.evalException m with
    | none => rfl
    | some e =>
      have evaluated := (settled.failed m e exception).1
      simp [linked] at evaluated
  · intro inside
    have evaluating := (settled.onStack m).mpr inside
    simp [linked] at evaluating
  · rintro ⟨evaluated, -⟩
    simp [linked] at evaluated

theorem Settled.entered (settled : Settled g s) : ∀ x ∈ s.stack, s.status x ≠ .linked := by
  intro x onStack
  rw [(settled.onStack x).mpr onStack]
  simp

theorem Open.kept (isOpen : Open g s path index) (settled : Settled g s) (kept : Kept none s s')
    (stack : s'.stack = s.stack) (more : index ≤ i) : Open g s' path i := by
  have entered := settled.entered
  have indexes : ∀ x ∈ s.stack, s'.dfsIndex x = s.dfsIndex x := fun x inside => kept.dfsIndex x (entered x inside)
  have ancestors : ∀ x ∈ s.stack, s'.dfsAncestorIndex x = s.dfsAncestorIndex x :=
    fun x inside => kept.ancestor x (entered x inside) (by simp)
  refine ⟨?_, ?_, ?_, ?_, ?_, ?_, ?_⟩
  · rw [stack]
    apply isOpen.sorted.imp_of_mem
    intro x y inside inside' less
    rwa [indexes x inside, indexes y inside']
  · intro x inside
    rw [stack] at inside
    rw [indexes x inside]
    exact (isOpen.below x inside).trans_le more
  · intro p onPath
    rw [stack]
    exact isOpen.held p onPath
  · intro p onPath x inside high
    rw [stack] at inside
    rw [indexes p (isOpen.held p onPath), indexes x inside] at high
    exact isOpen.above p onPath x inside high
  · intro x inside
    rw [stack] at inside
    obtain ⟨p, onPath, low, reach⟩ := isOpen.back x inside
    refine ⟨p, onPath, ?_, reach⟩
    rwa [indexes p (isOpen.held p onPath), indexes x inside]
  · intro x inside
    rw [stack] at inside ⊢
    obtain ⟨low, y, inside', same, reach⟩ := isOpen.ancestor x inside
    rw [ancestors x inside, indexes x inside]
    exact ⟨low, y, inside', by rwa [indexes y inside'], reach⟩
  · intro x inside outside y edge
    rw [stack] at inside ⊢
    rw [ancestors x inside]
    rcases isOpen.edges x inside outside y edge with done | ⟨inside', low⟩
    · exact .inl (done.kept kept)
    · exact .inr ⟨inside', by rwa [indexes y inside']⟩

theorem kept_enter (index : Nat) (linked : s.status m = .linked) : Kept none s (s.enter m index) := by
  have other : ∀ x, s.status x ≠ .linked → x ≠ m := by
    rintro x here rfl
    exact here linked
  exact ⟨fun x here => update_of_ne (other x here) _ _, fun x here => update_of_ne (other x here) _ _,
    fun _ _ => rfl, fun x here _ => update_of_ne (other x here) _ _, rfl, rfl⟩

theorem enter_status_of_ne (different : x ≠ m) : (s.enter m index).status x = s.status x := by
  simp [EvalState.enter, update_of_ne different]

theorem Settled.of_done (settled : Settled g s) (done : ∀ x, Done s' x ↔ Done s x)
    (same : ∀ x, Done s x → s'.cycleRoot x = s.cycleRoot x ∧ s'.dfsIndex x = s.dfsIndex x)
    (failed : ∀ x e, s'.evalException x = some e → s'.status x = .evaluated ∧ ∃ r, s'.cycleRoot x = some r ∧
      s'.evalException r = some e ∧ s'.promise r = some (.rejected e))
    (onStack : ∀ x, s'.status x = .evaluating ↔ x ∈ s'.stack) (distinct : s'.stack.Nodup) : Settled g s' := by
  refine ⟨?_, ?_, ?_, ?_, failed, onStack, distinct⟩
  · intro x y here edge
    exact (done y).mpr (settled.closed x y ((done x).mp here) edge)
  · intro x here
    have before := (done x).mp here
    obtain ⟨r, root, inside, both⟩ := settled.rooted x before
    exact ⟨r, (same x before).1.trans root, (done r).mpr inside, both⟩
  · intro x y here both
    have before := (done x).mp here
    rw [(same x before).1, (same y (reaches_closed settled.closed before both.1)).1]
    exact settled.same x y before both
  · intro x y r here root both
    have before := (done x).mp here
    rw [(same x before).1] at root
    obtain ⟨r', root', inside, -⟩ := settled.rooted x before
    obtain rfl : r' = r := Option.some.inj (root'.symm.trans root)
    rw [(same r' inside).2, (same y (reaches_closed settled.closed before both.1)).2]
    exact settled.first x y r' before root both

theorem Settled.enter (settled : Settled g s) (linked : s.status m = .linked) : Settled g (s.enter m index) := by
  have kept := kept_enter index linked
  refine settled.of_done (fun x => ?_) (fun x here => ⟨rfl, kept.dfsIndex x (by simp [here.1])⟩) ?_ ?_
    (nodup_cons.mpr ⟨(settled.linked linked).2.1, settled.distinct⟩)
  · unfold Done
    rcases eq_or_ne x m with rfl | same
    · simp [EvalState.enter, linked]
    · rw [enter_status_of_ne same]
      rfl
  · intro x e exception
    obtain ⟨evaluated, rest⟩ := settled.failed x e exception
    exact ⟨(kept.status x (by simp [evaluated])).trans evaluated, rest⟩
  · intro x
    rcases eq_or_ne x m with rfl | same
    · simp [EvalState.enter]
    · rw [enter_status_of_ne same, settled.onStack x]
      simp [EvalState.enter, same]

theorem Open.enter (isOpen : Open g s path index) (settled : Settled g s) (linked : s.status m = .linked)
    (reach : ∀ p ∈ path, Reaches (requests g) p m) :
    Open g (s.enter m index) (m :: path) (index + 1) ∧ Lowest (s.enter m index) m := by
  have old : Open g { s.enter m index with stack := s.stack } path index :=
    isOpen.kept settled { kept_enter index linked with } rfl le_rfl
  have own : (s.enter m index).dfsIndex m = index := by simp [EvalState.enter]
  have ownAncestor : (s.enter m index).dfsAncestorIndex m = index := by simp [EvalState.enter]
  have top : ∀ x ∈ m :: s.stack, index ≤ (s.enter m index).dfsIndex x → x = m := by
    intro x inside high
    rcases mem_cons.mp inside with same | older
    · exact same
    · exact absurd (old.below x older) (Nat.not_lt.mpr high)
  refine ⟨⟨pairwise_cons.mpr ⟨?_, old.sorted⟩, ?_, ?_, ?_, ?_, ?_, ?_⟩, ?_⟩
  · intro x inside
    rw [own]
    exact old.below x inside
  · intro x inside
    rcases mem_cons.mp inside with rfl | older
    · omega
    · exact (old.below x older).trans (Nat.lt_succ_self index)
  · intro p inside
    rcases mem_cons.mp inside with rfl | older
    · exact .head _
    · exact .tail _ (old.held p older)
  · intro p inside x onStack high
    rcases mem_cons.mp inside with rfl | older
    · rw [own] at high
      rw [top x onStack high]
    · rcases mem_cons.mp onStack with rfl | olderX
      · exact reach p older
      · exact old.above p older x olderX high
  · intro x inside
    rcases mem_cons.mp inside with rfl | older
    · exact ⟨x, .head _, le_rfl, .refl⟩
    · obtain ⟨p, onPath, low, reach'⟩ := old.back x older
      exact ⟨p, .tail _ onPath, low, reach'⟩
  · intro x inside
    rcases mem_cons.mp inside with rfl | older
    · exact ⟨by omega, x, .head _, by omega, .refl⟩
    · obtain ⟨low, y, onStack, same, reach'⟩ := old.ancestor x older
      exact ⟨low, y, .tail _ onStack, same, reach'⟩
  · intro x inside outside y edge
    rcases mem_cons.mp inside with rfl | older
    · exact absurd mem_cons_self outside
    · refine (old.edges x older (fun onPath => outside (.tail _ onPath)) y edge).imp id ?_
      rintro ⟨onStack, low⟩
      exact ⟨.tail _ onStack, low⟩
  · intro x inside high
    rw [own] at high
    rw [top x inside high]

end Enter

def Evaluates (g : Graph n) (body : Bodies n E) (overflow : E) (frames : Nat)
    (evaluate : Fin n → Nat → EvalState n E → Option (Except E Nat × EvalState n E)) : Prop :=
  ∀ m index s path, Settled g s → Open g s path index → (∀ p ∈ path, Reaches (requests g) p m) →
    (∃ i s' pre post new, evaluate m index s = some (.ok i, s') ∧
      Passed g body frames path [m] index s i s' pre post new ∧ Kept none s s' ∧
      (new = [] ∨ m ∈ new ∧ s'.dfsIndex m = index ∧ Lowest s' m) ∧
      (s'.status m = .evaluated → s'.evalException m = none)) ∨
    ∃ e s' done stop, evaluate m index s = some (.error e, s') ∧
      Broken g body overflow frames [m] s e s' done stop ∧
      (0 < frames → s.status m = .linked → m ∈ s'.stack)

section Requests

variable {a : Nat} {requested rest pre1 post1 new1 pre2 post2 new2 done : List (Fin n)} {s1 : EvalState n E}
  {ancestors : Fin n → Nat} {i1 : Nat} {m1 : Fin n} {e : E}

theorem setAncestor_of_ne (different : x ≠ m) : (s.setAncestor m a).dfsAncestorIndex x = s.dfsAncestorIndex x := by
  simp [EvalState.setAncestor, update_of_ne different]

theorem setAncestor_self : (s.setAncestor m a).dfsAncestorIndex m = a := by simp [EvalState.setAncestor]

theorem Open.setAncestor (isOpen : Open g s (m :: path) index) (low : a ≤ s.dfsAncestorIndex m)
    (found : ∃ y ∈ s.stack, a = s.dfsIndex y ∧ Reaches (requests g) m y) :
    Open g (s.setAncestor m a) (m :: path) index := by
  refine ⟨isOpen.sorted, isOpen.below, isOpen.held, isOpen.above, isOpen.back, ?_, ?_⟩
  · intro x inside
    rcases eq_or_ne x m with rfl | same
    · rw [setAncestor_self]
      have lower := (isOpen.ancestor x inside).1
      exact ⟨low.trans lower, found⟩
    · rw [setAncestor_of_ne same]
      exact isOpen.ancestor x inside
  · intro x inside outside
    have different : x ≠ m := fun same => outside (same ▸ .head _)
    rw [setAncestor_of_ne different]
    exact isOpen.edges x inside outside

theorem Passed.traverses (passed : Passed g body frames path rest index s i s1 pre1 post1 new1) :
    Traverses (requests g) (Modules.seen s) rest pre1 post1 := passed.goes.traverses

theorem Passed.here (settled : Settled g s) (isOpen : Open g s path index)
    (skips : Goes (requests g) (Modules.failed s) frames (Modules.seen s) rest [] []) :
    Passed g body frames path rest index s index s [] [] [] :=
  ⟨skips, by simp, trivial, rfl, by simp, by simp, settled, isOpen, rfl, by simp⟩

theorem Passed.entered (passed : Passed g body frames path rest index s i s1 pre1 post1 new1)
    (inside : x ∈ Modules.seen s ∨ x ∈ pre1) : s1.status x ≠ .linked := by
  have visited : x ∈ Modules.seen s1 := by
    rw [passed.seen]
    exact inside
  exact visited

theorem Passed.append (first : Passed g body frames path [m1] index s i1 s1 pre1 post1 new1)
    (second : Passed g body frames path rest i1 { s1 with dfsAncestorIndex := ancestors } i s' pre2 post2 new2)
    (indexes : ∀ x, s1.status x ≠ .linked → s'.dfsIndex x = s1.dfsIndex x)
    (exceptions : s1.evalException = s.evalException) :
    Passed g body frames path (m1 :: rest) index s i s' (pre1 ++ pre2) (post1 ++ post2) (new2 ++ new1) := by
  refine ⟨?_, ?_, ?_, ?_, ?_, ?_, second.settled, second.isOpen, ?_, ?_⟩
  · have later : Goes (requests g) (Modules.failed s1) frames (Modules.seen s1) rest pre2 post2 := second.goes
    rw [first.seen, Modules.failed, exceptions] at later
    exact first.goes.cons later
  · rw [second.ran, first.ran, append_assoc]
  · have later := second.normal
    rw [first.ran] at later
    exact first.normal.append later
  · rw [second.count, first.count, length_append, Nat.add_assoc]
  · intro k x there
    by_cases early : k < pre1.length
    · rw [getElem?_append_left early] at there
      rw [indexes x (first.entered (.inr (mem_of_getElem? there)))]
      exact first.numbered k x there
    · rw [getElem?_append_right (by omega)] at there
      rw [second.numbered _ x there, first.count]
      omega
  · have before : Modules.seen { s1 with dfsAncestorIndex := ancestors } = Modules.seen s1 := rfl
    rw [second.seen, before, first.seen]
    ext x
    simp only [Set.mem_union, Set.mem_ofPred_eq, mem_append]
    tauto
  · rw [second.stack, first.stack, append_assoc]
  · intro x inside
    rcases mem_append.mp inside with late | early
    · exact mem_append_right _ (second.fresh x late)
    · exact mem_append_left _ (first.fresh x early)

variable {stop : Stop (Fin n)}

theorem Cause.after {before : List (Fin n)} (cause : Cause body overflow s1 e done stop)
    (ran : s1.ran = s.ran ++ before)
    (normal : Normal body s.ran before) (exceptions : s1.evalException = s.evalException) :
    Cause body overflow s e (before ++ done) stop := by
  cases stop with
  | deep => exact ⟨normal.append (ran ▸ cause.1), cause.2⟩
  | bad y => exact ⟨normal.append (ran ▸ cause.1), exceptions ▸ cause.2⟩
  | last x =>
    obtain ⟨early, rfl, normal', throws⟩ := cause
    refine ⟨before ++ early, (append_assoc ..).symm, normal.append (ran ▸ normal'), ?_⟩
    rwa [← append_assoc, ← ran]

theorem Broken.here (settled : Settled g s)
    (stops : Stops (requests g) (Modules.failed s) frames (Modules.seen s) rest [] stop)
    (cause : Cause body overflow s e [] stop) : Broken g body overflow frames rest s e s [] stop :=
  ⟨by simp, stops, cause, settled, fun _ _ => rfl, fun _ _ => rfl, rfl, rfl, ⟨[], rfl⟩, by simp⟩

theorem Broken.head (broken : Broken g body overflow frames [m1] s e s' done stop) :
    Broken g body overflow frames (m1 :: rest) s e s' done stop := { broken with stops := broken.stops.head }

theorem Broken.later
    (broken : Broken g body overflow frames rest { s1 with dfsAncestorIndex := ancestors } e s' done stop)
    (first : Passed g body frames path [m1] index s i1 s1 pre1 post1 new1) (kept : Kept none s s1) :
    Broken g body overflow frames (m1 :: rest) s e s' (post1 ++ done) stop := by
  have entered : ∀ x, s.status x ≠ .linked → s1.status x ≠ .linked := by
    intro x old
    rwa [kept.status x old]
  have later : Stops (requests g) (Modules.failed s1) frames (Modules.seen s1) rest done stop := broken.stops
  rw [first.seen, Modules.failed, kept.evalException] at later
  have cause : Cause body overflow s1 e done stop := broken.cause
  refine ⟨?_, .later first.goes later, cause.after first.ran first.normal kept.evalException, broken.settled, ?_, ?_,
    broken.evalException.trans kept.evalException, broken.promise.trans kept.promise, ?_, ?_⟩
  · rw [broken.ran, first.ran, append_assoc]
  · intro x old
    exact (broken.status x (entered x old)).trans (kept.status x old)
  · intro x old
    exact (broken.cycleRoot x (entered x old)).trans (kept.cycleRoot x old)
  · obtain ⟨new, grown⟩ := broken.stack
    exact ⟨new ++ new1, by rw [grown, first.stack, append_assoc]⟩
  · intro x inside
    rcases mem_append.mp inside with early | late
    · have old := first.entered (.inr (first.traverses.perm.1.mem_iff.mpr early))
      exact (broken.status x old).trans_ne old
    · exact broken.entered x late

theorem Handled.kept (handled : Handled s m requested) (settled : Settled g s) (kept : Kept none s s')
    (inside : m ∈ s.stack) (stack : ∀ x ∈ s.stack, x ∈ s'.stack) : Handled s' m requested := by
  have entered := settled.entered
  intro y asked
  rcases handled y asked with finished | ⟨onStack, low⟩
  · exact .inl (finished.kept kept)
  · refine .inr ⟨stack y onStack, ?_⟩
    rwa [kept.ancestor m (entered m inside) (by simp), kept.dfsIndex y (entered y onStack)]

section

variable (passed : Passed g body frames (m :: path) [m1] index s i1 s1 pre1 post1 new1) (kept : Kept none s s1)
  (settled : Settled g s) (isOpen : Open g s (m :: path) index) (lowest : Lowest s m)
  (handled : Handled s m requested) (top : new1 = [] ∨ m1 ∈ new1 ∧ s1.dfsIndex m1 = index ∧ Lowest s1 m1)

include passed kept settled isOpen lowest handled top

theorem Passed.lower (edge : Edge (requests g) m m1) (evaluating : s1.status m1 = .evaluating) :
    let s2 := s1.setAncestor m (min (s1.dfsAncestorIndex m) (s1.dfsAncestorIndex m1))
    Open g s2 (m :: path) i1 ∧ Lowest s2 m ∧ Handled s2 m (requested ++ [m1]) := by
  intro s2
  have inside : m ∈ s.stack := isOpen.held m (by simp)
  have grown : ∀ x ∈ s.stack, x ∈ s1.stack := by
    intro x onStack
    rw [passed.stack]
    exact mem_append_right _ onStack
  have entered := settled.entered
  have onStack1 : m1 ∈ s1.stack := (passed.settled.onStack m1).mp evaluating
  have ancestor := kept.ancestor m (entered m inside) (by simp)
  have own : s2.dfsAncestorIndex m = min (s1.dfsAncestorIndex m) (s1.dfsAncestorIndex m1) := setAncestor_self
  have handled1 := handled.kept settled kept inside grown
  refine ⟨passed.isOpen.setAncestor (Nat.min_le_left _ _) ?_, ?_, ?_⟩
  · rcases Nat.le_total (s1.dfsAncestorIndex m) (s1.dfsAncestorIndex m1) with less | less
    · rw [Nat.min_eq_left less]
      obtain ⟨-, y, onStack, same, reach⟩ := passed.isOpen.ancestor m (grown m inside)
      exact ⟨y, onStack, same, reach⟩
    · rw [Nat.min_eq_right less]
      obtain ⟨-, y, onStack, same, reach⟩ := passed.isOpen.ancestor m1 onStack1
      exact ⟨y, onStack, same, .head edge reach⟩
  · intro x onStack high
    rw [own]
    by_cases same : x = m
    · rw [same, own]
    · have other : s2.dfsAncestorIndex x = s1.dfsAncestorIndex x := setAncestor_of_ne same
      rw [other]
      have split : x ∈ new1 ∨ x ∈ s.stack := by rwa [← mem_append, ← passed.stack]
      rcases split with new | old
      · -- entered by this request, so nothing new is below the module that it was for
        rcases top with none | ⟨_, first, low⟩
        · simp [none] at new
        · have number : index ≤ s1.dfsIndex x := by
            obtain ⟨k, there⟩ := mem_iff_getElem?.mp (passed.fresh x new)
            rw [passed.numbered k x there]
            omega
          exact (Nat.min_le_right _ _).trans (low x onStack (first ▸ number))
      · apply Nat.le_trans (Nat.min_le_left _ _)
        rw [ancestor, kept.ancestor x (entered x old) (by simp)]
        apply lowest x old
        have before : s1.dfsIndex m ≤ s1.dfsIndex x := high
        rwa [kept.dfsIndex m (entered m inside), kept.dfsIndex x (entered x old)] at before
  · intro y asked
    rw [own]
    rcases mem_append.mp asked with old | last
    · rcases handled1 y old with finished | ⟨onStack, low⟩
      · exact .inl finished
      · exact .inr ⟨onStack, (Nat.min_le_left _ _).trans low⟩
    · obtain rfl := mem_singleton.mp last
      exact .inr ⟨onStack1, (Nat.min_le_right _ _).trans (passed.isOpen.ancestor y onStack1).1⟩

theorem Passed.finished (done : Done s1 m1) : Lowest s1 m ∧ Handled s1 m (requested ++ [m1]) := by
  have inside : m ∈ s.stack := isOpen.held m (by simp)
  have entered := settled.entered
  have none : new1 = [] := by
    rcases top with none | ⟨new, -⟩
    · exact none
    · have onStack : m1 ∈ s1.stack := by
        rw [passed.stack]
        exact mem_append_left _ new
      have evaluating := (passed.settled.onStack m1).mpr onStack
      simp [done.1] at evaluating
  have stack : s1.stack = s.stack := by rw [passed.stack, none, nil_append]
  constructor
  · intro x onStack high
    rw [stack] at onStack
    rw [kept.dfsIndex m (entered m inside), kept.dfsIndex x (entered x onStack)] at high
    rw [kept.ancestor m (entered m inside) (by simp), kept.ancestor x (entered x onStack) (by simp)]
    exact lowest x onStack high
  · intro y asked
    rcases mem_append.mp asked with old | last
    · exact handled.kept settled kept inside (fun x onStack => stack.symm ▸ onStack) y old
    · obtain rfl := mem_singleton.mp last
      exact .inl done

end

theorem evaluateRequested_spec {evaluate : Fin n → Nat → EvalState n E → Option (Except E Nat × EvalState n E)}
    (evaluates : Evaluates g body overflow frames evaluate) (reach : ∀ p ∈ path, Reaches (requests g) p m)
    {todo : List (Fin n)} (settled : Settled g s) (isOpen : Open g s (m :: path) index) (lowest : Lowest s m)
    (handled : Handled s m requested) (edges : ∀ y ∈ todo, Edge (requests g) m y) :
    (∃ i s' pre post new, evaluateRequested evaluate m todo index s = some (.ok i, s') ∧
      Passed g body frames (m :: path) todo index s i s' pre post new ∧ Kept (some m) s s' ∧ Lowest s' m ∧
      Handled s' m (requested ++ todo)) ∨ ∃ e s' done stop,
      evaluateRequested evaluate m todo index s = some (.error e, s') ∧
      Broken g body overflow frames todo s e s' done stop := by
  induction todo generalizing index s requested with
  | nil =>
    refine .inl ⟨index, s, [], [], [], rfl, .here settled isOpen (.nil _ _), .refl, lowest, ?_⟩
    simpa using handled
  | cons m1 rest ih =>
    have edge := edges m1 (by simp)
    have reach1 : ∀ p ∈ m :: path, Reaches (requests g) p m1 := by
      intro p onPath
      rcases mem_cons.mp onPath with rfl | older
      · exact .single edge
      · exact (reach p older).tail edge
    rcases evaluates m1 index s (m :: path) settled isOpen reach1 with
      ⟨i1, s1, pre1, post1, new1, called, passed, kept, top, clean⟩ | ⟨e, s1, done, stop, called, broken, -⟩
    · obtain ⟨ancestors, equation, kept2, open2, lowest2, handled2⟩ : ∃ ancestors,
          let s2 := { s1 with dfsAncestorIndex := ancestors }
          evaluateRequested evaluate m (m1 :: rest) index s = evaluateRequested evaluate m rest i1 s2 ∧
          Kept (some m) s1 s2 ∧ Open g s2 (m :: path) i1 ∧ Lowest s2 m ∧ Handled s2 m (requested ++ [m1]) := by
        cases now : s1.status m1 with
        | linked => exact absurd now (passed.entered (passed.traverses.covers m1 (by simp)))
        | evaluating =>
          refine ⟨_, ?_, ?_, passed.lower kept settled isOpen lowest handled top edge now⟩
          · simp [evaluateRequested, called, now, EvalState.setAncestor]
          · exact { (Kept.refl : Kept none s1 s1) with
              ancestor := fun x _ different => setAncestor_of_ne fun same => different (same ▸ rfl) }
        | evaluated =>
          have done : Done s1 m1 := ⟨now, clean now⟩
          obtain ⟨root, rooted, doneRoot, -⟩ := passed.settled.rooted m1 done
          refine ⟨s1.dfsAncestorIndex, ?_, .refl, passed.isOpen,
            passed.finished kept settled isOpen lowest handled top done⟩
          simp [evaluateRequested, called, now, rooted, doneRoot.1, doneRoot.2]
      rcases ih (s := { s1 with dfsAncestorIndex := ancestors }) { passed.settled with } open2 lowest2 handled2
          (fun y inside => edges y (.tail _ inside)) with
        ⟨i, s', pre, post, new, rest', passed', kept', lowest', handled'⟩ | ⟨e, s', done, stop, rest', broken⟩
      · refine .inl ⟨i, s', pre1 ++ pre, post1 ++ post, new ++ new1, equation.trans rest',
          passed.append passed' kept'.dfsIndex kept.evalException, ((kept.weaken _).trans kept2).trans kept', lowest',
            ?_⟩
        simpa using handled'
      · exact .inr ⟨e, s', post1 ++ done, stop, equation.trans rest', broken.later passed kept⟩
    · refine .inr ⟨e, s1, done, stop, ?_, broken.head⟩
      simp [evaluateRequested, called]

end Requests

end Modules
