import Partikle.Modules.Tarjan

/-!
The end of the evaluation of a module. If it has found no lower ancestor, the modules down to it on the stack are its
component, and all of them get it as their root.
-/

namespace Modules

open Dfs List Option

variable {n : Nat} {E : Type} {g : Graph n} {body : Bodies n E} {overflow : E} {frames : Nat}
  {s s' s2 : EvalState n E} {m : Fin n} {index i : Nat} {path new below pre post : List (Fin n)}

def popped (m : Fin n) (new below : List (Fin n)) (s : EvalState n E) : EvalState n E :=
  { s with
    stack := below
    status := fun x => if x ∈ m :: new then .evaluated else s.status x
    cycleRoot := fun x => if x ∈ m :: new then some m else s.cycleRoot x }

def failedAll (m : Fin n) (e : E) (stack : List (Fin n)) (s : EvalState n E) : EvalState n E :=
  { s with
    stack := []
    status := fun x => if x ∈ stack then .evaluated else s.status x
    evalException := fun x => if x ∈ stack then some e else s.evalException x
    cycleRoot := fun x => if x ∈ stack then some m else s.cycleRoot x }

theorem popComponent_eq (outside : m ∉ new) : popComponent m (new ++ m :: below) s = some (popped m new below s) := by
  induction new generalizing s with
  | nil =>
    simp only [nil_append, popComponent, ↓reduceIte, popped, mem_singleton, some.injEq]
    congr 1 <;> funext x <;> by_cases same : x = m <;> simp [same]
  | cons x new ih =>
    have different : x ≠ m := fun same => outside (by simp [same])
    rw [cons_append, popComponent]
    simp only [different, ↓reduceIte]
    rw [ih fun inside => outside (.tail _ inside)]
    simp only [popped, some.injEq]
    congr 1 <;> funext y <;> by_cases same : y = x <;> simp [same]

variable {x : Fin n} {e : E}

theorem mem_stack (stack : s.stack = new ++ m :: below) (inside : x ∈ m :: new) : x ∈ s.stack := by
  rw [stack]
  simp only [mem_append, mem_cons] at inside ⊢
  tauto

section Component

variable (settled : Settled g s) (stack : s.stack = new ++ m :: below)
include settled stack

theorem done_popped (x : Fin n) : Done (popped m new below s) x ↔ Done s x ∨ x ∈ m :: new := by
  unfold Done
  by_cases inside : x ∈ m :: new
  · have evaluating := (settled.onStack x).mpr (mem_stack stack inside)
    have clean : s.evalException x = none := by
      cases exception : s.evalException x with
      | none => rfl
      | some e =>
        have evaluated := (settled.failed x e exception).1
        simp [evaluating] at evaluated
    simp only [popped, inside, ↓reduceIte, clean, and_self, or_true]
  · simp only [popped, inside, ↓reduceIte, or_false]

variable (isOpen : Open g s (m :: path) i)
include isOpen

theorem above_or_below :
    m ∉ new ∧ (∀ x ∈ new, s.dfsIndex m < s.dfsIndex x) ∧ (∀ x ∈ below, s.dfsIndex x < s.dfsIndex m) ∧ ∀ x ∈ new,
      x ∉ below := by
  have sorted := isOpen.sorted
  have distinct := settled.distinct
  rw [stack] at sorted distinct
  obtain ⟨-, lower, cross⟩ := pairwise_append.mp sorted
  obtain ⟨-, -, apart⟩ := nodup_append.mp distinct
  refine ⟨fun inside => apart m inside m (by simp) rfl, fun x inside => cross x inside m (by simp),
    (pairwise_cons.mp lower).1, fun x inside older => ?_⟩
  exact apart x inside x (.tail _ older) rfl

theorem component_mutual (reach : ∀ p ∈ path, Reaches (requests g) p m) (inside : x ∈ m :: new) :
    Mutual (requests g) x m := by
  obtain ⟨-, higher, -, -⟩ := above_or_below settled stack isOpen
  have onStack := mem_stack stack inside
  have high : s.dfsIndex m ≤ s.dfsIndex x := by
    rcases mem_cons.mp inside with rfl | here
    · exact le_rfl
    · exact Nat.le_of_lt (higher x here)
  refine ⟨?_, isOpen.above m (by simp) x onStack high⟩
  obtain ⟨p, onPath, -, back⟩ := isOpen.back x onStack
  rcases mem_cons.mp onPath with rfl | older
  · exact back
  · exact back.trans (reach p older)

variable (lowest : Lowest s m) (handled : Handled s m (requests g m)) (held : ∀ p ∈ path, p ∈ below)
  (root : s.dfsIndex m = s.dfsAncestorIndex m)
include lowest handled held root

theorem component_closed {y : Fin n} (inside : x ∈ m :: new) (edge : Edge (requests g) x y) :
    Done s y ∨ y ∈ m :: new := by
  obtain ⟨outside, higher, lower, apart⟩ := above_or_below settled stack isOpen
  have upper : ∀ z ∈ s.stack, s.dfsIndex m ≤ s.dfsIndex z → z ∈ m :: new := by
    intro z onStack high
    rw [stack] at onStack
    rcases mem_append.mp onStack with here | older
    · exact .tail _ here
    · rcases mem_cons.mp older with rfl | older
      · exact .head _
      · have low := lower z older
        omega
  rcases mem_cons.mp inside with rfl | here
  · rcases handled y edge with done | ⟨onStack, low⟩
    · exact .inl done
    · exact .inr (upper y onStack (by omega))
  · have onStack : x ∈ s.stack := by
      rw [stack]
      exact mem_append_left _ here
    have finished : x ∉ m :: path := by
      intro onPath
      rcases mem_cons.mp onPath with rfl | older
      · exact outside here
      · exact apart x here (held x older)
    rcases isOpen.edges x onStack finished y edge with done | ⟨onStack', low⟩
    · exact .inl done
    · have lower' := lowest x onStack (Nat.le_of_lt (higher x here))
      exact .inr (upper y onStack' (by omega))

theorem Settled.popped (reach : ∀ p ∈ path, Reaches (requests g) p m) : Settled g (popped m new below s) := by
  have closed := fun {x y} => component_closed (x := x) (y := y) settled stack isOpen lowest handled held root
  have done := done_popped settled stack
  have joined := fun {x} => component_mutual (x := x) settled stack isOpen reach
  obtain ⟨outside, higher, lower, apart⟩ := above_or_below settled stack isOpen
  have evaluating : ∀ x ∈ m :: new, s.status x = .evaluating := fun x inside =>
    (settled.onStack x).mpr (mem_stack stack inside)
  have undone : ∀ x ∈ m :: new, ¬Done s x := by
    intro x inside here
    rw [Done, evaluating x inside] at here
    cases here.1
  have closed' : ∀ x y, Done (Modules.popped m new below s) x → Edge (requests g) x y →
      Done (Modules.popped m new below s) y := by
    intro x y here edge
    rw [done] at here ⊢
    rcases here with before | inside
    · exact .inl (settled.closed x y before edge)
    · exact closed inside edge
  -- a component is either popped as a whole or was complete before
  have whole : ∀ x y, x ∈ m :: new → Mutual (requests g) x y → y ∈ m :: new := by
    intro x y inside both
    rcases (done y).mp (reaches_closed closed' ((done x).mpr (.inr inside)) both.1) with before | inside'
    · exact absurd (reaches_closed settled.closed before both.2) (undone x inside)
    · exact inside'
  have before : ∀ x y, Done s x → Mutual (requests g) x y → x ∉ m :: new ∧ y ∉ m :: new := by
    intro x y here both
    exact ⟨fun inside => undone x inside here,
      fun inside => undone y inside (reaches_closed settled.closed here both.1)⟩
  refine ⟨closed', ?_, ?_, ?_, ?_, ?_, ?_⟩
  · intro x here
    rcases (done x).mp here with old | inside
    · obtain ⟨r, rooted, doneRoot, both⟩ := settled.rooted x old
      refine ⟨r, ?_, (done r).mpr (.inl doneRoot), both⟩
      simp only [Modules.popped, (before x r old both).1, ↓reduceIte]
      exact rooted
    · exact ⟨m, by simp only [Modules.popped, inside, ↓reduceIte], (done m).mpr (.inr (by simp)), joined inside⟩
  · intro x y here both
    rcases (done x).mp here with old | inside
    · obtain ⟨notX, notY⟩ := before x y old both
      simp only [Modules.popped, notX, notY, ↓reduceIte]
      exact settled.same x y old both
    · simp only [Modules.popped, inside, whole x y inside both, ↓reduceIte]
  · intro x y r here rooted both
    rcases (done x).mp here with old | inside
    · obtain ⟨notX, -⟩ := before x y old both
      simp only [Modules.popped, notX, ↓reduceIte] at rooted
      exact settled.first x y r old rooted both
    · simp only [Modules.popped, inside, ↓reduceIte, some.injEq] at rooted
      subst rooted
      rcases mem_cons.mp (whole x y inside both) with rfl | above
      · exact le_rfl
      · exact Nat.le_of_lt (higher y above)
  · intro x e exception
    obtain ⟨evaluated, r, rooted, rest⟩ := settled.failed x e exception
    have notX : x ∉ m :: new := by
      intro inside
      simp [evaluating x inside] at evaluated
    refine ⟨?_, r, ?_, rest⟩
    · simp only [Modules.popped, notX, ↓reduceIte]
      exact evaluated
    · simp only [Modules.popped, notX, ↓reduceIte]
      exact rooted
  · intro x
    by_cases inside : x ∈ m :: new
    · have notBelow : x ∉ below := by
        rcases mem_cons.mp inside with rfl | here
        · exact fun older => Nat.lt_irrefl _ (lower x older)
        · exact apart x here
      simp only [Modules.popped, inside, ↓reduceIte, reduceCtorEq, notBelow]
    · have same : x ∈ s.stack ↔ x ∈ below := by
        rw [stack]
        simp only [mem_append, mem_cons] at inside ⊢
        tauto
      simp only [Modules.popped, inside, ↓reduceIte]
      rw [settled.onStack x, same]
  · have distinct := settled.distinct
    rw [stack] at distinct
    exact (nodup_cons.mp (nodup_append.mp distinct).2.1).2

end Component

theorem Open.leave (isOpen : Open g s2 (m :: path) i) (settled : Settled g s2) (stack : s2.stack = new ++ m :: below)
    (handled : Handled s2 m (requests g m))
    (back : ∀ y ∈ below, ∃ p ∈ path, s2.dfsIndex p ≤ s2.dfsIndex y ∧ Reaches (requests g) y p)
    (lower : s2.dfsAncestorIndex m ≠ s2.dfsIndex m) : Open g s2 path i := by
  obtain ⟨-, higher, -, -⟩ := above_or_below settled stack isOpen
  have inside : m ∈ s2.stack := isOpen.held m (by simp)
  refine ⟨isOpen.sorted, isOpen.below, fun p onPath => isOpen.held p (.tail _ onPath),
    fun p onPath => isOpen.above p (.tail _ onPath), ?_, isOpen.ancestor, ?_⟩
  · intro x onStack
    obtain ⟨p, onPath, low, reach⟩ := isOpen.back x onStack
    rcases mem_cons.mp onPath with rfl | older
    · obtain ⟨atMost, y, onStack', same, reach'⟩ := isOpen.ancestor p inside
      have older : y ∈ below := by
        rw [stack] at onStack'
        rcases mem_append.mp onStack' with here | rest
        · have high := higher y here
          omega
        · rcases mem_cons.mp rest with rfl | older
          · exact absurd same lower
          · exact older
      obtain ⟨q, onPath', low', reach''⟩ := back y older
      exact ⟨q, onPath', by omega, (reach.trans reach').trans reach''⟩
    · exact ⟨p, older, low, reach⟩
  · intro x onStack outside y edge
    rcases eq_or_ne x m with rfl | same
    · exact handled y edge
    · refine isOpen.edges x onStack (fun onPath => ?_) y edge
      rcases mem_cons.mp onPath with equal | older
      · exact same equal
      · exact outside older

section Inner

theorem Kept.enter (kept : Kept (some m) (s.enter m index) s') (linked : s.status m = .linked) : Kept none s s' := by
  have all := ((kept_enter index linked).weaken (some m)).trans kept
  refine { all with ancestor := fun x here _ => all.ancestor x here ?_ }
  rintro ⟨⟩
  exact here linked

theorem seen_enter (s : EvalState n E) (m : Fin n) (index : Nat) : seen (s.enter m index) = insert m (seen s) := by
  ext x
  rcases eq_or_ne x m with rfl | same
  · simp [seen, EvalState.enter]
  · simp [seen, enter_status_of_ne same, same]

theorem Broken.enter {done : List (Fin n)} {stop : Stop (Fin n)} (linked : s.status m = .linked)
    (broken : Broken g body overflow frames (requests g m) (s.enter m index) e s' done stop) :
    Broken g body overflow (frames + 1) [m] s e s' done stop := by
  have same := (kept_enter index linked).status
  have below := broken.stops
  rw [seen_enter] at below
  refine ⟨broken.ran, .inside (fun old => old linked) below, broken.cause, broken.settled, ?_, ?_,
    broken.evalException, broken.promise, ?_, broken.entered⟩
  · intro x old
    rw [broken.status x (same x old ▸ old), same x old]
  · intro x old
    exact broken.cycleRoot x (same x old ▸ old)
  · obtain ⟨new, grown⟩ := broken.stack
    exact ⟨new ++ [m], by simpa [EvalState.enter] using grown⟩

section

variable (linked : s.status m = .linked)
  (passed : Passed g body frames (m :: path) (requests g m) (index + 1) (s.enter m index) i s2 pre post new)
  (kept : Kept (some m) (s.enter m index) s2)

include linked passed kept

theorem Broken.throws (thrown : body s2.ran m = some e) :
    Broken g body overflow (frames + 1) [m] s e { s2 with ran := s2.ran ++ [m] } (post ++ [m]) (.last m) := by
  have settled := passed.settled
  have below := passed.goes
  rw [seen_enter] at below
  have ran : s2.ran = s.ran ++ post := passed.ran
  have keptAll := kept.enter linked
  refine ⟨?_, .last (fun old => old linked) below, ⟨post, rfl, passed.normal, ?_⟩, { settled with }, keptAll.status,
    keptAll.cycleRoot, keptAll.evalException, keptAll.promise, ?_, ?_⟩
  · simp [ran]
  · exact ran ▸ thrown
  · exact ⟨new ++ [m], by simpa [EvalState.enter] using passed.stack⟩
  · intro x inside
    rcases mem_append.mp inside with early | last
    · exact passed.entered (.inr (passed.traverses.perm.1.mem_iff.mpr early))
    · rw [mem_singleton.mp last]
      exact settled.entered m (passed.isOpen.held m (by simp))

theorem leave_spec (settled : Settled g s) (isOpen : Open g s path index)
    (reach : ∀ p ∈ path, Reaches (requests g) p m) (lowest : Lowest s2 m) (handled : Handled s2 m (requests g m))
    (returns : body s2.ran m = none) : ∃ s' new', leave m i { s2 with ran := s2.ran ++ [m] } = some (.ok i, s') ∧
      Passed g body (frames + 1) path [m] index s i s' (m :: pre) (post ++ [m]) new' ∧ Kept none s s' ∧
      (new' = [] ∨ m ∈ new' ∧ s'.dfsIndex m = index ∧ Lowest s' m) ∧
      (s'.status m = .evaluated → s'.evalException m = none) := by
  have settled3 : Settled g { s2 with ran := s2.ran ++ [m] } := { passed.settled with }
  have open3 : Open g { s2 with ran := s2.ran ++ [m] } (m :: path) i := { passed.isOpen with }
  have stack : s2.stack = new ++ m :: s.stack := passed.stack
  have entered : (s.enter m index).status m ≠ .linked := by simp [EvalState.enter]
  have own : s2.dfsIndex m = index := by
    rw [kept.dfsIndex m entered]
    simp [EvalState.enter]
  have keptAll : Kept none s s2 := kept.enter linked
  have unseen : m ∉ seen s := fun old => old linked
  have more : index ≤ i := by
    rw [passed.count]
    omega
  have goes : Goes (requests g) (failed s) (frames + 1) (seen s) [m] (m :: pre) (post ++ [m]) := by
    have below := passed.goes
    rw [seen_enter] at below
    have visited := Goes.visit unseen below (.nil _ _)
    rwa [append_nil] at visited
  have ran : s2.ran ++ [m] = s.ran ++ (post ++ [m]) := by
    rw [passed.ran]
    simp [EvalState.enter]
  have normal : Normal body s.ran (post ++ [m]) := by
    have before : s2.ran = s.ran ++ post := passed.ran
    exact Normal.append passed.normal ⟨before ▸ returns, trivial⟩
  have count : i = index + (m :: pre).length := by
    rw [passed.count, length_cons]
    omega
  have numbered : ∀ k x, (m :: pre)[k]? = some x → s2.dfsIndex x = index + k := by
    intro k x there
    cases k with
    | zero =>
      obtain rfl : m = x := by simpa using there
      exact own
    | succ k =>
      rw [passed.numbered k x (by simpa using there)]
      omega
  have seen2 : seen s2 = seen s ∪ {x | x ∈ m :: pre} := by
    rw [passed.seen, seen_enter]
    ext x
    simp only [Set.mem_union, Set.mem_insert_iff, Set.mem_ofPred_eq, mem_cons]
    tauto
  have low := (passed.isOpen.ancestor m (passed.isOpen.held m (by simp))).1
  by_cases root : s2.dfsIndex m = s2.dfsAncestorIndex m
  · have outside := (above_or_below passed.settled stack passed.isOpen).1
    have new' : ∀ x ∈ m :: new, s.status x = .linked := by
      intro x inside
      rcases mem_cons.mp inside with rfl | here
      · exact linked
      · have fresh := passed.traverses.perm.2.2 x (passed.fresh x here)
        rw [seen_enter] at fresh
        simp only [Set.mem_insert_iff, not_or, seen, Set.mem_ofPred_eq, not_not] at fresh
        exact fresh.2
    have keptPopped : Kept none s (popped m new s.stack { s2 with ran := s2.ran ++ [m] }) := by
      have apart : ∀ x, s.status x ≠ .linked → x ∉ m :: new := fun x old inside => old (new' x inside)
      refine ⟨?_, keptAll.dfsIndex, ?_, keptAll.ancestor, keptAll.evalException, keptAll.promise⟩
      · intro x old
        simp only [popped, apart x old, ↓reduceIte]
        exact keptAll.status x old
      · intro x old
        simp only [popped, apart x old, ↓reduceIte]
        exact keptAll.cycleRoot x old
    have settled4 := settled3.popped stack open3 lowest handled isOpen.held root reach
    refine ⟨popped m new s.stack { s2 with ran := s2.ran ++ [m] }, [], ?_,
      ⟨goes, ran, normal, count, numbered, ?_, settled4, isOpen.kept settled keptPopped rfl more, rfl, by simp⟩,
      keptPopped, .inl rfl, ?_⟩
    · unfold Modules.leave
      rw [if_pos low, if_pos root]
      simp [stack, popComponent_eq outside]
    · rw [← seen2]
      ext x
      by_cases inside : x ∈ m :: new
      · have evaluating := (passed.settled.onStack x).mpr (mem_stack stack inside)
        simp only [seen, popped, inside, ↓reduceIte, Set.mem_ofPred_eq, evaluating]
        simp
      · simp only [seen, popped, inside, ↓reduceIte, Set.mem_ofPred_eq]
    · intro _
      exact ((done_popped settled3 stack m).mpr (.inr (by simp))).2
  · have back : ∀ y ∈ s.stack, ∃ p ∈ path, s2.dfsIndex p ≤ s2.dfsIndex y ∧ Reaches (requests g) y p := by
      have old : ∀ x ∈ s.stack, s2.dfsIndex x = s.dfsIndex x := by
        intro x onStack
        exact keptAll.dfsIndex x (settled.entered x onStack)
      intro y onStack
      obtain ⟨p, onPath, less, back⟩ := isOpen.back y onStack
      refine ⟨p, onPath, ?_, back⟩
      rwa [old p (isOpen.held p onPath), old y onStack]
    have left := open3.leave settled3 stack handled back (Ne.symm root)
    refine ⟨{ s2 with ran := s2.ran ++ [m] }, new ++ [m], ?_,
      ⟨goes, ran, normal, count, numbered, seen2, settled3, left, by simp [stack], ?_⟩,
      { keptAll with },
      .inr ⟨by simp, own, lowest⟩, ?_⟩
    · simp [leave, low, root]
    · intro x inside
      rcases mem_append.mp inside with here | last
      · exact .tail _ (passed.fresh x here)
      · exact mem_cons.mpr (.inl (mem_singleton.mp last))
    · intro evaluated
      have onStack : m ∈ s2.stack := by simp [stack]
      have evaluating := (passed.settled.onStack m).mpr onStack
      simp [evaluating] at evaluated

end

theorem jsInnerModuleEvaluation_spec (g : Graph n) (body : Bodies n E) (overflow : E)
    (frames : Nat) : Evaluates g body overflow frames (jsInnerModuleEvaluation g body overflow frames) := by
  induction frames with
  | zero =>
    intro m index s path settled isOpen _
    exact .inr ⟨overflow, s, [], .deep, rfl, .here settled .deep ⟨trivial, rfl⟩, fun none => absurd none (by simp)⟩
  | succ frames ih =>
    intro m index s path settled isOpen reach
    have unchanged : s.status m ≠ .linked → (s.status m = .evaluated → s.evalException m = none) →
        ∃ i s' pre post new, some (Except.ok (ε := E) index, s) = some (.ok i, s') ∧
        Passed g body (frames + 1) path [m] index s i s' pre post new ∧ Kept none s s' ∧
        (new = [] ∨ m ∈ new ∧ s'.dfsIndex m = index ∧ Lowest s' m) ∧
        (s'.status m = .evaluated → s'.evalException m = none) := by
      intro entered clean
      have good : m ∉ failed s := by
        intro failed
        obtain ⟨e, exception⟩ := Option.ne_none_iff_exists'.mp failed
        exact failed (clean (settled.failed m e exception).1)
      exact ⟨index, s, [], [], [], rfl, .here settled isOpen (.skip entered good (.nil _ _)), .refl, .inl rfl, clean⟩
    unfold jsInnerModuleEvaluation
    cases now : s.status m with
    | evaluated =>
      cases exception : s.evalException m with
      | none => exact .inl (unchanged (by simp [now]) fun _ => exception)
      | some e =>
        refine .inr ⟨e, s, [], .bad m, rfl, .here settled (.bad ?_) ⟨trivial, exception⟩, fun _ linked => ?_⟩
        · simp [failed, exception]
        · simp at linked
    | evaluating => exact .inl (unchanged (by simp [now]) fun evaluated => by simp [now] at evaluated)
    | linked =>
      obtain ⟨open1, lowest1⟩ := isOpen.enter settled now reach
      have asked : Handled (s.enter m index) m [] := by simp [Handled]
      have edges : ∀ y ∈ (g m).requested, Edge (requests g) m y := fun _ inside => inside
      rcases evaluateRequested_spec ih reach (settled.enter now) open1 lowest1 asked edges with
        ⟨i, s2, pre, post, new, called, passed, kept, lowest, handled⟩ | ⟨e, s2, done, stop, called, broken⟩
      · simp only [called, executeSyncModule]
        cases outcome : body s2.ran m with
        | some e =>
          refine .inr ⟨e, _, _, _, rfl, Broken.throws now passed kept outcome, fun _ _ => ?_⟩
          exact passed.isOpen.held m (by simp)
        | none =>
          obtain ⟨s', new', left, rest⟩ := leave_spec now passed kept settled isOpen reach lowest handled outcome
          exact .inl ⟨i, s', _, _, new', left, rest⟩
      · simp only [called]
        refine .inr ⟨e, s2, done, stop, rfl, broken.enter now, fun _ _ => ?_⟩
        obtain ⟨new, grown⟩ := broken.stack
        simp [grown, EvalState.enter]

end Inner

end Modules
