import Partikle.Modules.Component

/-!
Whole evaluations, any number of them in turn. An evaluation runs the bodies that it reaches in depth-first order, or
stops at the first exception, which then belongs to every module that was on the stack.
-/

namespace Modules

open Dfs Function List Option

variable {n : Nat} {E : Type} {g : Graph n} {body : Bodies n E} {overflow : E} {frames : Nat}
  {s s' : EvalState n E} {m : Fin n}

structure Ready (g : Graph n) (s : EvalState n E) : Prop where
  settled : Settled g s
  stack : s.stack = []
  promises : ∀ x p, s.promise x = some p →
    p = .fulfilled ∧ Done s x ∨ ∃ e, p = .rejected e ∧ s.evalException x = some e
  ran : ∀ x ∈ s.ran, s.status x = .evaluated
  once : s.ran.Nodup

theorem linkedState_ready : Ready g (linkedState n E) := by
  refine ⟨⟨?_, ?_, ?_, ?_, ?_, ?_, ?_⟩, rfl, ?_, ?_, ?_⟩ <;> simp [linkedState, Done]

def HasFailed (s : EvalState n E) (x : Fin n) (e : E) : Prop :=
  s.status x = .evaluated ∧ s.evalException x = some e ∧
    ∃ r, s.cycleRoot x = some r ∧ s.promise r = some (.rejected e)

variable {x : Fin n} {e : E} {new : List (Fin n)} {s1 : EvalState n E}

theorem HasFailed.again (failed : HasFailed s x e) (frames : Nat) :
    jsEvaluateModule g body overflow frames x s = some (.rejected e, s) := by
  obtain ⟨evaluated, -, r, root, promise⟩ := failed
  simp [jsEvaluateModule, evaluated, root, evaluateRoot, promise]

section Fail

theorem failAll_eq {stack : List (Fin n)} (distinct : stack.Nodup)
    (evaluating : ∀ x ∈ stack, s.status x = .evaluating) : failAll m e stack s = some (failedAll m e stack s) := by
  induction stack generalizing s with
  | nil => simp [failAll, failedAll]
  | cons x stack ih =>
    have apart := nodup_cons.mp distinct
    simp only [failAll, evaluating x (by simp), ↓reduceIte]
    rw [ih apart.2]
    · simp only [failedAll, some.injEq]
      congr 1 <;> funext y <;> by_cases same : y = x <;> simp [same]
    · intro y inside
      have different : y ≠ x := fun same => apart.1 (same ▸ inside)
      simp only [update_of_ne different]
      exact evaluating y (.tail _ inside)

theorem Settled.failAll (settled : Settled g s) (inside : m ∈ s.stack) :
    Settled g ((failedAll m e s.stack s).setPromise m (.rejected e)) := by
  have outside : ∀ x, s.status x = .evaluated → x ∉ s.stack := by
    intro x evaluated onStack
    simp [(settled.onStack x).mpr onStack] at evaluated
  refine settled.of_done (fun x => ?_) (fun x here => ⟨if_neg (outside x here.1), rfl⟩) ?_ ?_ nodup_nil
  · unfold Done EvalState.setPromise
    by_cases onStack : x ∈ s.stack
    · simp [failedAll, onStack, (settled.onStack x).mpr onStack]
    · simp [failedAll, onStack]
  · intro x e' exception
    by_cases onStack : x ∈ s.stack
    · simp only [EvalState.setPromise, failedAll, onStack, ↓reduceIte, some.injEq] at exception
      subst exception
      refine ⟨?_, m, ?_, ?_, ?_⟩
      · simp [EvalState.setPromise, failedAll, onStack]
      · simp [EvalState.setPromise, failedAll, onStack]
      · simp [EvalState.setPromise, failedAll, inside]
      · simp [EvalState.setPromise]
    · simp only [EvalState.setPromise, failedAll, onStack, ↓reduceIte] at exception
      obtain ⟨evaluated, r, root, exception', promise⟩ := settled.failed x e' exception
      have rootOutside := outside r (settled.failed r e' exception').1
      have different : r ≠ m := fun same => rootOutside (same ▸ inside)
      refine ⟨?_, r, ?_, ?_, ?_⟩
      · simp only [EvalState.setPromise, failedAll, onStack, ↓reduceIte]
        exact evaluated
      · simp only [EvalState.setPromise, failedAll, onStack, ↓reduceIte]
        exact root
      · simp only [EvalState.setPromise, failedAll, rootOutside, ↓reduceIte]
        exact exception'
      · simp only [EvalState.setPromise, update_of_ne different]
        exact promise
  · intro x
    by_cases onStack : x ∈ s.stack
    · simp [EvalState.setPromise, failedAll, onStack]
    · have notEvaluating : s.status x ≠ .evaluating := fun here => onStack ((settled.onStack x).mp here)
      simp [EvalState.setPromise, failedAll, onStack, notEvaluating]

end Fail

theorem Settled.setPromise {p : Promise E} (settled : Settled g s) (clean : s.evalException m = none) :
    Settled g (s.setPromise m p) := by
  refine ⟨settled.closed, settled.rooted, settled.same, settled.first, ?_, settled.onStack, settled.distinct⟩
  intro x e exception
  obtain ⟨evaluated, r, root, exception', promise⟩ := settled.failed x e exception
  have different : r ≠ m := by
    rintro rfl
    have failed : s.evalException r = some e := exception'
    simp [clean] at failed
  refine ⟨evaluated, r, root, exception', ?_⟩
  simp only [EvalState.setPromise, update_of_ne different]
  exact promise

theorem Ready.linked (ready : Ready g s) (linked : s.status m = .linked) : s.promise m = none := by
  cases promise : s.promise m with
  | none => rfl
  | some p =>
    rcases ready.promises m p promise with ⟨-, done⟩ | ⟨e, -, exception⟩
    · exact absurd done (ready.settled.linked linked).2.2
    · simp [(ready.settled.linked linked).1] at exception

theorem Ready.cases (ready : Ready g s) (m : Fin n) : s.status m = .linked ∨ s.status m = .evaluated := by
  cases now : s.status m with
  | linked => exact .inl rfl
  | evaluated => exact .inr rfl
  | evaluating =>
    have inside := (ready.settled.onStack m).mp now
    simp [ready.stack] at inside

def EvalState.begin (s : EvalState n E) (m : Fin n) : EvalState n E := { s.setPromise m .pending with stack := [] }

theorem Ready.begin (ready : Ready g s) (linked : s.status m = .linked) :
    Settled g (s.begin m) ∧ Open g (s.begin m) [] 0 := by
  have settled := ready.settled.setPromise (p := .pending) (ready.settled.linked linked).1
  have same : s.begin m = s.setPromise m .pending := by
    unfold EvalState.begin
    rw [← ready.stack]
    rfl
  refine ⟨same ▸ settled, ?_⟩
  constructor <;> simp [EvalState.begin]

def KeepsFailed (s s' : EvalState n E) : Prop := ∀ x e, HasFailed s x e → HasFailed s' x e

section Return

variable {pre post : List (Fin n)} {i : Nat}

structure Rooted (g : Graph n) (pre : List (Fin n)) (s' : EvalState n E) (x : Fin n) : Prop where
  done : Done s' x
  same : ∀ y, Mutual (requests g) x y → s'.cycleRoot y = s'.cycleRoot x
  first : ∃ r before after, s'.cycleRoot x = some r ∧ pre = before ++ r :: after ∧ Mutual (requests g) x r ∧
    ∀ y ∈ before, ¬Mutual (requests g) x y

theorem Passed.new_iff (passed : Passed g body frames [] [m] 0 (s.begin m) i s1 pre post new)
    (done : Done s1 m) (x : Fin n) : x ∈ pre ↔ Reaches (requests g) m x ∧ s.status x = .linked := by
  constructor
  · intro inside
    obtain ⟨start, isStart, reach⟩ := passed.traverses.reaches x inside
    obtain rfl := mem_singleton.mp isStart
    refine ⟨reach, ?_⟩
    by_contra entered
    exact passed.traverses.perm.2.2 x inside entered
  · rintro ⟨reach, linked⟩
    have doneHere := reaches_closed passed.settled.closed done reach
    have visited : x ∈ Modules.seen s1 := by simp [Modules.seen, doneHere.1]
    rw [passed.seen] at visited
    rcases visited with old | inside
    · exact absurd linked old
    · exact inside

theorem Ready.rooted (ready : Ready g s) (passed : Passed g body frames [] [m] 0 (s.begin m) i s1 pre post new)
    (kept : Kept none (s.begin m) s1) (done : Done s1 m) (inside : x ∈ pre) : Rooted g pre s1 x := by
  obtain ⟨reach, linked⟩ := (passed.new_iff done x).mp inside
  have doneHere := reaches_closed passed.settled.closed done reach
  have component : ∀ y, Mutual (requests g) x y → y ∈ pre := by
    intro y both
    refine (passed.new_iff done y).mpr ⟨reach.trans both.1, ?_⟩
    rcases ready.cases y with linkedThere | evaluated
    · exact linkedThere
    · -- a completed component is closed, so it would contain `x`
      have clean : s1.evalException y = none := (reaches_closed passed.settled.closed doneHere both.1).2
      rw [kept.evalException] at clean
      have before := reaches_closed ready.settled.closed (⟨evaluated, clean⟩ : Done s y) both.2
      exact absurd before (ready.settled.linked linked).2.2
  refine ⟨doneHere, fun y both => passed.settled.same x y doneHere both, ?_⟩
  obtain ⟨r, root, -, both⟩ := passed.settled.rooted x doneHere
  obtain ⟨before, after, split⟩ := append_of_mem (component r both)
  refine ⟨r, before, after, root, split, both, ?_⟩
  intro y early mutualY
  have low := passed.settled.first x y r doneHere root mutualY
  have numberRoot := passed.numbered before.length r (by simp [split])
  obtain ⟨k, there⟩ := mem_iff_getElem?.mp early
  have short : k < before.length := (List.getElem?_eq_some_iff.mp there).1
  have numberY := passed.numbered k y (by rw [split, getElem?_append_left short, there])
  omega

end Return

inductive Behaves (g : Graph n) (body : Bodies n E) (overflow : E) (frames : Nat) (m : Fin n)
    (s : EvalState n E) : Promise E → EvalState n E → Prop
  | returns {s' : EvalState n E} {pre post : List (Fin n)}
      (goes : Goes (requests g) (failed s) frames (seen s) [m] pre post) (ran : s'.ran = s.ran ++ post)
      (normal : Normal body s.ran post)
      (all : ∀ x, x ∈ post ↔ Reaches (requests g) m x ∧ s.status x = .linked)
      (rooted : ∀ x ∈ post, Rooted g pre s' x) : Behaves g body overflow frames m s .fulfilled s'
  | throws {e : E} {s1 s' : EvalState n E} {pre post done : List (Fin n)} {stop : Stop (Fin n)}
      (traverses : Traverses (requests g) (seen s) [m] pre post) (ran : s'.ran = s.ran ++ done)
      (beginning : done <+: post) (stops : Stops (requests g) (failed s) frames (seen s) [m] done stop)
      (cause : Cause body overflow s e done stop)
      (stopped : jsInnerModuleEvaluation g body overflow frames m 0 (s.begin m) = some (.error e, s1))
      (inside : m ∈ s1.stack) (failed : ∀ x ∈ s1.stack, HasFailed s' x e) :
      Behaves g body overflow frames m s (.rejected e) s'

structure Follows (g : Graph n) (s s' : EvalState n E) : Prop where
  ready : Ready g s'
  keeps : KeepsFailed s s'

theorem settle_ok (i : Nat) (done : Done s1 m) (stack : s1.stack = []) :
    settle m (.ok i, s1) = some (.fulfilled, s1.setPromise m .fulfilled) := by
  simp [settle, done.1, done.2, stack]

theorem evaluateRoot_begin (promise : s.promise m = none) :
    evaluateRoot g body overflow frames m s = (jsInnerModuleEvaluation g body overflow frames m 0 (s.begin m)).bind
      (settle m) := by
  unfold evaluateRoot
  simp only [promise]
  split <;> next called => exact (congrArg (Option.bind · (settle m)) called).symm

theorem Ready.once_append (ready : Ready g s) {more : List (Fin n)} (distinct : more.Nodup)
    (linked : ∀ x ∈ more, s.status x = .linked) : (s.ran ++ more).Nodup := by
  refine nodup_append.mpr ⟨ready.once, distinct, ?_⟩
  rintro x early y late rfl
  have evaluated := ready.ran x early
  simp [linked x late] at evaluated

theorem keepsFailed_of
    (fields : ∀ x, s.status x = .evaluated → s'.status x = .evaluated ∧ s'.evalException x = s.evalException x ∧
      s'.cycleRoot x = s.cycleRoot x)
    (noPromise : s.promise m = none) (promises : ∀ x, x ≠ m → s'.promise x = s.promise x) : KeepsFailed s s' := by
  rintro x e ⟨evaluated, exception, r, root, promise⟩
  obtain ⟨status', exception', root'⟩ := fields x evaluated
  have different : r ≠ m := by
    rintro rfl
    simp [noPromise] at promise
  exact ⟨status', exception'.trans exception, r, root'.trans root, (promises r different).trans promise⟩

section

variable (ready : Ready g s)

include ready

theorem Ready.returns (linked : s.status m = .linked) {i : Nat}
    {pre post : List (Fin n)} (passed : Passed g body frames [] [m] 0 (s.begin m) i s1 pre post new)
    (kept : Kept none (s.begin m) s1) (done : Done s1 m) (stack : s1.stack = []) :
    Follows g s (s1.setPromise m .fulfilled) ∧
      Behaves g body overflow frames m s .fulfilled (s1.setPromise m .fulfilled) := by
  have members : ∀ x, x ∈ post ↔ x ∈ pre := fun x => passed.traverses.perm.1.mem_iff.symm
  have ran : s1.ran = s.ran ++ post := passed.ran
  have promises : ∀ x, x ≠ m → (s1.setPromise m .fulfilled).promise x = s.promise x := by
    intro x different
    simp [EvalState.setPromise, update_of_ne different, kept.promise, EvalState.begin]
  have evaluated : ∀ x, s.status x = .evaluated → s1.status x = .evaluated := by
    intro x old
    rwa [kept.status x (by simp [EvalState.begin, EvalState.setPromise, old])]
  refine ⟨⟨⟨passed.settled.setPromise done.2, stack, ?_, ?_, ?_⟩, keepsFailed_of ?_ (ready.linked linked) promises⟩,
    .returns passed.goes ran passed.normal (fun x => (members x).trans (passed.new_iff done x)) ?_⟩
  · intro x p promise
    rcases eq_or_ne x m with rfl | same
    · simp only [EvalState.setPromise, update_self, some.injEq] at promise
      exact .inl ⟨promise.symm, done⟩
    · rw [promises x same] at promise
      rcases ready.promises x p promise with ⟨fulfilled, before⟩ | ⟨e, rejected, exception⟩
      · have now : Done s1 x := Done.kept (s := s.begin m) before kept
        exact .inl ⟨fulfilled, now⟩
      · exact .inr ⟨e, rejected, (congrFun kept.evalException x).trans exception⟩
  · intro x inside
    have inside' : x ∈ s.ran ++ post := ran ▸ inside
    rcases mem_append.mp inside' with early | late
    · exact evaluated x (ready.ran x early)
    · exact (ready.rooted passed kept done ((members x).mp late)).done.1
  · have distinct := ready.once_append (passed.traverses.perm.1.nodup_iff.mp passed.traverses.perm.2.1)
      fun x inside => ((passed.new_iff done x).mp ((members x).mp inside)).2
    rwa [← ran] at distinct
  · intro x old
    refine ⟨evaluated x old, congrFun kept.evalException x, ?_⟩
    exact kept.cycleRoot x (by simp [EvalState.begin, EvalState.setPromise, old])
  · intro x inside
    obtain ⟨here, same, first⟩ := ready.rooted passed kept done ((members x).mp inside)
    exact ⟨here, same, first⟩

theorem Ready.throws (linked : s.status m = .linked)
    {done : List (Fin n)} {stop : Stop (Fin n)}
    (broken : Broken g body overflow frames [m] (s.begin m) e s1 done stop) (inside : m ∈ s1.stack)
    (stopped : jsInnerModuleEvaluation g body overflow frames m 0 (s.begin m) = some (.error e, s1)) :
    let s' := (failedAll m e s1.stack s1).setPromise m (.rejected e)
    Follows g s s' ∧ Behaves g body overflow frames m s (.rejected e) s' := by
  intro s'
  have total : ∃ pre post, Traverses (requests g) (seen s) [m] pre post := traverses_total (seen s) [m]
  obtain ⟨pre, post, traverses⟩ := total
  have beginning := broken.stops.beginning traverses
  have ran : s1.ran = s.ran ++ done := broken.ran
  have promises : ∀ x, x ≠ m → s'.promise x = s.promise x := by
    intro x different
    simp [s', EvalState.setPromise, failedAll, update_of_ne different, broken.promise, EvalState.begin]
  have evaluated : ∀ x, s.status x = .evaluated → s1.status x = .evaluated := by
    intro x old
    rwa [broken.status x (by simp [EvalState.begin, EvalState.setPromise, old])]
  have outside : ∀ x, s.status x = .evaluated → x ∉ s1.stack := by
    intro x old onStack
    have evaluating := (broken.settled.onStack x).mpr onStack
    simp [evaluated x old] at evaluating
  have older : ∀ x, s.status x = .evaluated →
      s'.status x = .evaluated ∧ s'.evalException x = s.evalException x ∧ s'.cycleRoot x = s.cycleRoot x := by
    intro x old
    have root := broken.cycleRoot x (by simp [EvalState.begin, EvalState.setPromise, old])
    simp only [s', EvalState.setPromise, failedAll, outside x old, ↓reduceIte]
    exact ⟨evaluated x old, congrFun broken.evalException x, root⟩
  have entered : ∀ x, s1.status x ≠ .linked → s'.status x = .evaluated := by
    intro x visited
    by_cases onStack : x ∈ s1.stack
    · simp [s', EvalState.setPromise, failedAll, onStack]
    · cases now : s1.status x with
      | linked => exact absurd now visited
      | evaluating => exact absurd ((broken.settled.onStack x).mp now) onStack
      | evaluated => simp [s', EvalState.setPromise, failedAll, onStack, now]
  refine ⟨⟨⟨broken.settled.failAll inside, rfl, ?_, ?_, ?_⟩, keepsFailed_of older (ready.linked linked) promises⟩,
    .throws traverses ran beginning broken.stops broken.cause stopped inside ?_⟩
  · intro x p promise
    rcases eq_or_ne x m with rfl | same
    · simp only [s', EvalState.setPromise, update_self, some.injEq] at promise
      refine .inr ⟨e, promise.symm, ?_⟩
      simp [s', EvalState.setPromise, failedAll, inside]
    · rw [promises x same] at promise
      rcases ready.promises x p promise with ⟨fulfilled, before⟩ | ⟨e', rejected, exception⟩
      · have now := older x before.1
        exact .inl ⟨fulfilled, now.1, now.2.1.trans before.2⟩
      · have now := older x (ready.settled.failed x e' exception).1
        exact .inr ⟨e', rejected, now.2.1.trans exception⟩
  · intro x member
    have member' : x ∈ s.ran ++ done := ran ▸ member
    rcases mem_append.mp member' with early | late
    · exact (older x (ready.ran x early)).1
    · exact entered x (broken.entered x late)
  · have fresh : ∀ x ∈ done, s.status x = .linked := by
      intro x member
      by_contra old
      exact traverses.perm.2.2 x (traverses.perm.1.mem_iff.mpr (beginning.subset member)) old
    have distinct := ready.once_append
      ((traverses.perm.1.nodup_iff.mp traverses.perm.2.1).sublist beginning.sublist) fresh
    rwa [← ran] at distinct
  · intro x onStack
    refine ⟨?_, ?_, m, ?_, ?_⟩ <;> simp [s', EvalState.setPromise, failedAll, onStack]

theorem Ready.evaluate_linked (linked : s.status m = .linked) (room : 0 < frames) :
    ∃ p s', jsEvaluateModule g body overflow frames m s = some (p, s') ∧ Follows g s s' ∧
      Behaves g body overflow frames m s p s' := by
  have called : jsEvaluateModule g body overflow frames m s =
      (jsInnerModuleEvaluation g body overflow frames m 0 (s.begin m)).bind (settle m) := by
    rw [← evaluateRoot_begin (ready.linked linked)]
    simp [jsEvaluateModule, linked]
  obtain ⟨settled, isOpen⟩ := ready.begin linked
  rcases jsInnerModuleEvaluation_spec g body overflow frames m 0 (s.begin m) [] settled isOpen (by simp) with
    ⟨i, s1, pre, post, new, inner, passed, kept, -, clean⟩ | ⟨e, s1, done, stop, inner, broken, onStack⟩
  · -- nothing is being evaluated any more, so nothing is on the stack
    have stack : s1.stack = [] := by
      refine eq_nil_iff_forall_not_mem.mpr fun x inside => ?_
      obtain ⟨p, none, -⟩ := passed.isOpen.back x inside
      cases none
    have done : Done s1 m := by
      cases now : s1.status m with
      | linked => exact absurd now (passed.entered (passed.traverses.covers m (by simp)))
      | evaluating =>
        have inside := (passed.settled.onStack m).mp now
        simp [stack] at inside
      | evaluated => exact ⟨now, clean now⟩
    refine ⟨.fulfilled, s1.setPromise m .fulfilled, ?_, ready.returns linked passed kept done stack⟩
    rw [called, inner]
    exact settle_ok i done stack
  · have inside := onStack room linked
    refine ⟨.rejected e, _, ?_, ready.throws linked broken inside inner⟩
    rw [called, inner]
    have settled := broken.settled
    simp only [bind_some, settle, failAll_eq settled.distinct fun x onStack => (settled.onStack x).mpr onStack]
    simp [failedAll, inside]

theorem Ready.evaluate_evaluated (evaluated : s.status m = .evaluated) (room : 0 < frames) :
    ∃ p s', jsEvaluateModule g body overflow frames m s = some (p, s') ∧ Follows g s s' ∧ s'.ran = s.ran ∧
      (p = .fulfilled ∧ Done s m ∨ ∃ e, p = .rejected e ∧ HasFailed s m e) := by
  cases exception : s.evalException m with
  | some e =>
    obtain ⟨-, r, root, -, promise⟩ := ready.settled.failed m e exception
    have failed : HasFailed s m e := ⟨evaluated, exception, r, root, promise⟩
    exact ⟨_, _, failed.again frames, ⟨ready, fun _ _ => id⟩, rfl, .inr ⟨e, rfl, failed⟩⟩
  | none =>
    have done : Done s m := ⟨evaluated, exception⟩
    obtain ⟨r, root, doneRoot, -⟩ := ready.settled.rooted m done
    have called : jsEvaluateModule g body overflow frames m s = evaluateRoot g body overflow frames r s := by
      simp [jsEvaluateModule, evaluated, root]
    cases promise : s.promise r with
    | some p =>
      have fulfilled : p = .fulfilled := by
        rcases ready.promises r p promise with ⟨fulfilled, -⟩ | ⟨e, -, failed⟩
        · exact fulfilled
        · simp [doneRoot.2] at failed
      refine ⟨p, s, ?_, ⟨ready, fun _ _ => id⟩, rfl, .inl ⟨fulfilled, done⟩⟩
      rw [called]
      simp [evaluateRoot, promise]
    | none =>
      obtain ⟨frames, rfl⟩ := Nat.exists_eq_succ_of_ne_zero (Nat.pos_iff_ne_zero.mp room)
      have doneBegin : Done (s.begin r) r := doneRoot
      have inner : jsInnerModuleEvaluation g body overflow (frames + 1) r 0 (s.begin r) = some (.ok 0, s.begin r) := by
        simp [jsInnerModuleEvaluation, doneBegin.1, doneBegin.2]
      have same : (s.begin r).setPromise r .fulfilled = s.setPromise r .fulfilled := by
        simp [EvalState.begin, EvalState.setPromise, ready.stack]
      refine ⟨.fulfilled, s.setPromise r .fulfilled, ?_, ⟨⟨?_, ready.stack, ?_, ready.ran, ready.once⟩, ?_⟩, rfl,
        .inl ⟨rfl, done⟩⟩
      · rw [called, evaluateRoot_begin promise, inner]
        exact (settle_ok 0 doneBegin rfl).trans (by rw [same])
      · exact ready.settled.setPromise doneRoot.2
      · intro x p there
        rcases eq_or_ne x r with rfl | isRoot
        · simp only [EvalState.setPromise, update_self, some.injEq] at there
          exact .inl ⟨there.symm, doneRoot⟩
        · simp only [EvalState.setPromise, update_of_ne isRoot] at there
          exact ready.promises x p there
      · exact keepsFailed_of (fun x old => ⟨old, rfl, rfl⟩) promise fun x different => update_of_ne different _ _

theorem Ready.evaluate (body : Bodies n E) (overflow : E) (m : Fin n)
    (room : 0 < frames) : ∃ p s', jsEvaluateModule g body overflow frames m s = some (p, s') ∧ Follows g s s' := by
  rcases ready.cases m with linked | evaluated
  · obtain ⟨p, s', called, follows, -⟩ := ready.evaluate_linked linked room
    exact ⟨p, s', called, follows⟩
  · obtain ⟨p, s', called, follows, -⟩ := ready.evaluate_evaluated evaluated room
    exact ⟨p, s', called, follows⟩

theorem Ready.evaluateAll (body : Bodies n E) (overflow : E) {calls : List (Nat × Fin n)}
    (room : ∀ c ∈ calls, 0 < c.1) : ∃ s', Modules.evaluateAll g body overflow calls s = some s' ∧ Follows g s s' := by
  induction calls generalizing s with
  | nil => exact ⟨s, rfl, ready, fun _ _ => id⟩
  | cons call calls ih =>
    obtain ⟨frames, m⟩ := call
    obtain ⟨p, s1, called, first⟩ := ready.evaluate body overflow m (room (frames, m) (by simp))
    obtain ⟨s', rest, second⟩ := ih first.ready fun c inside => room c (.tail _ inside)
    refine ⟨s', ?_, second.ready, fun x e failed => second.keeps x e (first.keeps x e failed)⟩
    simp [Modules.evaluateAll, called, rest]

end

/-- What an evaluation of `m` does in a state. No body ever runs twice, and a module that has failed is rejected with
its exception whatever is evaluated in between. -/
structure Evaluation (g : Graph n) (body : Bodies n E) (overflow : E) (frames : Nat) (m : Fin n)
    (s : EvalState n E) (p : Promise E) (s' : EvalState n E) : Prop where
  called : jsEvaluateModule g body overflow frames m s = some (p, s')
  once : s'.ran.Nodup
  outcome : s.status m = .linked ∧ Behaves g body overflow frames m s p s' ∨ s.status m = .evaluated ∧
    s'.ran = s.ran ∧ (p = .fulfilled ∧ Done s m ∨ ∃ e, p = .rejected e ∧ HasFailed s m e)
  again : ∀ later : List (Nat × Fin n), (∀ c ∈ later, 0 < c.1) →
    ∃ s'', evaluateAll g body overflow later s' = some s'' ∧
      ∀ x e, HasFailed s' x e → ∀ again, jsEvaluateModule g body overflow again x s'' = some (.rejected e, s'')

def requesting (l : List (Fin n)) : ModuleDef n where
  reqModules := l.length
  reqModule := l.get
  exportEntries := []
  starExportEntries := []
  importEntries := []
  initFunc := false
  distinct := nodup_nil

/-- The second module requests the first, which throws, and the third. -/
def afterFailure : Graph 3 := fun m => if m.val = 1 then requesting ((finRange 3).erase m) else requesting []

def throwingFirst (_ : List (Fin 3)) (m : Fin 3) : Option Unit := if m.val = 0 then some () else none

end Modules
