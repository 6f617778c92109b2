import Partikle.Atomics.Conform

/-!
Which runs of `Atomics.wait` and `Atomics.notify` end with the right answers. The order in which waiters are
taken from the list is right in every run; the answers are right exactly in the runs in which no wait on a condition
variable ends early and none times out after a notify.
-/

namespace Atomics

open List Option

structure Conforms (s : State) (log : List Event) : Prop where
  neverBlocks : ∀ call found v, .compared call found v ∈ log → found ≠ v → ∀ ptr, .blocked call ptr ∉ log
  inOrder : ∀ ptr, (removedAt log ptr ++ s.waiterList.filter (s.isAt ptr)).Pairwise (· < ·)
  woken : signals log = removals log
  answers : ∀ call ptr answer, .blocked call ptr ∈ log → .returned call answer ∈ log →
    (answer = .ok ↔ call ∈ removals log) ∧ (answer = .timedOut ↔ call ∉ removals log)
  settled : (∀ call, s.waiter call = none) → (counts log).sum = (oks log).length

/-- A condition wait times out exactly when the waiter is still in the list. -/
def WaitEndsAsListed (s : State) : Action → Prop
  | .wake call ret => ∀ w, s.waiter call = some w → (ret = .timedOut ↔ w.linked = true)
  | _ => True

def Answered (log : List Event) : Prop :=
  ∀ call ptr answer, .blocked call ptr ∈ log → .returned call answer ∈ log → (answer = .ok ↔ call ∈ removals log)

section

variable {s s' : State} {log events : List Event}

theorem oks_perm_removals (inv : Inv s log) (answered : Answered log) (quiet : ∀ call, s.waiter call = none) :
    (oks log).Perm (removals log) := by
  refine (perm_ext_iff_of_nodup inv.okOnce inv.once).mpr fun call => ⟨fun there => ?_, fun there => ?_⟩
  · obtain ⟨ptr, blocked⟩ := inv.oks call there
    exact (answered call ptr .ok blocked (mem_oks.mp there)).mp rfl
  · obtain ⟨ptr, removed⟩ := mem_removals.mp there
    have blocked := inv.waited call ptr removed
    obtain ⟨answer, returned⟩ := inv.answered call ptr blocked (quiet call)
    have isOk := (answered call ptr answer blocked returned).mpr there
    exact mem_oks.mpr (isOk ▸ returned)

theorem conforms_iff (inv : Inv s log) : Conforms s log ↔ Answered log := by
  constructor
  · exact fun conforms call ptr answer blocked returned => (conforms.answers call ptr answer blocked returned).1
  · intro answered
    constructor
    case neverBlocks => exact fun call found v there => (inv.compared call found v there).2
    case inOrder => exact inv.order
    case woken => exact inv.signalled
    case answers =>
      intro call ptr answer blocked returned
      have isOk := answered call ptr answer blocked returned
      rw [← isOk]
      have waited := inv.blocked call ptr answer blocked returned
      cases answer with
      | notEqual => exact absurd rfl waited
      | ok | timedOut => decide
    case settled =>
      intro quiet
      rw [inv.total, (oks_perm_removals inv answered quiet).length_eq]

theorem answered_append
    (blocked' : ∀ call ptr answer, .blocked call ptr ∈ log ++ events → .returned call answer ∈ log ++ events →
      .blocked call ptr ∈ log ∧ .returned call answer ∈ log)
    (removed' : ∀ call answer, .returned call answer ∈ log →
      (call ∈ removals (log ++ events) ↔ call ∈ removals log)) : Answered (log ++ events) ↔ Answered log := by
  constructor
  · intro answered call ptr answer blocked returned
    rw [← removed' call answer returned]
    exact answered call ptr answer (mem_append_left _ blocked) (mem_append_left _ returned)
  · intro answered call ptr answer blocked returned
    obtain ⟨before, before'⟩ := blocked' call ptr answer blocked returned
    rw [removed' call answer before']
    exact answered call ptr answer before before'

theorem answered_wait (inv : Inv s log) {ptr : Ptr} {isInt64 : Bool} {v : Int} {timed : Bool} :
    Answered (log ++ (jsAtomicsWait s ptr isInt64 v timed).2) ↔ Answered log := by
  obtain ⟨-, notBlocked, notReturned⟩ := inv.fresh
  simp only [jsAtomicsWait]
  split
  · refine answered_append (fun call ptr' answer blocked returned => ?_) fun call answer _ => by simp [removals]
    have before : .blocked call ptr' ∈ log := by simpa using blocked
    refine ⟨before, (mem_append.mp returned).resolve_right fun now => ?_⟩
    have same : call = s.calls ∧ answer = .notEqual := by simpa using now
    exact notBlocked ptr' (same.1 ▸ before)
  · refine answered_append (fun call ptr' answer blocked returned => ?_) fun call answer _ => by simp [removals]
    have before : .returned call answer ∈ log := by simpa using returned
    refine ⟨(mem_append.mp blocked).resolve_right fun now => ?_, before⟩
    have same : call = s.calls ∧ ptr' = ptr := by simpa using now
    exact notReturned answer (same.1 ▸ before)

theorem answered_notify (inv : Inv s log) {ptr : Ptr} {shared : Bool} {count : Nat} :
    Answered (log ++ (jsAtomicsNotify s ptr shared count).2) ↔ Answered log := by
  unfold jsAtomicsNotify
  split
  · refine answered_append (fun call ptr' answer blocked returned => ?_) fun call answer returned => ?_
    · exact ⟨by simpa using blocked, by simpa using returned⟩
    · apply (iff_of_eq (congrArg (call ∈ ·) removals_notify)).trans
      refine mem_append.trans (or_iff_left fun gone => ?_)
      obtain ⟨front, rest, list, looped⟩ := @notifyLoop_eq (s.isAt ptr) count 0 s.waiterList
      rw [looped] at gone
      obtain ⟨w, waits, -⟩ := (inv.listed call).mp (list ▸ mem_append_left _ (mem_of_mem_filter gone))
      simp [(inv.returned call answer returned).1] at waits
  · refine answered_append (fun call ptr' answer blocked returned => ?_) fun call answer _ => by simp [removals]
    exact ⟨by simpa using blocked, by simpa using returned⟩

theorem answered_wake (inv : Inv s log) {call : Call} {w : Waiter} (waits : s.waiter call = some w) {ret : CondResult} :
    Answered (log ++ (endWait s call w ret).2) ↔ Answered log ∧ (ret = .timedOut ↔ w.linked = true) := by
  have removals' : removals (log ++ (endWait s call w ret).2) = removals log := by simp [removals, endWait]
  have gone := inv.unlinked call w waits
  -- the answer of the call itself is right exactly under the condition
  have own : ((if ret = .timedOut then Answer.timedOut else .ok) = .ok ↔ call ∈ removals log) ↔
      (ret = .timedOut ↔ w.linked = true) := by
    rw [← gone]
    cases ret <;> cases w.linked <;> decide
  constructor
  · intro answered
    refine ⟨fun other ptr answer blocked returned => ?_, own.mp ?_⟩
    · rw [← removals']
      exact answered other ptr answer (mem_append_left _ blocked) (mem_append_left _ returned)
    · rw [← removals']
      exact answered call w.ptr _ (mem_append_left _ (inv.started call w waits)) (by simp [endWait])
  · rintro ⟨answered, agrees⟩ other ptr answer blocked returned
    rw [removals']
    have before : .blocked other ptr ∈ log := by simpa [endWait] using blocked
    rcases mem_append.mp returned with before' | now
    · exact answered other ptr answer before before'
    · have same : other = call ∧ answer = if ret = .timedOut then .timedOut else .ok := by simpa [endWait] using now
      obtain ⟨rfl, rfl⟩ := same
      exact own.mpr agrees

theorem answered_step (inv : Inv s log) {a : Action} (next : step s a = some (s', events)) :
    Answered (log ++ events) ↔ Answered log ∧ WaitEndsAsListed s a := by
  cases a with
  | write memory =>
    cases next
    rw [append_nil]
    exact (and_iff_left trivial).symm
  | wait ptr isInt64 v timed =>
    have events' : (jsAtomicsWait s ptr isInt64 v timed).2 = events := congrArg Prod.snd (some.inj next)
    rw [← events', answered_wait inv]
    exact (and_iff_left trivial).symm
  | wake call ret =>
    unfold step at next
    cases waits : s.waiter call with
    | none => simp [waits] at next
    | some w =>
      simp only [waits, ite_none_left_eq_some, some.injEq] at next
      have events' : (endWait s call w ret).2 = events := by rw [next.2]
      rw [← events', answered_wake inv waits]
      refine and_congr_right fun _ => ⟨fun agrees w' waits' => ?_, fun agrees => agrees w waits⟩
      rw [waits] at waits'
      cases waits'
      exact agrees
  | notify ptr shared count =>
    have events' : (jsAtomicsNotify s ptr shared count).2 = events := congrArg Prod.snd (some.inj next)
    rw [← events', answered_notify inv]
    exact (and_iff_left trivial).symm

end

theorem atomicsWait_conforms_iff {memory : Bytes} {actions : List Action} {s : State} {log : List Event}
    (reached : Trace.run step (start memory) [] actions = some (s, log)) :
    Conforms s log ↔ Trace.Along step WaitEndsAsListed (start memory) actions := by
  have lives : Lives s log := Trace.run_invariant (fun _ _ _ _ _ => lives_step) (lives_start memory) reached
  rw [conforms_iff lives.inv]
  have answered := Trace.run_iff (fun _ _ _ _ _ => lives_step) (Q := fun _ => Answered) (C := WaitEndsAsListed)
    (fun _ _ _ _ _ before next => answered_step before.inv next) (lives_start memory) reached
  exact answered.trans (and_iff_right (by simp [Answered]))

theorem notified_conforms :
    ∃ s log,
      Trace.run step (start fun _ => 0) [] [.wait 0 false 0 true, .notify 0 true 1, .wake 0 .success] = some (s, log)
        ∧ Conforms s log ∧ counts log = [1] ∧ oks log = [0] := by
  let actions : List Action := [.wait 0 false 0 true, .notify 0 true 1, .wake 0 .success]
  have along : Trace.Along step WaitEndsAsListed (start fun _ => 0) actions := by
    simp [Trace.Along, step, WaitEndsAsListed, jsAtomicsWait, jsAtomicsNotify, notifyLoop, start, load, loadNat,
    State.isAt, State.unlink, actions]
  exact ⟨_, _, rfl, (atomicsWait_conforms_iff rfl).mpr along, rfl, rfl⟩

/-- A wait that ends early answers ok though nobody was notified; one that times out after a notify
answers that it has timed out though it was counted. -/
theorem wakeUp_answers :
    (∃ s log, Trace.run step (start fun _ => 0) [] [.wait 0 false 0 false, .wake 0 .success] = some (s, log) ∧
      ¬Conforms s log ∧ oks log = [0] ∧ removals log = []) ∧ ∃ s log,
      Trace.run step (start fun _ => 0) [] [.wait 0 false 0 true, .notify 0 true 1, .wake 0 .timedOut] = some (s, log)
        ∧ ¬Conforms s log ∧ counts log = [1] ∧ .returned 0 .timedOut ∈ log := by
  refine ⟨⟨_, _, rfl, fun conforms => ?_, rfl, rfl⟩, ⟨_, _, rfl, fun conforms => ?_, rfl, by decide⟩⟩
  · have wrong := (conforms.answers 0 0 .ok (by decide) (by decide)).1.mp rfl
    revert wrong
    decide
  · have wrong := (conforms.answers 0 0 .timedOut (by decide) (by decide)).2.mp rfl
    revert wrong
    decide

end Atomics
