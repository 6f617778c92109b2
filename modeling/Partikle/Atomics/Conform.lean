import Partikle.Atomics.Wait

/-!
What one action keeps of the list of waiters, and which answers of `Atomics.wait` follow from it: the answer is taken
from the way in which the condition wait ended, so that it is right exactly where that agrees with the list.
-/

namespace Atomics

open Function List Option

section Loop

variable {onPtr : Call → Bool} {count n : Nat} {list : List Call}

/-- The loop comes to some of the waiters and leaves the rest alone. -/
theorem notifyLoop_eq : ∃ front rest, list = front ++ rest ∧
    notifyLoop onPtr count n list = (front.filter (!onPtr ·) ++ rest, front.filter onPtr) := by
  induction list generalizing n with
  | nil => exact ⟨[], [], rfl, rfl⟩
  | cons call list ih =>
    unfold notifyLoop
    split
    · next here =>
        split
        · exact ⟨[call], list, rfl, by simp [here]⟩
        · obtain ⟨front, rest, rfl, moved⟩ := ih (n := n + 1)
          exact ⟨call :: front, rest, rfl, by simp [here, moved]⟩
    · next elsewhere =>
        obtain ⟨front, rest, rfl, moved⟩ := ih (n := n)
        exact ⟨call :: front, rest, rfl, by simp [elsewhere, moved]⟩

end Loop

section Logs

variable {log : List Event} {moved : List Call} {ptr ptr' : Ptr} {n : Nat}

def notifyEvents (ptr : Ptr) (moved : List Call) : List Event :=
  moved.map (.removed · ptr) ++ moved.map .signalled ++ [.notified moved.length]

theorem removals_notify : removals (log ++ notifyEvents ptr moved) = removals log ++ moved := by
  simp [removals, notifyEvents]

theorem signals_notify : signals (log ++ notifyEvents ptr moved) = signals log ++ moved := by
  simp [signals, notifyEvents]

theorem counts_notify : counts (log ++ notifyEvents ptr moved) = counts log ++ [moved.length] := by
  simp [counts, notifyEvents]

theorem removedAt_notify :
    removedAt (log ++ notifyEvents ptr moved) ptr' = removedAt log ptr' ++ if ptr = ptr' then moved else [] := by
  by_cases same : ptr = ptr' <;>
    simp [removedAt, notifyEvents, same]

end Logs

structure Inv (s : State) (log : List Event) : Prop where
  sorted : s.waiterList.Pairwise (· < ·)
  listed : ∀ call, call ∈ s.waiterList ↔ ∃ w, s.waiter call = some w ∧ w.linked = true
  started : ∀ call w, s.waiter call = some w → .blocked call w.ptr ∈ log
  numbered : ∀ call ptr, .blocked call ptr ∈ log → call < s.calls
  compared : ∀ call found v, .compared call found v ∈ log →
    call < s.calls ∧ (found ≠ v → ∀ ptr, .blocked call ptr ∉ log)
  unlinked : ∀ call w, s.waiter call = some w → (w.linked = false ↔ call ∈ removals log)
  waited : ∀ call ptr, .removed call ptr ∈ log → .blocked call ptr ∈ log
  returned : ∀ call answer, .returned call answer ∈ log → s.waiter call = none ∧ call < s.calls
  answered : ∀ call ptr, .blocked call ptr ∈ log → s.waiter call = none → ∃ answer, .returned call answer ∈ log
  blocked : ∀ call ptr answer, .blocked call ptr ∈ log → .returned call answer ∈ log → answer ≠ .notEqual
  oks : ∀ call, call ∈ oks log → ∃ ptr, .blocked call ptr ∈ log
  order : ∀ ptr, (removedAt log ptr ++ s.waiterList.filter (s.isAt ptr)).Pairwise (· < ·)
  once : (removals log).Nodup
  okOnce : (Atomics.oks log).Nodup
  signalled : signals log = removals log
  total : (counts log).sum = (removals log).length

section History

def Event.call : Event → Option Call
  | .compared call .. | .blocked call _ | .removed call _ | .signalled call | .returned call _ => some call
  | .notified _ => none

def history (log : List Event) (call : Call) : List Event := log.filter fun event => event.call = some call

variable {log events : List Event} {call : Call} {event : Event}

theorem history_append : history (log ++ events) call = history log call ++ history events call := filter_append ..

theorem mem_history (own : event.call = some call) : event ∈ history log call ↔ event ∈ log := by
  simp [history, own]

theorem nodup_filterMap {f : Event → Option Call} (own : ∀ event call, f event = some call → event.call = some call)
    (once : ∀ call, ((history log call).filterMap f).length ≤ 1) : (log.filterMap f).Nodup := by
  refine nodup_iff_count_le_one.mpr fun call => le_of_eq_of_le ?_ (once call)
  rw [count_eq_length_filter, history, filterMap_filter, filter_filterMap]
  congr 2
  funext event
  cases made : f event with
  | none => simp
  | some other =>
    rw [own event other made]
    by_cases same : other = call <;> simp [same]

theorem history_notify {ptr : Ptr} {moved : List Call} (distinct : moved.Nodup) :
    history (notifyEvents ptr moved) call = if call ∈ moved then [.removed call ptr, .signalled call] else [] := by
  simp only [history, notifyEvents, filter_append, List.filter_map, comp_def, Event.call, some.injEq,
    filter_eq, distinct.count]
  split <;> simp

end History

/-- What a call of `Atomics.wait` has in its frame and what the log tells of it. -/
inductive Life (call : Call) : Option Waiter → List Event → Prop
  | future : Life call none []
  | unequal {found v : Int} : found ≠ v → Life call none [.compared call found v, .returned call .notEqual]
  | waiting (v : Int) (ptr : Ptr) (timed : Bool) :
      Life call (some ⟨ptr, true, timed⟩) [.compared call v v, .blocked call ptr]
  | notified (v : Int) (ptr : Ptr) (timed : Bool) :
      Life call (some ⟨ptr, false, timed⟩)
        [.compared call v v, .blocked call ptr, .removed call ptr, .signalled call]
  | left (v : Int) (ptr : Ptr) {answer : Answer} :
      answer ≠ .notEqual → Life call none [.compared call v v, .blocked call ptr, .returned call answer]
  | woken (v : Int) (ptr : Ptr) {answer : Answer} : answer ≠ .notEqual → Life call none
      [.compared call v v, .blocked call ptr, .removed call ptr, .signalled call, .returned call answer]

variable {found v : Int}

section Life

variable {call : Call} {ptr : Ptr} {w : Waiter} {o : Option Waiter} {h : List Event} {answer : Answer}

theorem Life.started (life : Life call (some w) h) : .blocked call w.ptr ∈ h := by
  cases life <;> simp

theorem Life.compared (life : Life call o h) (there : .compared call found v ∈ h) (different : found ≠ v) :
    .blocked call ptr ∉ h := by
  cases life <;> simp_all

theorem Life.unlinked (life : Life call (some w) h) : w.linked = false ↔ ∃ ptr, .removed call ptr ∈ h := by
  cases life <;> simp

theorem Life.waited (life : Life call o h) (there : .removed call ptr ∈ h) : .blocked call ptr ∈ h := by
  cases life <;> simp_all

theorem Life.returned (life : Life call o h) (there : .returned call answer ∈ h) : o = none := by
  cases life <;> simp_all

theorem Life.answered (life : Life call none h) (there : .blocked call ptr ∈ h) :
    ∃ answer, .returned call answer ∈ h := by
  cases life <;> simp_all

theorem Life.blocked (life : Life call o h) (there : .blocked call ptr ∈ h) (last : .returned call answer ∈ h) :
    answer ≠ .notEqual := by
  cases life <;> simp_all

theorem Life.ok (life : Life call o h) (there : .returned call .ok ∈ h) : ∃ ptr, .blocked call ptr ∈ h := by
  cases life <;> simp_all

theorem Life.removals_le (life : Life call o h) : (removals h).length ≤ 1 := by
  cases life <;> simp [removals]

theorem Life.oks_le (life : Life call o h) : (oks h).length ≤ 1 := by
  cases life
  case left answer _ | woken answer _ => cases answer <;> simp [oks]
  all_goals simp [oks]

theorem Life.notify (life : Life call (some w) h) (linked : w.linked = true) :
    Life call (some { w with linked := false }) (h ++ [.removed call w.ptr, .signalled call]) := by
  cases life
  · exact .notified _ _ _
  · cases linked

theorem Life.ends (life : Life call (some w) h) (wakes : answer ≠ .notEqual) :
    Life call none (h ++ [.returned call answer]) := by
  cases life
  · exact .left _ _ wakes
  · exact .woken _ _ wakes

end Life

structure Lives (s : State) (log : List Event) : Prop where
  life : ∀ call, Life call (s.waiter call) (history log call)
  future : ∀ call, s.calls ≤ call → history log call = []
  sorted : s.waiterList.Pairwise (· < ·)
  listed : ∀ call, call ∈ s.waiterList ↔ ∃ w, s.waiter call = some w ∧ w.linked = true
  order : ∀ ptr, (removedAt log ptr ++ s.waiterList.filter (s.isAt ptr)).Pairwise (· < ·)
  signalled : signals log = removals log
  total : (counts log).sum = (removals log).length

theorem lives_start (memory : Bytes) : Lives (start memory) [] := by
  refine ⟨fun _ => .future, fun _ _ => rfl, ?_, ?_, ?_, rfl, rfl⟩ <;> simp [start, removedAt]

section Steps

variable {s : State} {log : List Event}

variable {call : Call} {ptr : Ptr} {s' : State} {w : Waiter} {moved : List Call}

theorem mem_removals : call ∈ removals log ↔ ∃ ptr, .removed call ptr ∈ log := by
  simp only [removals, mem_filterMap]
  constructor
  · rintro ⟨event, there, is⟩
    cases event <;> cases is
    exact ⟨_, there⟩
  · rintro ⟨ptr, there⟩
    exact ⟨_, there, rfl⟩

theorem mem_oks : call ∈ oks log ↔ .returned call .ok ∈ log := by
  simp only [oks, mem_filterMap]
  constructor
  · rintro ⟨event, there, is⟩
    rcases event with _ | _ | _ | _ | _ | ⟨call', answer⟩ <;> try cases is
    cases answer <;> cases is
    exact there
  · intro there
    exact ⟨_, there, rfl⟩

theorem Lives.numbered (lives : Lives s log) {event : Event} (there : event ∈ history log call) : call < s.calls := by
  by_contra beyond
  rw [lives.future call (Nat.le_of_not_lt beyond)] at there
  cases there

theorem Lives.inv (lives : Lives s log) : Inv s log := by
  have own {event : Event} {call : Call} (is : event.call = some call) : event ∈ history log call ↔ event ∈ log :=
    mem_history is
  have waits {call : Call} {w : Waiter} (there : s.waiter call = some w) : Life call (some w) (history log call) :=
    there ▸ lives.life call
  constructor
  case sorted => exact lives.sorted
  case listed => exact lives.listed
  case started => exact fun call w there => (own rfl).mp (waits there).started
  case numbered => exact fun call ptr there => lives.numbered ((own rfl).mpr there)
  case compared =>
    intro call found v there
    refine ⟨lives.numbered ((own rfl).mpr there), fun different ptr blocked => ?_⟩
    exact (lives.life call).compared ((own rfl).mpr there) different ((own rfl).mpr blocked)
  case unlinked =>
    intro call w there
    rw [(waits there).unlinked, mem_removals]
    exact exists_congr fun ptr => own rfl
  case waited => exact fun call ptr there => (own rfl).mp ((lives.life call).waited ((own rfl).mpr there))
  case returned =>
    intro call answer there
    have last := (own rfl).mpr there
    exact ⟨(lives.life call).returned last, lives.numbered last⟩
  case answered =>
    intro call ptr there gone
    have life := lives.life call
    rw [gone] at life
    exact (life.answered ((own rfl).mpr there)).imp fun answer => (own rfl).mp
  case blocked =>
    exact fun call ptr answer there last => (lives.life call).blocked ((own rfl).mpr there) ((own rfl).mpr last)
  case oks =>
    intro call there
    exact ((lives.life call).ok ((own rfl).mpr (mem_oks.mp there))).imp fun ptr => (own rfl).mp
  case order => exact lives.order
  case once =>
    refine nodup_filterMap (fun event call is => ?_) fun call => (lives.life call).removals_le
    cases event <;> cases is
    rfl
  case okOnce =>
    refine nodup_filterMap (fun event call is => ?_) fun call => (lives.life call).oks_le
    rcases event with _ | _ | _ | _ | _ | ⟨_, answer⟩ <;> try cases is
    cases answer <;> cases is
    rfl
  case signalled => exact lives.signalled
  case total => exact lives.total

theorem Inv.fresh (inv : Inv s log) :
    s.waiter s.calls = none ∧ (∀ ptr, .blocked s.calls ptr ∉ log) ∧ ∀ answer, .returned s.calls answer ∉ log := by
  have notBlocked : ∀ ptr, .blocked s.calls ptr ∉ log := fun ptr there => Nat.lt_irrefl _ (inv.numbered _ _ there)
  refine ⟨?_, notBlocked, fun answer there => Nat.lt_irrefl _ (inv.returned _ _ there).2⟩
  cases there : s.waiter s.calls with
  | none => rfl
  | some w => exact absurd (inv.started _ w there) (notBlocked _)

theorem mem_removedAt (there : call ∈ removedAt log ptr) : .removed call ptr ∈ log := by
  simp only [removedAt, mem_filterMap] at there
  obtain ⟨event, member, is⟩ := there
  cases event with
  | removed call' ptr' =>
    simp only [ite_none_right_eq_some, some.injEq] at is
    rwa [is.1, is.2] at member
  | _ => cases is

section

variable (lives : Lives s log)

include lives

theorem Lives.listed_lt (there : call ∈ s.waiterList) : call < s.calls := by
  obtain ⟨w, is, -⟩ := (lives.listed call).mp there
  exact lives.numbered (is ▸ lives.life call : Life call (some w) _).started

/-- An action that concerns one call only. -/
theorem Lives.follow (s' : State) (events : List Event)
    (own : ∀ event ∈ events, event.call = some call) (calls' : s.calls ≤ s'.calls) (below : call < s'.calls)
    (old : ∀ other ≠ call, s'.waiter other = s.waiter other)
    (next : Life call (s'.waiter call) (history log call ++ events)) :
    (∀ other, Life other (s'.waiter other) (history (log ++ events) other)) ∧
      ∀ other, s'.calls ≤ other → history (log ++ events) other = [] := by
  have others : ∀ other ≠ call, history (log ++ events) other = history log other := by
    intro other different
    have none' : history events other = [] := by
      refine filter_eq_nil_iff.mpr fun event there => ?_
      simp [own event there, different.symm]
    rw [history_append, none', append_nil]
  constructor
  · intro other
    rcases eq_or_ne other call with rfl | different
    · have all : history events other = events := by simpa [history] using own
      rwa [history_append, all]
    · rw [others other different, old other different]
      exact lives.life other
  · intro other beyond
    rw [others other (Nat.ne_of_gt (Nat.lt_of_lt_of_le below beyond))]
    exact lives.future other (Nat.le_trans calls' beyond)

theorem lives_notEqual (different : found ≠ v) :
    Lives { s with calls := s.calls + 1 } (log ++ [.compared s.calls found v, .returned s.calls .notEqual]) := by
  obtain ⟨life, future⟩ := lives.follow { s with calls := s.calls + 1 }
    [.compared s.calls found v, .returned s.calls .notEqual] (by simp [Event.call]) (Nat.le_succ _)
    (Nat.lt_succ_self _) (fun _ _ => rfl) (by
      rw [lives.future _ (Nat.le_refl _), lives.inv.fresh.1]
      exact .unequal different)
  refine ⟨life, future, lives.sorted, lives.listed, fun ptr => ?_, ?_, ?_⟩
  · have quiet : removedAt (log ++ [.compared s.calls found v, .returned s.calls .notEqual]) ptr =
        removedAt log ptr := by
      simp [removedAt]
    rw [quiet]
    exact lives.order ptr
  · simpa [signals, removals] using lives.signalled
  · simpa [counts, removals] using lives.total

theorem lives_blocked {timed : Bool} (calls' : s'.calls = s.calls + 1)
    (list' : s'.waiterList = s.waiterList ++ [s.calls]) (new : s'.waiter s.calls = some ⟨ptr, true, timed⟩)
    (old : ∀ call ≠ s.calls, s'.waiter call = s.waiter call) :
    Lives s' (log ++ [.compared s.calls v v, .blocked s.calls ptr]) := by
  obtain ⟨life, future⟩ := lives.follow s' [.compared s.calls v v, .blocked s.calls ptr] (by simp [Event.call])
    (calls' ▸ Nat.le_succ _) (calls' ▸ Nat.lt_succ_self _) old (by
      rw [lives.future _ (Nat.le_refl _), new]
      exact .waiting v ptr timed)
  refine ⟨life, future, ?_, fun call => ?_, fun ptr' => ?_, ?_, ?_⟩
  · rw [list']
    refine pairwise_append.mpr ⟨lives.sorted, pairwise_singleton _ _, fun call there call' last => ?_⟩
    rw [mem_singleton.mp last]
    exact lives.listed_lt there
  · rcases eq_or_ne call s.calls with rfl | same
    · simp [new, list']
    · rw [old call same, ← lives.listed call]
      simp [list', same]
  · have kept : s.waiterList.filter (s'.isAt ptr') = s.waiterList.filter (s.isAt ptr') := by
      refine filter_congr fun call there => ?_
      simp [State.isAt, old call (Nat.ne_of_lt (lives.listed_lt there))]
    have quiet : removedAt (log ++ [.compared s.calls v v, .blocked s.calls ptr]) ptr' = removedAt log ptr' := by
      simp [removedAt]
    rw [quiet, list', filter_append, kept, ← append_assoc]
    refine pairwise_append.mpr ⟨lives.order ptr', ?_, fun call there call' last => ?_⟩
    · exact (pairwise_singleton _ _).sublist filter_sublist
    · rw [mem_singleton.mp (mem_of_mem_filter last)]
      rcases mem_append.mp there with gone | waits
      · exact lives.numbered ((mem_history rfl).mpr (mem_removedAt gone))
      · exact lives.listed_lt (mem_of_mem_filter waits)
  · simpa [signals, removals] using lives.signalled
  · simpa [counts, removals] using lives.total

theorem lives_returned {answer : Answer} (waits : s.waiter call = some w) (wakes : answer ≠ .notEqual)
    (calls' : s'.calls = s.calls) (list' : s'.waiterList = s.waiterList.erase call) (gone : s'.waiter call = none)
    (old : ∀ other ≠ call, s'.waiter other = s.waiter other) : Lives s' (log ++ [.returned call answer]) := by
  have life : Life call (some w) (history log call) := waits ▸ lives.life call
  have distinct : s.waiterList.Nodup := lives.sorted.imp fun {_ _} => Nat.ne_of_lt
  have below := lives.numbered life.started
  obtain ⟨life', future⟩ := lives.follow s' [.returned call answer] (by simp [Event.call]) (Nat.le_of_eq calls'.symm)
    (calls' ▸ below) old (by
      rw [gone]
      exact life.ends wakes)
  refine ⟨life', future, ?_, fun other => ?_, fun ptr => ?_, ?_, ?_⟩
  · rw [list']
    exact lives.sorted.sublist erase_sublist
  · rw [list', distinct.mem_erase_iff, lives.listed]
    by_cases same : other = call
    · simp [same, gone]
    · simp [same, old other same]
  · have kept : s'.waiterList.filter (s'.isAt ptr) = s'.waiterList.filter (s.isAt ptr) := by
      refine filter_congr fun other there => ?_
      rw [list', distinct.mem_erase_iff] at there
      simp [State.isAt, old other there.1]
    have quiet : removedAt (log ++ [.returned call answer]) ptr = removedAt log ptr := by simp [removedAt]
    rw [quiet, kept, list']
    exact (lives.order ptr).sublist ((erase_sublist.filter _).append_left _)
  · simpa [signals, removals] using lives.signalled
  · simpa [counts, removals] using lives.total

theorem lives_wake (waits : s.waiter call = some w) (ret : CondResult) :
    Lives (endWait s call w ret).1 (log ++ (endWait s call w ret).2) := by
  refine lives_returned lives waits (by split <;> nofun) rfl ?_ (update_self ..)
    fun other different => update_of_ne different _ _
  cases linked : w.linked with
  | true => simp [endWait, linked]
  | false =>
    have away : call ∉ s.waiterList := by
      rw [lives.listed]
      rintro ⟨w', is, linked'⟩
      rw [waits] at is
      cases is
      simp [linked] at linked'
    simp [endWait, linked, erase_of_not_mem away]

end

theorem unlink_eq_some (there : s.unlink moved call = some w) :
    ∃ w', s.waiter call = some w' ∧ w.linked = (w'.linked && decide (call ∉ moved)) := by
  unfold State.unlink at there
  by_cases gone : call ∈ moved
  · rw [if_pos gone, map_eq_some_iff] at there
    obtain ⟨w', is, rfl⟩ := there
    exact ⟨w', is, by simp [gone]⟩
  · rw [if_neg gone] at there
    exact ⟨w, there, by simp [gone]⟩

theorem lives_moved (lives : Lives s log) {front rest kept : List Call} (list : s.waiterList = front ++ rest)
    (isKept : kept = front.filter (!s.isAt ptr ·) ++ rest) (isMoved : moved = front.filter (s.isAt ptr)) :
    Lives { s with waiterList := kept, waiter := s.unlink moved } (log ++ notifyEvents ptr moved) := by
  have split : (moved ++ kept).Perm s.waiterList := by
    rw [list, isKept, isMoved, ← append_assoc]
    exact (filter_append_perm _ front).append_right rest
  have distinct : (moved ++ kept).Nodup := split.nodup_iff.mpr (lives.sorted.imp fun {_ _} => Nat.ne_of_lt)
  have inEither : ∀ call, call ∈ s.waiterList ↔ call ∈ moved ∨ call ∈ kept := by
    intro call
    rw [← split.mem_iff, mem_append]
  have inOrder : kept.Sublist s.waiterList := by
    rw [list, isKept]
    exact filter_sublist.append_right rest
  have onPtr : ∀ call ∈ moved, s.isAt ptr call = true := by
    rw [isMoved]
    exact fun call there => (mem_filter.mp there).2
  have first : s.waiterList.filter (s.isAt ptr) = moved ++ kept.filter (s.isAt ptr) := by
    simp [list, isKept, isMoved, List.filter_filter]
  have others : ∀ ptr' ≠ ptr, kept.filter (s.isAt ptr') = s.waiterList.filter (s.isAt ptr') := by
    intro ptr' other
    rw [list, isKept, filter_append, filter_append, List.filter_filter]
    congr 1
    refine filter_congr fun call _ => ?_
    cases here : s.isAt ptr' call with
    | false => rfl
    | true =>
      simp only [State.isAt, beq_iff_eq] at here
      simp [State.isAt, here, other]
  have linked : ∀ call ∈ moved, ∃ w, s.waiter call = some w ∧ w.ptr = ptr ∧ w.linked = true := by
    intro call gone
    obtain ⟨w, is, linked⟩ := (lives.listed call).mp ((inEither call).mpr (.inl gone))
    have at' := onPtr call gone
    rw [State.isAt, is] at at'
    exact ⟨w, is, by simpa using at', linked⟩
  have told : ∀ call, history (log ++ notifyEvents ptr moved) call =
      history log call ++ if call ∈ moved then [.removed call ptr, .signalled call] else [] := by
    intro call
    rw [history_append, history_notify (distinct.sublist (sublist_append_left _ _))]
  refine ⟨fun call => ?_, fun call beyond => ?_, lives.sorted.sublist inOrder, fun call => ?_, fun ptr' => ?_, ?_, ?_⟩
  · rw [told]
    simp only [State.unlink]
    by_cases gone : call ∈ moved
    · obtain ⟨w, is, rfl, linked'⟩ := linked call gone
      rw [if_pos gone, if_pos gone, is]
      exact (is ▸ lives.life call : Life call (some w) _).notify linked'
    · rw [if_neg gone, if_neg gone, append_nil]
      exact lives.life call
  · have stays : call ∉ moved := fun gone =>
      Nat.not_lt_of_le beyond (lives.listed_lt ((inEither call).mpr (.inl gone)))
    rw [told, if_neg stays, append_nil]
    exact lives.future call beyond
  · constructor
    · intro there
      have stays : call ∉ moved := fun gone => (nodup_append.mp distinct).2.2 call gone call there rfl
      obtain ⟨w, is, linked'⟩ := (lives.listed call).mp ((inEither call).mpr (.inr there))
      exact ⟨w, (if_neg stays).trans is, linked'⟩
    · rintro ⟨w, is, linked'⟩
      obtain ⟨w', is', linkedEq⟩ := unlink_eq_some is
      rw [linkedEq, Bool.and_eq_true, decide_eq_true_eq] at linked'
      exact ((inEither call).mp ((lives.listed call).mpr ⟨w', is', linked'.1⟩)).resolve_left linked'.2
  · have isAt' : State.isAt { s with waiterList := kept, waiter := s.unlink moved } ptr' = s.isAt ptr' := by
      funext call
      simp only [State.isAt, State.unlink]
      split
      · rw [Option.map_map]
        rfl
      · rfl
    rw [isAt', removedAt_notify]
    rcases eq_or_ne ptr ptr' with rfl | same
    · rw [if_pos rfl, append_assoc, ← first]
      exact lives.order ptr
    · rw [if_neg same, append_nil, others ptr' (Ne.symm same)]
      exact lives.order ptr'
  · rw [signals_notify, removals_notify, lives.signalled]
  · rw [counts_notify, removals_notify, sum_append, length_append, lives.total, sum_singleton]

theorem lives_notify (lives : Lives s log) (ptr : Ptr) (shared : Bool) (count : Nat) :
    Lives (jsAtomicsNotify s ptr shared count).1 (log ++ (jsAtomicsNotify s ptr shared count).2) := by
  unfold jsAtomicsNotify
  split
  · obtain ⟨front, rest, list, looped⟩ := @notifyLoop_eq (s.isAt ptr) count 0 s.waiterList
    simp only [looped]
    exact lives_moved lives list rfl rfl
  · exact @lives_moved s log ptr [] lives [] s.waiterList s.waiterList rfl rfl rfl

theorem lives_step {a : Action} {events : List Event} (lives : Lives s log)
    (next : step s a = some (s', events)) : Lives s' (log ++ events) := by
  cases a with
  | write memory =>
    cases next
    rw [append_nil]
    exact { lives with }
  | wait ptr isInt64 v timed =>
    have is : jsAtomicsWait s ptr isInt64 v timed = (s', events) := by simpa [step] using next
    unfold jsAtomicsWait at is
    by_cases different : load s.memory isInt64 ptr ≠ v
    · rw [if_pos different] at is
      cases is
      exact lives_notEqual lives different
    · rw [if_neg different] at is
      cases is
      rw [not_not.mp different]
      exact lives_blocked lives rfl rfl (update_self ..) fun call other => update_of_ne other _ _
  | wake call ret =>
    unfold step at next
    cases waits : s.waiter call with
    | none => simp [waits] at next
    | some w =>
      simp only [waits, ite_none_left_eq_some, some.injEq] at next
      have wakes := lives_wake lives waits ret
      rwa [next.2] at wakes
  | notify ptr shared count =>
    have is : jsAtomicsNotify s ptr shared count = (s', events) := by simpa [step] using next
    have kept := lives_notify lives ptr shared count
    rwa [is] at kept

end Steps

end Atomics
