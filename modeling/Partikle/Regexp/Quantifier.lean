import Partikle.Regexp.Atom

/-!
The greedy quantifiers: the places in the text that they offer to what follows them, one after the other as long as
that fails. The instruction of the simple quantifier is compared with the general loop for the same atom.
-/

namespace Regexp

open Option

structure Try where
  cptr : Nat
  capture : Captures
  stack : List Nat
deriving DecidableEq, Repr

variable (ctx : ExecContext) (code : List REOp) (inner : Nat) (stop : Int) (depth : Nat)

/-- The tries at the position `stop` when each of them fails, until the machine is back at its first `depth` states. -/
def tries : Nat → Config → Option (List Try)
  | 0, _ => none
  | fuel + 1, .running m =>
    if m.pc = stop then
      (tries fuel (.unwinding false m.capture m.states)).map (⟨m.cptr, m.capture, m.stack⟩ :: ·)
    else (step ctx code inner (.running m)).bind (tries fuel)
  | fuel + 1, .unwinding ret capture states =>
    if states.length ≤ depth then if ret then none else some []
    else (step ctx code inner (.unwinding ret capture states)).bind (tries fuel)

/-- The tries from a configuration, with any fuel from some bound on. -/
def Yields (c : Config) (l : List Try) : Prop := ∃ n, ∀ fuel, tries ctx code inner stop depth (fuel + n) c = some l

def Leads (c c' : Config) : Prop :=
  ∃ n, ∀ fuel, tries ctx code inner stop depth (fuel + n) c = tries ctx code inner stop depth fuel c'

def Falls (states : List ExecState) (l : List Try) : Prop :=
  ∀ capture, Yields ctx code inner stop depth (.unwinding false capture states) l

def CodeAt (pc : Int) (ops : List REOp) : Prop :=
  ∃ before after, code = before ++ ops ++ after ∧ pc = byteSize before

variable {ctx code inner stop depth}

section Code

variable {pc : Int} {op : REOp} {ops ops' : List REOp}

theorem CodeAt.fetch (at' : CodeAt code pc (op :: ops)) : fetch code pc = some op := by
  obtain ⟨before, after, rfl, rfl⟩ := at'
  rw [List.append_assoc]
  exact fetch_append before op (ops ++ after)

theorem CodeAt.append (at' : CodeAt code pc (ops ++ ops')) :
    CodeAt code pc ops ∧ CodeAt code (pc + byteSize ops) ops' := by
  obtain ⟨before, after, rfl, rfl⟩ := at'
  refine ⟨⟨before, ops' ++ after, by simp, rfl⟩, ⟨before ++ ops, after, by simp, ?_⟩⟩
  rw [byteSize_append]
  omega

theorem CodeAt.tail (at' : CodeAt code pc (op :: ops)) : CodeAt code (pc + op.size) ops := by
  have parts : CodeAt code pc ([op] ++ ops) := at'
  exact parts.append.2

end Code

variable {op : REOp} {capture : Captures}

section Tries

variable {c c' : Config} {l : List Try} {m m' : Machine} {states : List ExecState}

theorem Leads.yields (leads : Leads ctx code inner stop depth c c') (yields : Yields ctx code inner stop depth c' l) :
    Yields ctx code inner stop depth c l := by
  obtain ⟨n, leads⟩ := leads
  obtain ⟨n', yields⟩ := yields
  refine ⟨n' + n, fun fuel => ?_⟩
  rw [← Nat.add_assoc, leads, yields]

theorem leads_running (away : m.pc ≠ stop) (next : step ctx code inner (.running m) = some c') :
    Leads ctx code inner stop depth (.running m) c' := by
  refine ⟨1, fun fuel => ?_⟩
  rw [tries, if_neg away, next, bind_some]

theorem stepOp_eq {r : Next} (fetched : fetch code m.pc = some op) (fuel : Nat)
    (next : execOp ctx op { m with pc := m.pc + op.size } = some r) : stepOp ctx code (fuel + 1) m = some r := by
  rw [stepOp, fetched]
  cases op
  case simpleGreedyQuant => cases next
  all_goals exact next

theorem leads_op (away : m.pc ≠ stop) (fetched : fetch code m.pc = some op) (fuel : 0 < inner)
    (next : execOp ctx op { m with pc := m.pc + op.size } = some (.go m')) :
    Leads ctx code inner stop depth (.running m) (.running m') := by
  obtain ⟨inner, rfl⟩ := Nat.exists_eq_add_one.mpr fuel
  apply leads_running away
  rw [step, stepOp_eq fetched inner next]

theorem leads_fail (away : m.pc ≠ stop) (fetched : fetch code m.pc = some op) (fuel : 0 < inner)
    (next : execOp ctx op { m with pc := m.pc + op.size } = some (.noMatch m')) :
    Leads ctx code inner stop depth (.running m) (.unwinding false m'.capture m'.states) := by
  obtain ⟨inner, rfl⟩ := Nat.exists_eq_add_one.mpr fuel
  apply leads_running away
  rw [step, stepOp_eq fetched inner next]

theorem yields_try (there : m.pc = stop) (falls : Falls ctx code inner stop depth m.states l) :
    Yields ctx code inner stop depth (.running m) (⟨m.cptr, m.capture, m.stack⟩ :: l) := by
  obtain ⟨n, yields⟩ := falls m.capture
  refine ⟨n + 1, fun fuel => ?_⟩
  rw [← Nat.add_assoc, tries, if_pos there, yields]
  rfl

theorem falls_base : Falls ctx code inner stop states.length states [] := by
  refine fun capture => ⟨1, fun fuel => ?_⟩
  rw [tries, if_pos le_rfl]
  rfl

theorem leads_unwind {state : ExecState} (above : depth < (state :: states).length)
    (next : unwind ctx code false capture state states = some c') :
    Leads ctx code inner stop depth (.unwinding false capture (state :: states)) c' := by
  refine ⟨1, fun fuel => ?_⟩
  rw [tries, if_neg (by omega), step, next, bind_some]

theorem falls_split {count cptr : Nat} {pc : Int} {stack : List Nat} (above : depth < (states.length + 1))
    (yields : Yields ctx code inner stop depth (.running ⟨pc, cptr, capture, stack, states⟩) l) :
    Falls ctx code inner stop depth (⟨.split, count, cptr, pc, capture, stack⟩ :: states) l := by
  intro capture'
  refine Leads.yields (leads_unwind above ?_) yields
  rfl

end Tries

variable {atom : List REOp} {count : Nat} {pc : Int} {cptr : Nat} {stack : List Nat}
  {states : List ExecState} {l : List Try}

section Atoms

theorem execOp_simple (simple : op.isSimple = true) (m : Machine) :
    execOp ctx op m = (examine ctx op m.cptr).map (Verdict.next m) := by
  cases op <;> first | rfl | exact Bool.noConfusion simple

theorem atom_yields (simple : Simple atom count) (at' : CodeAt code pc atom) (before : pc + byteSize atom ≤ stop)
    (bound : cptr ≤ ctx.cbuf.length) (fuel : 0 < inner)
    (goes : ∀ cptr', atomEnd ctx atom cptr = some cptr' →
      Yields ctx code inner stop depth (.running ⟨pc + byteSize atom, cptr', capture, stack, states⟩) l)
    (fails : atomEnd ctx atom cptr = none → Falls ctx code inner stop depth states l) :
    Yields ctx code inner stop depth (.running ⟨pc, cptr, capture, stack, states⟩) l := by
  induction atom generalizing pc cptr count with
  | nil => simpa [byteSize] using goes cptr rfl
  | cons op atom ih =>
    obtain ⟨isSimple, count', rest, -⟩ := simple.cons
    have positive := op.size_pos
    have away : pc ≠ stop := by
      simp only [byteSize] at before
      omega
    obtain ⟨verdict, examined⟩ : ∃ v, examine ctx op cptr = some v := examine_total isSimple bound
    have executed : execOp ctx op ⟨pc + op.size, cptr, capture, stack, states⟩ = _ := execOp_simple isSimple _
    rw [examined] at executed
    cases verdict with
    | fails =>
      exact (leads_fail away at'.fetch fuel executed).yields (fails (by rw [atomEnd, examined]) capture)
    | goes cptr' =>
      have executed : _ = some (Next.go ⟨pc + op.size, cptr', capture, stack, states⟩) := executed
      apply (leads_op away at'.fetch fuel executed).yields
      have same : atomEnd ctx (op :: atom) cptr = atomEnd ctx atom cptr' := by rw [atomEnd, examined]
      have bound' := examine_goes_le isSimple bound examined
      refine ih rest at'.tail (by simp only [byteSize] at before; omega) bound' (fun cptr'' ends => ?_) fun stuck => ?_
      · have further := goes cptr'' (same ▸ ends)
        simpa [byteSize, Int.add_assoc] using further
      · exact fails (same ▸ stuck)

theorem runAtom_eq (simple : Simple atom count) (at' : CodeAt code pc (atom ++ [.matched]))
    (bound : cptr ≤ ctx.cbuf.length) {fuel : Nat} (enough : atom.length < fuel) : ∃ m,
      runAtom (stepOp ctx code (inner + 1)) fuel ⟨pc, cptr, capture, stack, states⟩ = some (atomEnd ctx atom cptr, m)
      ∧ m.capture = capture ∧ m.states = states := by
  induction atom generalizing pc cptr count fuel with
  | nil =>
    obtain _ | fuel := fuel
    · cases enough
    have accepts : stepOp ctx code (inner + 1) ⟨pc, cptr, capture, stack, states⟩ = _ :=
      stepOp_eq at'.fetch inner rfl
    exact ⟨_, by rw [runAtom, accepts]; rfl, rfl, rfl⟩
  | cons op atom ih =>
    obtain _ | fuel := fuel
    · cases enough
    obtain ⟨isSimple, count', rest, -⟩ := simple.cons
    obtain ⟨verdict, examined⟩ : ∃ v, examine ctx op cptr = some v := examine_total isSimple bound
    have executed : execOp ctx op ⟨pc + op.size, cptr, capture, stack, states⟩ = _ := execOp_simple isSimple _
    rw [examined] at executed
    have stepped : stepOp ctx code (inner + 1) ⟨pc, cptr, capture, stack, states⟩ = _ :=
      stepOp_eq at'.fetch inner executed
    cases verdict with
    | fails => exact ⟨_, by rw [runAtom, stepped, atomEnd, examined]; rfl, rfl, rfl⟩
    | goes cptr' =>
      have bound' := examine_goes_le isSimple bound examined
      obtain ⟨m, ran, kept⟩ := ih rest at'.tail bound' (show atom.length < fuel by simpa using enough)
      refine ⟨m, ?_, kept⟩
      rwa [runAtom, stepped, atomEnd, examined]

end Atoms

section Loops

open Greedy

def triesAt (capture : Captures) (stack : List Nat) (places : List Nat) : List Try :=
  places.map fun cptr => ⟨cptr, capture, stack⟩

theorem triesAt_snoc (places : List Nat) (cptr : Nat) :
    triesAt capture stack (places ++ [cptr]) ++ l = triesAt capture stack places ++ (⟨cptr, capture, stack⟩ :: l) := by
  simp [triesAt]

theorem split_yields (simple : Simple atom count) (at' : CodeAt code pc atom) (before : pc + byteSize atom ≤ stop)
    (bound : cptr ≤ ctx.cbuf.length) (fuel : 0 < inner) {n : Nat} {first : Try} {stack' : List Nat}
    (falls : Falls ctx code inner stop depth states (first :: l)) (entry : first = ⟨cptr, capture, stack'⟩)
    (goes : ∀ cptr', atomEnd ctx atom cptr = some cptr' →
      Yields ctx code inner stop depth (.running ⟨pc + byteSize atom, cptr', capture, stack, states⟩)
      (triesAt capture stack' (greedy (atomEnd ctx atom) n cptr') ++ (first :: l))) :
    Yields ctx code inner stop depth (.running ⟨pc, cptr, capture, stack, states⟩)
      (triesAt capture stack' (greedy (atomEnd ctx atom) (n + 1) cptr) ++ l) := by
  subst entry
  rw [greedy, triesAt_snoc]
  refine atom_yields simple at' before bound fuel (fun cptr' ends => ?_) fun stuck => ?_
  · rw [ends]
    exact goes cptr' ends
  · rwa [stuck]

section Jumps

variable {offset pc' : Int} {top : Nat} {ops : List REOp} (away : pc ≠ stop) (fuel : 0 < inner)

include away fuel

theorem leads_splitNextFirst (at' : CodeAt code pc (.splitNextFirst offset :: ops)) (target : pc + 5 + offset = pc') :
    Leads ctx code inner stop depth (.running ⟨pc, cptr, capture, stack, states⟩) (.running
      ⟨pc + 5, cptr, capture, stack, ⟨.split, 0, cptr, pc', capture, stack⟩ :: states⟩) := by
  subst target
  exact leads_op away at'.fetch fuel rfl

theorem leads_splitGotoFirst (at' : CodeAt code pc (.splitGotoFirst offset :: ops)) (target : pc + 5 + offset = pc') :
    Leads ctx code inner stop depth (.running ⟨pc, cptr, capture, stack, states⟩) (.running
      ⟨pc', cptr, capture, stack, ⟨.split, 0, cptr, pc + 5, capture, stack⟩ :: states⟩) := by
  subst target
  exact leads_op away at'.fetch fuel rfl

theorem leads_goto (at' : CodeAt code pc (.goto offset :: ops)) (target : pc + 5 + offset = pc') :
    Leads ctx code inner stop depth (.running ⟨pc, cptr, capture, stack, states⟩)
      (.running ⟨pc', cptr, capture, stack, states⟩) := by
  subst target
  exact leads_op away at'.fetch fuel rfl

theorem leads_pushI32 (at' : CodeAt code pc (.pushI32 top :: ops)) :
    Leads ctx code inner stop depth (.running ⟨pc, cptr, capture, stack, states⟩)
      (.running ⟨pc + 5, cptr, capture, top :: stack, states⟩) :=
  leads_op away at'.fetch fuel rfl

theorem leads_drop (at' : CodeAt code pc (.drop :: ops)) :
    Leads ctx code inner stop depth (.running ⟨pc, cptr, capture, top :: stack, states⟩)
      (.running ⟨pc + 1, cptr, capture, stack, states⟩) :=
  leads_op away at'.fetch fuel rfl

theorem leads_loop_back (at' : CodeAt code pc (.loop offset :: ops)) (target : pc + 5 + offset = pc') :
    Leads ctx code inner stop depth (.running ⟨pc, cptr, capture, (top + 2) :: stack, states⟩)
      (.running ⟨pc', cptr, capture, (top + 1) :: stack, states⟩) := by
  subst target
  exact leads_op away at'.fetch fuel rfl

theorem leads_loop_out (at' : CodeAt code pc (.loop offset :: ops)) :
    Leads ctx code inner stop depth (.running ⟨pc, cptr, capture, 1 :: stack, states⟩)
      (.running ⟨pc + 5, cptr, capture, 0 :: stack, states⟩) :=
  leads_op away at'.fetch fuel rfl

end Jumps

theorem counter_yields {cptr : Nat} {states : List ExecState} {l : List Try} (simple : Simple atom count)
    (bound : cptr ≤ ctx.cbuf.length) (fuel : 0 < inner) (above : depth ≤ states.length)
    (falls : Falls ctx code inner stop depth states l)
    (at' : CodeAt code pc (.splitNextFirst (byteSize atom + 5) :: atom ++
      [.loop (-(byteSize atom + 10 : Nat)), .drop])) (ends : pc + byteSize atom + 11 = stop) {n : Nat} :
    Yields ctx code inner stop depth (.running ⟨pc, cptr, capture, (n + 1) :: stack, states⟩)
      (triesAt capture stack (greedy (atomEnd ctx atom) (n + 1) cptr) ++ l) := by
  have atomAt : CodeAt code (pc + 5) (atom ++ [.loop (-(byteSize atom + 10 : Nat)), .drop]) := at'.tail
  have loopAt := atomAt.append.2
  have dropAt : CodeAt code (pc + 5 + byteSize atom + 5) [.drop] := loopAt.tail
  refine (leads_splitNextFirst (by omega) fuel at' (show _ = pc + 5 + byteSize atom + 5 by omega)).yields ?_
  have falls' : Falls ctx code inner stop depth
      (⟨.split, 0, cptr, pc + 5 + byteSize atom + 5, capture, (n + 1) :: stack⟩ :: states)
      (⟨cptr, capture, stack⟩ :: l) :=
    falls_split (by omega) ((leads_drop (by omega) fuel dropAt).yields (yields_try (by simp only; omega) falls))
  refine split_yields simple atomAt.append.1 (by omega) bound fuel falls' rfl fun cptr' next => ?_
  -- the last iteration leaves the loop, each other one counts down
  cases n with
  | zero =>
    refine (leads_loop_out (by omega) fuel loopAt).yields ((leads_drop (by omega) fuel dropAt).yields ?_)
    exact yields_try (by simp only; omega) falls'
  | succ n =>
    refine (leads_loop_back (by omega) fuel loopAt (show _ = pc by omega)).yields ?_
    exact counter_yields simple (simple.atomEnd_le bound next) fuel
      (by simp only [List.length_cons]; omega) falls' at' ends

section SimpleAtom

variable (simple : Simple atom count) (bound : cptr ≤ ctx.cbuf.length) (fuel : 0 < inner)

include simple bound fuel

variable {n : Nat}

section Greedy

variable (above : depth ≤ states.length) (falls : Falls ctx code inner stop depth states l)

include above falls

omit simple bound fuel in
theorem falls_past (cptr : Nat) (capture : Captures) (stack : List Nat) :
    Falls ctx code inner stop depth (⟨.split, 0, cptr, stop, capture, stack⟩ :: states) (⟨cptr, capture, stack⟩ :: l) :=
  falls_split (Nat.lt_succ_of_le above) (yields_try rfl falls)

theorem starLoop_yields (chars : 0 < count) (at' : CodeAt code pc (starLoop true atom))
    (ends : pc + byteSize (starLoop true atom) = stop) (enough : ctx.cbuf.length < cptr + n) :
    Yields ctx code inner stop depth (.running ⟨pc, cptr, capture, stack, states⟩)
      (triesAt capture stack (greedy (atomEnd ctx atom) n cptr) ++ l) := by
  have size : pc + 5 + byteSize atom + 5 = stop := by
    simp only [starLoop, List.cons_append, byteSize, byteSize_append, splitOp, if_true, REOp.size] at ends
    omega
  have atomAt : CodeAt code (pc + 5) (atom ++ [.goto (-(byteSize atom + 10 : Nat))]) := at'.tail
  induction n generalizing cptr states l with
  | zero => omega
  | succ n ih =>
    apply (leads_splitNextFirst (by omega) fuel at' (show _ = stop by omega)).yields
    have falls' := falls_past above falls cptr capture stack
    refine split_yields simple atomAt.append.1 (by omega) bound fuel falls' rfl fun cptr' next => ?_
    have further := simple.lt_atomEnd chars next
    apply (leads_goto (by omega) fuel atomAt.append.2 (show _ = pc by omega)).yields
    exact ih (simple.atomEnd_le bound next) (Nat.le_succ_of_le above) falls' (by omega)

theorem countedLoop_yields (at' : CodeAt code pc (countedLoop true (n + 1) atom))
    (ends : pc + byteSize (countedLoop true (n + 1) atom) = stop) :
    Yields ctx code inner stop depth (.running ⟨pc, cptr, capture, stack, states⟩)
      (triesAt capture stack (greedy (atomEnd ctx atom) (n + 1) cptr) ++ l) := by
  have size : pc + 5 + byteSize atom + 11 = stop := by
    simp only [countedLoop, List.cons_append, byteSize, byteSize_append, splitOp, if_true, REOp.size] at ends
    omega
  apply (leads_pushI32 (by omega) fuel at').yields
  exact counter_yields simple bound fuel above falls at'.tail size

theorem optional_yields (at' : CodeAt code pc (.splitNextFirst (byteSize atom) :: atom))
    (ends : pc + byteSize atom + 5 = stop) :
    Yields ctx code inner stop depth (.running ⟨pc, cptr, capture, stack, states⟩)
      (triesAt capture stack (greedy (atomEnd ctx atom) 1 cptr) ++ l) := by
  have atomAt : CodeAt code (pc + 5) atom := at'.tail
  apply (leads_splitNextFirst (by omega) fuel at' (show _ = stop by omega)).yields
  have falls' := falls_past above falls cptr capture stack
  refine split_yields simple atomAt (by omega) bound fuel falls' rfl fun cptr' next => ?_
  exact yields_try (by simp only; omega) falls'

theorem plusLoop_yields (chars : 0 < count)
    (at' : CodeAt code pc (atom ++ [.splitGotoFirst (-(byteSize atom + 5 : Nat))]))
    (ends : pc + byteSize atom + 5 = stop) (enough : ctx.cbuf.length < cptr + n) :
    Yields ctx code inner stop depth (.running ⟨pc + byteSize atom, cptr, capture, stack, states⟩)
      (triesAt capture stack (greedy (atomEnd ctx atom) n cptr) ++ l) := by
  induction n generalizing cptr states l with
  | zero => omega
  | succ n ih =>
    apply (leads_splitGotoFirst (by omega) fuel at'.append.2 (show _ = pc by omega)).yields
    rw [ends]
    have falls' := falls_past above falls cptr capture stack
    refine split_yields simple at'.append.1 (by omega) bound fuel falls' rfl fun cptr' next => ?_
    have further := simple.lt_atomEnd chars next
    exact ih (simple.atomEnd_le bound next) (Nat.le_succ_of_le above) falls' (by omega)

end Greedy

theorem counted_yields (at' : CodeAt code pc (atom ++ [.loop (-(byteSize atom + 5 : Nat)), .drop]))
    (ends : pc + byteSize atom + 6 ≤ stop)
    (goes : ∀ cptr', iterate (atomEnd ctx atom) (n + 1) cptr = some cptr' →
      Yields ctx code inner stop depth (.running ⟨pc + byteSize atom + 6, cptr', capture, stack, states⟩) l)
    (fails : iterate (atomEnd ctx atom) (n + 1) cptr = none → Falls ctx code inner stop depth states l) :
    Yields ctx code inner stop depth (.running ⟨pc, cptr, capture, (n + 1) :: stack, states⟩) l := by
  have dropAt : CodeAt code (pc + byteSize atom + 5) [.drop] := at'.append.2.tail
  induction n generalizing cptr with
  | zero =>
    refine atom_yields simple at'.append.1 (by omega) bound fuel (fun cptr' next => ?_) fun stuck => ?_
    · refine (leads_loop_out (by omega) fuel at'.append.2).yields ((leads_drop (by omega) fuel dropAt).yields ?_)
      rw [Int.add_assoc _ 5 1]
      exact goes cptr' (by simp [iterate, next])
    · exact fails (by simp [iterate, stuck])
  | succ n ih =>
    refine atom_yields simple at'.append.1 (by omega) bound fuel (fun cptr' next => ?_) fun stuck => ?_
    · apply (leads_loop_back (by omega) fuel at'.append.2 (show _ = pc by omega)).yields
      have same : iterate (atomEnd ctx atom) (n + 2) cptr = iterate (atomEnd ctx atom) (n + 1) cptr' := by
        rw [iterate, next, bind_some]
      rw [same] at goes fails
      exact ih (simple.atomEnd_le bound next) goes fails
    · exact fails (by simp [iterate, stuck])

theorem repeatedAtom_yields (at' : CodeAt code pc (repeatedAtom (n + 1) atom))
    (ends : pc + byteSize (repeatedAtom (n + 1) atom) ≤ stop)
    (goes : ∀ cptr', iterate (atomEnd ctx atom) (n + 1) cptr = some cptr' → Yields ctx code inner stop depth
      (.running ⟨pc + byteSize (repeatedAtom (n + 1) atom), cptr', capture, stack, states⟩) l)
    (fails : iterate (atomEnd ctx atom) (n + 1) cptr = none → Falls ctx code inner stop depth states l) :
    Yields ctx code inner stop depth (.running ⟨pc, cptr, capture, stack, states⟩) l := by
  unfold repeatedAtom at at' ends goes
  split at at'
  · obtain rfl : n = 0 := by omega
    refine atom_yields simple at' ends bound fuel (fun cptr' next => ?_) fun stuck => ?_
    · exact goes cptr' (by simp [iterate, next])
    · exact fails (by simp [iterate, stuck])
  · rename_i several
    rw [if_neg several] at ends goes
    have size : byteSize (.pushI32 (n + 1) :: atom ++ [.loop (-(byteSize atom + 5 : Nat)), .drop]) =
        byteSize atom + 11 := by
      simp only [List.cons_append, byteSize, byteSize_append, REOp.size]
      omega
    rw [size] at ends goes
    apply (leads_pushI32 (by omega) fuel at').yields
    have bodyAt : CodeAt code (pc + 5) (atom ++ [.loop (-(byteSize atom + 5 : Nat)), .drop]) := at'.tail
    refine counted_yields simple bound fuel bodyAt (by omega) (fun cptr' reached => ?_) fails
    have same : pc + 5 + byteSize atom + 6 = pc + (byteSize atom + 11 : Nat) := by omega
    rw [same]
    exact goes cptr' reached

omit bound fuel in
theorem Simple.mayNotAdvance (ret : Bool) : mayNotAdvance ret atom = (ret && count == 0) := by
  induction atom generalizing count ret with
  | nil =>
    cases simple
    simp [Regexp.mayNotAdvance]
  | cons op atom ih =>
    obtain ⟨isSimple, count', rest, counted⟩ := simple.cons
    rw [Regexp.mayNotAdvance]
    by_cases reads : op.readsChar = true
    · simp [reads, ih rest, counted]
    · have asserts : op.asserts = true := by simpa [REOp.isSimple, reads] using isSimple
      have noEffect : op.hasNoEffect = true := by cases op <;> first | rfl | exact Bool.noConfusion asserts
      simp [reads, noEffect, ih rest, counted]

omit fuel in
theorem Simple.iterate_le {cptr' : Nat}
    (reached : iterate (atomEnd ctx atom) n cptr = some cptr') : cptr' ≤ ctx.cbuf.length := by
  induction n generalizing cptr with
  | zero =>
    cases reached
    exact bound
  | succ n ih =>
    obtain ⟨next, ends, rest⟩ := bind_eq_some_iff.mp reached
    exact ih (simple.atomEnd_le bound ends) rest

omit bound fuel in
theorem Simple.checkedAtom_eq (chars : 0 < count) : reNeedCheckAdvance atom = false ∧ checkedAtom atom = atom := by
  have advances : reNeedCheckAdvance atom = false := by
    rw [reNeedCheckAdvance, simple.mayNotAdvance]
    simp
    omega
  exact ⟨advances, by simp [checkedAtom, advances]⟩

end SimpleAtom

variable (ctx) in
/-- The number of iterations that a text allows, behind the first `quantMin`. -/
def allowed (quantMin quantMax : Nat) : Nat :=
  if quantMax = int32Max then ctx.cbuf.length + 1 else quantMax - quantMin

theorem quantifierLoop_yields (simple : Simple atom count) (chars : 0 < count) {quantMin quantMax captures : Nat}
    (ordered : quantMin ≤ quantMax) (some' : 0 < quantMax)
    (at' : CodeAt code pc (quantifierLoop true quantMin quantMax captures captures atom))
    (ends : pc + byteSize (quantifierLoop true quantMin quantMax captures captures atom) = stop)
    (bound : cptr ≤ ctx.cbuf.length) (fuel : 0 < inner) (above : depth ≤ states.length)
    (falls : Falls ctx code inner stop depth states l) :
    Yields ctx code inner stop depth (.running ⟨pc, cptr, capture, stack, states⟩) (triesAt capture stack
      (offers (atomEnd ctx atom) quantMin (allowed ctx quantMin quantMax) cptr) ++ l) := by
  obtain ⟨advances, unchecked⟩ := simple.checkedAtom_eq chars
  simp only [quantifierLoop, unchecked, advances, ne_eq, not_true_eq_false, if_false, List.nil_append,
    and_true] at at' ends
  cases quantMin with
  | zero =>
    simp only [if_true, if_neg some'.ne'] at at' ends
    rcases eq_or_ne quantMax 1 with rfl | one
    · simp only [if_true, splitOp, byteSize, REOp.size] at at' ends
      exact optional_yields simple bound fuel above falls at' (by omega)
    · by_cases unbounded : quantMax = int32Max
      · simp only [if_neg one, if_pos unbounded] at at' ends
        rw [allowed, if_pos unbounded]
        exact starLoop_yields simple bound fuel above falls chars at' ends (by omega)
      · simp only [if_neg one, if_neg unbounded] at at' ends
        rw [allowed, if_neg unbounded]
        obtain ⟨n, rfl⟩ := Nat.exists_eq_add_one.mpr some'
        exact countedLoop_yields simple bound fuel above falls at' ends
  | succ min =>
    simp only [Nat.add_one_ne_zero, if_false] at at' ends
    split at at'
    · rename_i plus
      obtain ⟨single, unbounded⟩ := plus
      rw [if_pos ⟨single, unbounded⟩] at ends
      obtain rfl : min = 0 := by omega
      simp only [Bool.not_true, splitOp, Bool.false_eq_true, if_false] at at' ends
      simp only [byteSize_append, byteSize, REOp.size] at ends
      refine atom_yields simple at'.append.1 (by omega) bound fuel (fun cptr' next => ?_) fun stuck => ?_
      · simp only [offers, iterate, next, bind_some, allowed, if_pos unbounded]
        exact plusLoop_yields simple (simple.atomEnd_le bound next) fuel above falls chars at' (by omega) (by omega)
      · simpa [offers, iterate, stuck, triesAt] using falls
    · rename_i notPlus
      rw [if_neg notPlus] at ends
      rw [byteSize_append] at ends
      refine repeatedAtom_yields simple bound fuel at'.append.1 (by omega) (fun cptr' reached => ?_) fun stuck => ?_
      · have bound' := simple.iterate_le bound reached
        have restAt := at'.append.2
        simp only [offers, reached]
        by_cases unbounded : quantMax = int32Max
        · simp only [if_pos unbounded] at restAt ends
          rw [allowed, if_pos unbounded]
          exact starLoop_yields simple bound' fuel above falls chars restAt (by omega) (by omega)
        · by_cases more : quantMax > min + 1
          · simp only [if_neg unbounded, if_pos more] at restAt ends
            rw [allowed, if_neg unbounded]
            obtain ⟨n, rest⟩ : ∃ n, quantMax - (min + 1) = n + 1 := ⟨quantMax - (min + 1) - 1, by omega⟩
            rw [rest] at restAt ends ⊢
            exact countedLoop_yields simple bound' fuel above falls restAt (by omega)
          · simp only [if_neg unbounded, if_neg more, byteSize] at restAt ends
            rw [allowed, if_neg unbounded, show quantMax - (min + 1) = 0 by omega]
            exact yields_try (by simp only; omega) falls
      · simpa [offers, stuck, triesAt] using falls

end Loops

section SimpleQuantifier

open Greedy

variable {quantMin quantMax : Nat}

/-- The states that are left with `n` characters to give back. -/
theorem falls_greedyQuant (at' : CodeAt code pc (simpleQuantifier quantMin quantMax count atom))
    (ends : pc + byteSize atom + 18 = stop) (above : depth ≤ states.length)
    (falls : Falls ctx code inner stop depth states l) {n : Nat}
    (defined : ∀ i < n, ∃ back, goBackward ctx count ((atomStart ctx count)^[i] cptr) = some back) :
    Falls ctx code inner stop depth
      (if n = 0 then states else ⟨.greedyQuant, n, cptr, pc + 1, capture, stack⟩ :: states)
      (triesAt capture stack (retreat (atomStart ctx count) n cptr) ++ l) := by
  induction n generalizing cptr with
  | zero => exact falls
  | succ n ih =>
    intro capture'
    obtain ⟨back, went⟩ := defined 0 (by omega)
    have fetched : fetch code (pc + 1 - 1) = some (.simpleGreedyQuant (byteSize atom + 1) quantMin quantMax count) := by
      rw [Int.add_sub_cancel]
      exact at'.fetch
    have next : unwind ctx code false capture' ⟨.greedyQuant, n + 1, cptr, pc + 1, capture, stack⟩ states =
        some (.running ⟨stop, atomStart ctx count cptr, capture, stack, if n = 0 then states else
          ⟨.greedyQuant, n, atomStart ctx count cptr, pc + 1, capture, stack⟩ :: states⟩) := by
      have went : goBackward ctx count cptr = some back := went
      have target : pc + 1 + 16 + (byteSize atom + 1 : Int) = stop := by omega
      simp only [unwind, fetched, went, map_some, Bool.false_eq_true, if_false, target, atomStart, getD_some]
      rfl
    refine (leads_unwind (Nat.lt_succ_of_le above) next).yields (yields_try rfl (ih fun i below => ?_))
    exact defined (i + 1) (by omega)

section Counted

variable (simple : Simple atom count) (chars : 0 < count)

include simple chars

theorem repeatAtom_eq {run : Machine → Option (Option Nat × Machine)}
    (runs : ∀ m : Machine, m.cptr ≤ ctx.cbuf.length → ∃ m', run m = some (atomEnd ctx atom m.cptr, m') ∧ m'.capture =
      m.capture ∧ m'.states = m.states)
    {m : Machine} (bound : m.cptr ≤ ctx.cbuf.length) {fuel q k : Nat} (enough : ctx.cbuf.length < m.cptr + fuel)
    (finite : quantMax ≠ int32Max → q < quantMax ∧ k = quantMax - q)
    (infinite : quantMax = int32Max → ctx.cbuf.length < m.cptr + k) :
    repeatAtom run quantMax fuel q m = some (q + (climb (atomEnd ctx atom) k m.cptr).1,
      { m with cptr := (climb (atomEnd ctx atom) k m.cptr).2 }) := by
  induction fuel generalizing m q k with
  | zero => omega
  | succ fuel ih =>
    obtain ⟨m', ran, sameCapture, sameStates⟩ := runs m bound
    have more : 0 < k := by
      by_cases unbounded : quantMax = int32Max
      · omega
      · omega
    obtain ⟨k, rfl⟩ := Nat.exists_eq_add_one.mpr more
    rw [repeatAtom, ran, climb]
    cases next : atomEnd ctx atom m.cptr with
    | none => simp [sameCapture, sameStates]
    | some cptr' =>
      have further := simple.lt_atomEnd chars next
      simp only [sameCapture, sameStates]
      split
      · obtain rfl : k = 0 := by
          omega
        rfl
      · rw [ih (simple.atomEnd_le bound next) (by simp only; omega) (k := k)]
        · simp only [some.injEq, Prod.mk.injEq, and_true]
          omega
        · intro bounded
          omega
        · intro unbounded
          simp only
          omega

/-- The tries of the simple quantifier: the last one first, and then back over the atom. -/
def retreats (step : Nat → Option Nat) (back : Nat → Nat) (quantMin n cptr : Nat) : List Nat :=
  match iterate step quantMin cptr with
  | none => []
  | some cptr' => (climb step n cptr').2 :: retreat back (climb step n cptr').1 (climb step n cptr').2

theorem stepOp_simpleQuantifier (ordered : quantMin ≤ quantMax)
    (some' : 0 < quantMax) (at' : CodeAt code pc (simpleQuantifier quantMin quantMax count atom))
    (bound : cptr ≤ ctx.cbuf.length) (fuel : ctx.cbuf.length + atom.length + 3 ≤ inner) :
    stepOp ctx code inner ⟨pc, cptr, capture, stack, states⟩ = some (quantNext quantMin pc (byteSize atom + 1)
      ((climb (atomEnd ctx atom) (quantMin + allowed ctx quantMin quantMax) cptr).1, ⟨pc,
      (climb (atomEnd ctx atom) (quantMin + allowed ctx quantMin quantMax) cptr).2, capture, stack, states⟩)) := by
  obtain ⟨inner, rfl⟩ : ∃ k, inner = k + 2 := ⟨inner - 2, by omega⟩
  have atomAt : CodeAt code (pc + 17) (atom ++ [.matched]) := at'.tail
  rw [stepOp, at'.fetch]
  simp only
  rw [repeatAtom_eq (k := quantMin + allowed ctx quantMin quantMax) simple chars (fun m inside => ?_) bound
    (by simp only; omega) (fun bounded => ?_) (fun unbounded => ?_)]
  · simp
  · exact runAtom_eq simple atomAt inside (by omega)
  · rw [allowed, if_neg bounded]
    omega
  · rw [allowed, if_pos unbounded]
    omega

theorem Simple.goBackward_defined (bound : cptr ≤ ctx.cbuf.length)
    {n i : Nat} (below : i < (climb (atomEnd ctx atom) n cptr).1) :
    ∃ back, goBackward ctx count ((atomStart ctx count)^[i] (climb (atomEnd ctx atom) n cptr).2) = some back := by
  obtain ⟨from', -, ends⟩ := (simple.undoes chars).retreat_reached n bound below
  exact ⟨_, simple.goBackward_atomEnd chars ends⟩

theorem simpleQuantifier_yields (ordered : quantMin ≤ quantMax)
    (some' : 0 < quantMax) (at' : CodeAt code pc (simpleQuantifier quantMin quantMax count atom))
    (ends : pc + byteSize (simpleQuantifier quantMin quantMax count atom) = stop) (bound : cptr ≤ ctx.cbuf.length)
    (fuel : ctx.cbuf.length + atom.length + 3 ≤ inner) (above : depth ≤ states.length)
    (falls : Falls ctx code inner stop depth states l) :
    Yields ctx code inner stop depth (.running ⟨pc, cptr, capture, stack, states⟩) (triesAt capture stack (retreats
      (atomEnd ctx atom) (atomStart ctx count) quantMin (allowed ctx quantMin quantMax) cptr) ++ l) := by
  have size : pc + byteSize atom + 18 = stop := by
    simp only [simpleQuantifier, List.cons_append, byteSize, byteSize_append, REOp.size] at ends
    omega
  have stepped : stepOp ctx code inner ⟨pc, cptr, capture, stack, states⟩ = _ :=
    stepOp_simpleQuantifier simple chars ordered some' at' bound fuel
  have target : pc + 17 + (byteSize atom + 1 : Int) = stop := by omega
  cases reached : iterate (atomEnd ctx atom) quantMin cptr with
  | none =>
    have few := climb_lt (allowed ctx quantMin quantMax) reached
    simp only [quantNext, if_pos few] at stepped
    simp only [retreats, reached]
    exact (leads_running (by simp only; omega) (by rw [step, stepped])).yields (falls capture)
  | some cptr' =>
    have bound' := simple.iterate_le bound reached
    rw [climb_of_iterate (allowed ctx quantMin quantMax) reached] at stepped
    simp only [quantNext, target, Nat.not_lt.mpr (Nat.le_add_right _ _), if_false] at stepped
    simp only [retreats, reached]
    have defined := fun i below => simple.goBackward_defined chars bound' (i := i)
      (n := allowed ctx quantMin quantMax) below
    cases more : (climb (atomEnd ctx atom) (allowed ctx quantMin quantMax) cptr').1 with
    | zero =>
      rw [more, Nat.add_zero, if_neg (Nat.lt_irrefl _)] at stepped
      apply (leads_running (by simp only; omega) (by rw [step, stepped])).yields
      exact yields_try rfl falls
    | succ n =>
      rw [more] at stepped defined
      rw [if_pos (by omega), Nat.add_sub_cancel_left] at stepped
      apply (leads_running (by simp only; omega) (by rw [step, stepped])).yields
      exact yields_try rfl (falls_greedyQuant at' size above falls defined)

variable (ctx) in
/-- The quantifier starts between the halves of a pair, may match nothing and does match there. -/
def StartsInsidePair (atom : List REOp) (quantMin cptr : Nat) : Prop :=
  MidPair ctx cptr ∧ quantMin = 0 ∧ (atomEnd ctx atom cptr).isSome = true

theorem Simple.retreats_eq_offers (bound : cptr ≤ ctx.cbuf.length)
    (n : Nat) (outside : ¬StartsInsidePair ctx atom quantMin cptr) :
    retreats (atomEnd ctx atom) (atomStart ctx count) quantMin n cptr = offers (atomEnd ctx atom) quantMin n cptr := by
  unfold retreats offers
  cases reached : iterate (atomEnd ctx atom) quantMin cptr with
  | none => rfl
  | some cptr' =>
    have bound' := simple.iterate_le bound reached
    by_cases mid : MidPair ctx cptr'
    · -- only the start can be inside a pair, and nothing matches there
      cases quantMin with
      | zero =>
        cases reached
        have stuck : atomEnd ctx atom cptr = none := by
          by_contra some'
          exact outside ⟨mid, rfl, isSome_iff_ne_none.mpr some'⟩
        cases n <;> simp [climb, greedy, retreat, stuck]
      | succ k =>
        obtain ⟨last, ends⟩ := iterate_last reached
        exact absurd mid (simple.atomEnd_not_midPair chars ends)
    · exact ((simple.undoes chars).greedy_eq n ⟨bound', mid⟩).symm

theorem Simple.retreats_inside (bound : cptr ≤ ctx.cbuf.length)
    (n : Nat) (inside : StartsInsidePair ctx atom quantMin cptr) :
    cptr - 1 ∈ retreats (atomEnd ctx atom) (atomStart ctx count) quantMin (n + 1) cptr := by
  obtain ⟨mid, rfl, matches'⟩ := inside
  obtain ⟨cptr', ends⟩ := isSome_iff_exists.mp matches'
  have last : atomStart ctx count cptr' = cptr - 1 := by
    rw [atomStart, simple.goBackward_atomEnd chars ends, if_pos mid, getD_some]
  simp only [retreats, iterate]
  rw [(simple.undoes chars).retreat_eq n bound ends, last]
  simp

end Counted

end SimpleQuantifier

/-- Entered at `entry`, the code tries these places one after the other before it fails. -/
def Tries (ctx : ExecContext) (code : List REOp) (entry stop : Int) (m : Machine) (places : List Nat) : Prop :=
  ∃ bound, ∀ inner ≥ bound, Yields ctx code inner stop m.states.length (.running { m with pc := entry })
    (triesAt m.capture m.stack places)

section Comparison

open Greedy

variable {quantMin quantMax : Nat} {m : Machine} {entry : Int} {places places' : List Nat}

theorem Tries.unique (first : Tries ctx code entry stop m places) (second : Tries ctx code entry stop m places') :
    places = places' := by
  obtain ⟨bound, first⟩ := first
  obtain ⟨bound', second⟩ := second
  obtain ⟨n, first⟩ := first (bound + bound') (by omega)
  obtain ⟨n', second⟩ := second (bound + bound') (by omega)
  have same := (first n').symm.trans ((congrArg (tries ctx code (bound + bound') stop m.states.length · _)
    (Nat.add_comm n' n)).trans (second n))
  have cptrs := congrArg (List.map Try.cptr) (some.inj same)
  simpa [triesAt, Function.comp_def] using cptrs

theorem simpleQuantifier_tries (simple : Simple atom count) (chars : 0 < count) (ordered : quantMin ≤ quantMax)
    (some' : 0 < quantMax) (bound : m.cptr ≤ ctx.cbuf.length) (before after : List REOp) :
    Tries ctx (before ++ simpleQuantifier quantMin quantMax count atom ++ after) (byteSize before)
      (byteSize before + byteSize (simpleQuantifier quantMin quantMax count atom)) m
      (retreats (atomEnd ctx atom) (atomStart ctx count) quantMin (allowed ctx quantMin quantMax) m.cptr) := by
  refine ⟨ctx.cbuf.length + atom.length + 3, fun inner enough => ?_⟩
  rw [← List.append_nil (triesAt m.capture m.stack _)]
  exact simpleQuantifier_yields simple chars ordered some' ⟨before, after, rfl, rfl⟩ rfl bound enough
    le_rfl falls_base

theorem quantifierLoop_tries (simple : Simple atom count) (chars : 0 < count) (ordered : quantMin ≤ quantMax)
    (some' : 0 < quantMax) (captures : Nat) (bound : m.cptr ≤ ctx.cbuf.length) (before after : List REOp) :
    Tries ctx (before ++ quantifierLoop true quantMin quantMax captures captures atom ++ after) (byteSize before)
      (byteSize before + byteSize (quantifierLoop true quantMin quantMax captures captures atom)) m
      (offers (atomEnd ctx atom) quantMin (allowed ctx quantMin quantMax) m.cptr) := by
  refine ⟨1, fun inner enough => ?_⟩
  rw [← List.append_nil (triesAt m.capture m.stack _)]
  exact quantifierLoop_yields simple chars ordered some' ⟨before, after, rfl, rfl⟩ rfl bound (by omega)
    le_rfl falls_base

/-- The instruction of the simple quantifier tries the places that the loop for the same atom tries, none of them before
the start, exactly when it does not start inside of a surrogate pair with an atom that matches there. -/
theorem simpleQuantifier_tries_as_loop (simple : reIsSimpleQuantifier atom = some count) (chars : 0 < count)
    (ordered : quantMin ≤ quantMax) (some' : 0 < quantMax) (captures : Nat) (bound : m.cptr ≤ ctx.cbuf.length)
    (before after before' after' : List REOp) :
    ∃ fast slow, (∀ places,
      Tries ctx (before ++ simpleQuantifier quantMin quantMax count atom ++ after) (byteSize before)
        (byteSize before + byteSize (simpleQuantifier quantMin quantMax count atom)) m places ↔ places = fast) ∧
      (∀ places,
      Tries ctx (before' ++ quantifierLoop true quantMin quantMax captures captures atom ++ after') (byteSize before')
        (byteSize before' + byteSize (quantifierLoop true quantMin quantMax captures captures atom)) m places ↔
      places = slow) ∧ ((fast = slow ∧ ∀ cptr ∈ fast, m.cptr ≤ cptr) ↔
      ¬StartsInsidePair ctx atom quantMin m.cptr) := by
  have simple : Simple atom count := simple
  have fast := simpleQuantifier_tries simple chars ordered some' bound before after
  have slow := quantifierLoop_tries simple chars ordered some' captures bound before' after'
  refine ⟨_, _, fun places => ⟨fun tried => tried.unique fast, fun same => same ▸ fast⟩,
    fun places => ⟨fun tried => tried.unique slow, fun same => same ▸ slow⟩, ?_⟩
  constructor
  · rintro ⟨-, behind⟩ inside
    have positive := inside.1.2.1
    have most : 0 < allowed ctx quantMin quantMax := by
      have none' := inside.2.1
      unfold allowed
      split <;> omega
    obtain ⟨n, more⟩ : ∃ n, allowed ctx quantMin quantMax = n + 1 := ⟨_, (Nat.succ_pred_eq_of_pos most).symm⟩
    rw [more] at behind
    have := behind _ (simple.retreats_inside chars bound n inside)
    omega
  · intro outside
    have same := simple.retreats_eq_offers chars bound (allowed ctx quantMin quantMax) outside
    refine ⟨same, fun cptr member => ?_⟩
    rw [same] at member
    exact le_of_mem_offers (fun _ _ ends => Nat.le_of_lt (simple.lt_atomEnd chars ends)) member

/-- A text for a regular expression with the unicode flag and one capture. -/
def unicodeText (cbuf : List Nat) : ExecContext where
  cbuf := cbuf
  cbufType := 2
  captureCount := 1
  multiLine := false
  ignoreCase := false
  isUnicode := true
  lreCanonicalize := fun c _ => c

theorem simpleQuantifier_tries_as_loop_letters :
    ∃ places,
      Tries (unicodeText [0x61, 0x61, 0x62]) (simpleQuantifier 0 int32Max 1 [.char 0x61]) 0 21
        ⟨0, 0, [none, none], [], []⟩ places ∧
      Tries (unicodeText [0x61, 0x61, 0x62]) (quantifierLoop true 0 int32Max 1 1 [.char 0x61]) 0 13
        ⟨0, 0, [none, none], [], []⟩ places := by
  obtain ⟨fast, slow, fastTries, slowTries, same⟩ := simpleQuantifier_tries_as_loop (m := ⟨0, 0, [none, none], [], []⟩)
    (show reIsSimpleQuantifier [.char 0x61] = some 1 by rfl) (by decide) (show 0 ≤ int32Max by decide) (by decide) 1
    (show 0 ≤ (unicodeText [0x61, 0x61, 0x62]).cbuf.length by decide) [] [] [] []
  have outside : ¬StartsInsidePair (unicodeText [0x61, 0x61, 0x62]) [.char 0x61] 0 0 := fun inside =>
    absurd inside.1.2.1 (by decide)
  obtain ⟨equal, -⟩ := same.mpr outside
  exact ⟨fast, (fastTries fast).mpr rfl, (slowTries fast).mpr equal⟩

def grin : ExecContext := unicodeText [0xD83D, 0xDE00]

/-- The sticky expression that is a dot with a star, in front of a lookahead for the character `grin`. -/
def dotStarLookahead : List REOp :=
  .saveStart 0 :: simpleQuantifier 0 int32Max 1 [.dot] ++
    [.lookahead 6, .char32 0x1F600, .matched, .saveEnd 0, .matched]

/-- Started inside of the pair, the simple quantifier goes back before its start, where the loop does not go, and the
match that is found ends before it starts. -/
theorem simpleQuantifier_goes_before_start :
    Tries grin (simpleQuantifier 0 int32Max 1 [.dot]) 0 19 ⟨0, 1, [none, none], [], []⟩ [2, 0] ∧
      Tries grin (quantifierLoop true 0 int32Max 1 1 [.dot]) 0 11 ⟨0, 1, [none, none], [], []⟩ [2, 1] ∧
      lreExec grin dotStarLookahead 1 20 = some (true, [some 1, some 0]) := by
  have simple : Simple [.dot] 1 := rfl
  have bound : (⟨0, 1, [none, none], [], []⟩ : Machine).cptr ≤ grin.cbuf.length := by decide
  refine ⟨?_, ?_, by decide⟩
  · exact simpleQuantifier_tries simple (by decide) (show 0 ≤ int32Max by decide) (by decide) bound [] []
  · exact quantifierLoop_tries simple (by decide) (show 0 ≤ int32Max by decide) (by decide) 1 bound [] []

end Comparison

end Regexp
