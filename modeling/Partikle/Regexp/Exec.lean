import Partikle.Regexp.Opcode
import Partikle.Text.Utf8

/-!
The backtracking machine `lre_exec_backtrack`. Pointers into the text are indices of its units; reading outside of the
text, a failed assertion and a position in the middle of an instruction have no result.
-/

namespace Regexp

open Text

structure ExecContext where
  cbuf : List Nat
  /-- 0 for 8 bit characters, 1 for 16 bit characters, 2 for UTF-16. -/
  cbufType : Nat
  captureCount : Nat
  multiLine : Bool
  ignoreCase : Bool
  isUnicode : Bool
  lreCanonicalize : Nat → Bool → Nat

variable (ctx : ExecContext)

section Characters

def isLineTerminator (c : Nat) : Bool := c = 0x0a || c = 0x0d || c = 0x2028 || c = 0x2029

def isWordChar (c : Nat) : Bool :=
  (0x30 ≤ c && c ≤ 0x39) || (0x61 ≤ c && c ≤ 0x7a) || (0x41 ≤ c && c ≤ 0x5a) || c = 0x5f

def pairAt (index stop : Nat) : Bool :=
  ctx.cbufType = 2 && isHiSurrogate (ctx.cbuf.getD index 0) && index + 1 < stop &&
    isLoSurrogate (ctx.cbuf.getD (index + 1) 0)

def getChar (stop cptr : Nat) : Option (Nat × Nat) :=
  match ctx.cbuf[cptr]? with
  | none => none
  | some c =>
    if pairAt ctx cptr stop then some (fromSurrogate c (ctx.cbuf.getD (cptr + 1) 0), cptr + 2) else some (c, cptr + 1)

def pairBefore (start cptr : Nat) : Bool :=
  ctx.cbufType = 2 && isLoSurrogate (ctx.cbuf.getD (cptr - 1) 0) && start < cptr - 1 &&
    isHiSurrogate (ctx.cbuf.getD (cptr - 2) 0)

def getPrevChar (start cptr : Nat) : Option (Nat × Nat) :=
  if cptr = 0 then none
  else
    match ctx.cbuf[cptr - 1]? with
    | none => none
    | some c =>
      if pairBefore ctx start cptr then some (fromSurrogate (ctx.cbuf.getD (cptr - 2) 0) c, cptr - 2)
      else some (c, cptr - 1)

def peekChar (cptr : Nat) : Option Nat := (getChar ctx ctx.cbuf.length cptr).map Prod.fst

def peekPrevChar (cptr : Nat) : Option Nat := (getPrevChar ctx 0 cptr).map Prod.fst

def prevChar (cptr : Nat) : Option Nat := (getPrevChar ctx 0 cptr).map Prod.snd

def goBackward : Nat → Nat → Option Nat
  | 0, cptr => some cptr
  | count + 1, cptr => (prevChar ctx cptr).bind (goBackward count)

def canonicalize (c : Nat) : Nat := if ctx.ignoreCase then ctx.lreCanonicalize c ctx.isUnicode else c

end Characters

section Ranges

variable (ranges : List (Nat × Nat)) (c : Nat)

/-- There is no range behind the last one. -/
def searchUnsigned : Nat → Nat → Nat → Option Bool
  | 0, _, _ => none
  | fuel + 1, idxMin, idxMax =>
    if idxMin ≤ idxMax then
      let idx := (idxMin + idxMax) % 2 ^ 32 / 2
      match ranges[idx]? with
      | none => none
      | some (low, high) =>
        if c < low then searchUnsigned fuel idxMin ((idx + (2 ^ 32 - 1)) % 2 ^ 32)
        else if c > high then searchUnsigned fuel ((idx + 1) % 2 ^ 32) idxMax
        else some true
    else some false

/-- No emitted instruction reads behind its ranges. -/
def searchRanges (idxMax : Nat) : Bool := (searchUnsigned ranges c (ranges.length + 1) 0 idxMax).getD false

/-- `REOP_range`: 0xffff as the last value means infinity. -/
def inRange : Bool :=
  let idxMax := ranges.length - 1
  let high := (ranges.getD idxMax (0, 0)).2
  if c < (ranges.getD 0 (0, 0)).1 then false
  else if 0xffff ≤ c ∧ high = 0xffff then true
  else if c > high then false
  else searchRanges ranges c idxMax

def inRange32 : Bool :=
  let idxMax := ranges.length - 1
  if c < (ranges.getD 0 (0, 0)).1 then false
  else if c > (ranges.getD idxMax (0, 0)).2 then false
  else searchRanges ranges c idxMax

end Ranges

inductive Verdict where
  | fails
  | goes (cptr : Nat)
deriving DecidableEq, Repr

def testChar (test : Nat → Bool) (cptr : Nat) : Option Verdict :=
  if cptr ≥ ctx.cbuf.length then some .fails
  else (getChar ctx ctx.cbuf.length cptr).map fun r => if test r.1 then .goes r.2 else .fails

def verdict (holds : Bool) (cptr : Nat) : Verdict := if holds then .goes cptr else .fails

def wordBefore (cptr : Nat) : Option Bool := if cptr = 0 then some false else (peekPrevChar ctx cptr).map isWordChar

def wordBehind (cptr : Nat) : Option Bool :=
  if cptr ≥ ctx.cbuf.length then some false else (peekChar ctx cptr).map isWordChar

def atWordBoundary (cptr : Nat) : Option Bool :=
  (wordBefore ctx cptr).bind fun v1 => (wordBehind ctx cptr).map fun v2 => v1 ^^ v2

def charTest (op : REOp) (c : Nat) : Bool :=
  match op with
  | .char val | .char32 val => val = canonicalize ctx c
  | .dot => !isLineTerminator c
  | .range ranges => inRange ranges (canonicalize ctx c)
  | .range32 ranges => inRange32 ranges (canonicalize ctx c)
  | _ => true

def examine (op : REOp) (cptr : Nat) : Option Verdict :=
  match op with
  | .lineStart =>
    if cptr = 0 then some (.goes cptr)
    else if !ctx.multiLine then some .fails
    else (peekPrevChar ctx cptr).map fun c => verdict (isLineTerminator c) cptr
  | .lineEnd =>
    if cptr = ctx.cbuf.length then some (.goes cptr)
    else if !ctx.multiLine then some .fails
    else (peekChar ctx cptr).map fun c => verdict (isLineTerminator c) cptr
  | .wordBoundary => (atWordBoundary ctx cptr).map fun b => verdict b cptr
  | .notWordBoundary => (atWordBoundary ctx cptr).map fun b => verdict (!b) cptr
  | op => if op.readsChar then testChar ctx (charTest ctx op) cptr else none

section BackReferences

def compareForward (stop1 : Nat) : Nat → Nat → Nat → Option Verdict
  | 0, _, _ => none
  | fuel + 1, cptr1, cptr =>
    if cptr1 < stop1 then
      if cptr ≥ ctx.cbuf.length then some .fails
      else
        match getChar ctx stop1 cptr1, getChar ctx ctx.cbuf.length cptr with
        | some (c1, cptr1), some (c2, cptr) =>
          if canonicalize ctx c1 ≠ canonicalize ctx c2 then some .fails else compareForward stop1 fuel cptr1 cptr
        | _, _ => none
    else some (.goes cptr)

def compareBackward (start1 : Nat) : Nat → Nat → Nat → Option Verdict
  | 0, _, _ => none
  | fuel + 1, cptr1, cptr =>
    if cptr1 > start1 then
      if cptr = 0 then some .fails
      else
        match getPrevChar ctx start1 cptr1, getPrevChar ctx 0 cptr with
        | some (c1, cptr1), some (c2, cptr) =>
          if canonicalize ctx c1 ≠ canonicalize ctx c2 then some .fails else compareBackward start1 fuel cptr1 cptr
        | _, _ => none
    else some (.goes cptr)

abbrev Captures := List (Option Nat)

def compareCapture (backward : Bool) (capture : Captures) (index cptr : Nat) : Option Verdict :=
  if index ≥ ctx.captureCount then some .fails
  else
    match capture.getD (2 * index) none, capture.getD (2 * index + 1) none with
    | some start1, some stop1 =>
      if backward then compareBackward ctx start1 (stop1 - start1 + 1) stop1 cptr
      else compareForward ctx stop1 (stop1 - start1 + 1) start1 cptr
    | _, _ => some (.goes cptr)

end BackReferences

inductive ExecStateType where
  | split
  | lookahead
  | negativeLookahead
  | greedyQuant
deriving DecidableEq, Repr

structure ExecState where
  type : ExecStateType
  count : Nat
  cptr : Nat
  pc : Int
  capture : Captures
  stack : List Nat
deriving DecidableEq, Repr

/-- The variables of the loop, with the states that were pushed, the last one first. -/
structure Machine where
  pc : Int
  cptr : Nat
  capture : Captures
  stack : List Nat
  states : List ExecState
deriving DecidableEq, Repr

def Machine.pushState (m : Machine) (type : ExecStateType) (count : Nat) (pc : Int) : Machine :=
  { m with states := ⟨type, count, m.cptr, pc, m.capture, m.stack⟩ :: m.states }

inductive Next where
  | go (m : Machine)
  | noMatch (m : Machine)
  | accept (m : Machine)
deriving DecidableEq, Repr

def resetCaptures (first last : Nat) (capture : Captures) : Captures :=
  capture.mapIdx fun i c => if first ≤ i / 2 ∧ i / 2 ≤ last then none else c

def decrement (n : Nat) : Nat := if n = 0 then 2 ^ 64 - 1 else n - 1

def Verdict.next (m : Machine) : Verdict → Next
  | .fails => .noMatch m
  | .goes cptr => .go { m with cptr := cptr }

def execOp (op : REOp) (m : Machine) : Option Next :=
  match op with
  | .matched => some (.accept m)
  | .splitNextFirst offset => some (.go (m.pushState .split 0 (m.pc + offset)))
  | .splitGotoFirst offset => some (.go { m.pushState .split 0 m.pc with pc := m.pc + offset })
  | .lookahead offset => some (.go (m.pushState .lookahead 0 (m.pc + offset)))
  | .negativeLookahead offset => some (.go (m.pushState .negativeLookahead 0 (m.pc + offset)))
  | .goto offset => some (.go { m with pc := m.pc + offset })
  | .saveStart index =>
    if index < ctx.captureCount then some (.go { m with capture := m.capture.set (2 * index) (some m.cptr) }) else none
  | .saveEnd index =>
    if index < ctx.captureCount then some (.go { m with capture := m.capture.set (2 * index + 1) (some m.cptr) })
    else none
  | .saveReset first last =>
    if last < ctx.captureCount then some (.go { m with capture := resetCaptures first last m.capture }) else none
  | .pushI32 val => some (.go { m with stack := val :: m.stack })
  | .drop =>
    match m.stack with
    | [] => none
    | _ :: stack => some (.go { m with stack := stack })
  | .loop offset =>
    match m.stack with
    | [] => none
    | top :: stack =>
      let m := { m with stack := decrement top :: stack }
      some (.go (if decrement top ≠ 0 then { m with pc := m.pc + offset } else m))
  | .pushCharPos => some (.go { m with stack := m.cptr :: m.stack })
  | .checkAdvance =>
    match m.stack with
    | [] => none
    | top :: stack =>
      if top = m.cptr then some (.noMatch { m with stack := stack }) else some (.go { m with stack := stack })
  | .backReference index => (compareCapture ctx false m.capture index m.cptr).map (Verdict.next m)
  | .backwardBackReference index => (compareCapture ctx true m.capture index m.cptr).map (Verdict.next m)
  | .prev =>
    if m.cptr = 0 then some (.noMatch m) else (prevChar ctx m.cptr).map fun cptr => .go { m with cptr := cptr }
  | .simpleGreedyQuant _ _ _ _ => none
  | op => (examine ctx op m.cptr).map (Verdict.next m)

section SimpleQuantifier

def runAtom (step : Machine → Option Next) : Nat → Machine → Option (Option Nat × Machine)
  | 0, _ => none
  | fuel + 1, m =>
    match step m with
    | none => none
    | some (.go m') => runAtom step fuel m'
    | some (.noMatch m') => some (none, m')
    | some (.accept m') => some (some m'.cptr, m')

/-- Repeat the atom while it matches, at most `quantMax` times: the count and the machine behind it. -/
def repeatAtom (run : Machine → Option (Option Nat × Machine)) (quantMax : Nat) :
    Nat → Nat → Machine → Option (Nat × Machine)
  | 0, _, _ => none
  | fuel + 1, q, m =>
    match run m with
    | none => none
    | some (none, m') => some (q, { m with capture := m'.capture, states := m'.states })
    | some (some cptr, m') =>
      let m := { m with cptr := cptr, capture := m'.capture, states := m'.states }
      if q + 1 ≥ quantMax ∧ quantMax ≠ int32Max then some (q + 1, m) else repeatAtom run quantMax fuel (q + 1) m

def quantNext (quantMin : Nat) (pc : Int) (next : Int) : Nat × Machine → Next
  | (q, m) =>
    let m := { m with pc := pc + 17 + next }
    if q < quantMin then .noMatch m
    -- all matches down to `quantMin` will be examined
    else if q > quantMin then .go (m.pushState .greedyQuant (q - quantMin) (pc + 1))
    else .go m

end SimpleQuantifier

def stepOp (code : List REOp) : Nat → Machine → Option Next
  | 0, _ => none
  | fuel + 1, m =>
    match fetch code m.pc with
    | none => none
    | some (.simpleGreedyQuant next quantMin quantMax _) =>
      let atom := fun m' : Machine => runAtom (stepOp code fuel) fuel { m' with pc := m.pc + 17 }
      (repeatAtom atom quantMax fuel 0 m).map (quantNext quantMin m.pc next)
    | some op => execOp ctx op { m with pc := m.pc + op.size }

inductive Config where
  | running (m : Machine)
  | unwinding (ret : Bool) (capture : Captures) (states : List ExecState)
deriving DecidableEq, Repr

def unwind (code : List REOp) (ret : Bool) (capture : Captures) (state : ExecState) (states : List ExecState) :
    Option Config :=
  match state.type with
  | .split =>
    if ret then some (.unwinding ret capture states)
    else some (.running ⟨state.pc, state.cptr, state.capture, state.stack, states⟩)
  | .greedyQuant =>
    if ret then some (.unwinding ret capture states)
    else
      match fetch code (state.pc - 1) with
      | some (.simpleGreedyQuant next _ _ charCount) =>
        (goBackward ctx charCount state.cptr).map fun cptr =>
          let states := if state.count - 1 = 0 then states else
            { state with cptr := cptr, count := state.count - 1 } :: states
          .running ⟨state.pc + 16 + next, cptr, state.capture, state.stack, states⟩
      | _ => none
  | .lookahead =>
    -- the captures are kept in case of a positive lookahead
    if ret then some (.running ⟨state.pc, state.cptr, capture, state.stack, states⟩)
    else some (.unwinding false capture states)
  | .negativeLookahead =>
    if ret then some (.unwinding false capture states)
    else some (.running ⟨state.pc, state.cptr, state.capture, state.stack, states⟩)

/-- One step of the machine; `fuel` bounds the repetitions of an atom. Nothing follows the last state. -/
def step (code : List REOp) (fuel : Nat) : Config → Option Config
  | .running m =>
    match stepOp ctx code fuel m with
    | none => none
    | some (.go m') => some (.running m')
    | some (.noMatch m') => some (.unwinding false m'.capture m'.states)
    | some (.accept m') => some (.unwinding true m'.capture m'.states)
  | .unwinding _ _ [] => none
  | .unwinding ret capture (state :: states) => unwind ctx code ret capture state states

/-- `lre_exec_backtrack` from `cptr` on: whether there is a match, and the captures. -/
def run (code : List REOp) (inner : Nat) : Nat → Config → Option (Bool × Captures)
  | 0, _ => none
  | _ + 1, .unwinding ret capture [] => some (ret, capture)
  | fuel + 1, c => (step ctx code inner c).bind (run code inner fuel)

def lreExec (code : List REOp) (cindex fuel : Nat) : Option (Bool × Captures) :=
  run ctx code fuel fuel (.running ⟨0, cindex, List.replicate (2 * ctx.captureCount) none, [], []⟩)

end Regexp
