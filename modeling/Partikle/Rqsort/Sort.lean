import Partikle.Lib.Effect
import Partikle.Rqsort.Exchange

/-!
`rqsort` and `heapsortx`. Pointers into the array are the numbers of elements. A comparison or an exchange that is not
inside the array, a range pushed on a full stack and a loop that has used up its fuel are undefined. The comparison
function has a state of its own and sees the memory, so that it may answer anything at any time.
-/

namespace Rqsort

abbrev Cmp (C : Type) := C → Memory → Nat → Nat → Int × C

structure State (C : Type) where
  mem : Memory
  arg : C

structure Arr (C : Type) where
  base : Nat
  nmemb : Nat
  size : Nat
  cmp : Cmp C

abbrev Run (C : Type) := Effect (State C) Empty

structure Range where
  base : Nat
  count : Nat
  depth : Nat

variable {C : Type} (arr : Arr C)

def Arr.addr (i : Nat) : Nat := arr.base + i * arr.size

def Arr.compare (i j : Nat) : Run C Int := fun s =>
  if i < arr.nmemb ∧ j < arr.nmemb then
    let (c, arg) := arr.cmp s.arg s.mem (arr.addr i) (arr.addr j)
    some (.ok (c, { s with arg }))
  else none

def Arr.exchange (exchange : Exchange) (i j count : Nat) : Run C Unit := fun s =>
  if i + count ≤ arr.nmemb ∧ j + count ≤ arr.nmemb then
    some (.ok ((), { s with mem := exchange (arr.addr i) (arr.addr j) (count * arr.size) s.mem }))
  else none

def Arr.swap (i j : Nat) : Run C Unit := arr.exchange (exchangeFunc arr.base arr.size) i j 1

/-- `heapsortx` chooses its function for the start of the range. -/
def Arr.swapIn (ptr i j : Nat) : Run C Unit := arr.exchange (exchangeFunc (arr.addr ptr) arr.size) i j 1

def Arr.swapBlock (i j count : Nat) : Run C Unit := arr.exchange (exchangeFunc arr.base (arr.size ||| 128)) i j count

section Heap

def rightChild (ptr n c : Nat) : Run C Bool :=
  if c < n - 1 then do
    let d ← arr.compare (ptr + c) (ptr + c + 1)
    pure (decide (d ≤ 0))
  else pure false

def siftDown (ptr n : Nat) : Nat → Nat → Run C Unit
  | 0, _ => Effect.undefined
  | fuel + 1, r => do
      let c := r * 2 + 1
      if c < n then
        let right ← rightChild arr ptr n c
        let c := if right then c + 1 else c
        if 0 < (← arr.compare (ptr + r) (ptr + c)) then pure ()
        else do
          arr.swapIn ptr (ptr + r) (ptr + c)
          siftDown ptr n fuel c
      else pure ()

def heapify (ptr nmemb fuel : Nat) : Nat → Run C Unit
  | 0 => pure ()
  | i + 1 => do
      siftDown arr ptr nmemb fuel i
      heapify ptr nmemb fuel i

def extract (ptr fuel : Nat) : Nat → Run C Unit
  | 0 => pure ()
  | i + 1 => do
      arr.swapIn ptr ptr (ptr + (i + 1))
      siftDown arr ptr (i + 1) fuel 0
      extract ptr fuel i

def heapsortx (fuel ptr nmemb : Nat) : Run C Unit :=
  if 1 < nmemb then do
    heapify arr ptr nmemb fuel (nmemb / 2)
    extract arr ptr fuel (nmemb - 1)
  else pure ()

end Heap

section Partition

def med3 (a b c : Nat) : Run C Nat := do
  if (← arr.compare a b) < 0 then
    if (← arr.compare b c) < 0 then pure b
    else if (← arr.compare a c) < 0 then pure c else pure a
  else if 0 < (← arr.compare b c) then pure b
  else if (← arr.compare a c) < 0 then pure a else pure c

structure Scan where
  i : Nat
  lt : Nat
  gt : Nat
  pi : Nat
  pj : Nat
  plt : Nat
  pgt : Nat

def scanUp (ptr : Nat) : Nat → Scan → Run C Scan
  | 0, _ => Effect.undefined
  | fuel + 1, v =>
    if v.pi < v.pj then do
      let c ← arr.compare ptr v.pi
      if 0 ≤ c then
        if c = 0 then do
          arr.swap v.plt v.pi
          scanUp ptr fuel { v with lt := v.lt + 1, plt := v.plt + 1, i := v.i + 1, pi := v.pi + 1 }
        else scanUp ptr fuel { v with i := v.i + 1, pi := v.pi + 1 }
      else pure v
    else pure v

def scanDown (ptr : Nat) : Nat → Scan → Run C Scan
  | 0, _ => Effect.undefined
  | fuel + 1, v =>
    let v := { v with pj := v.pj - 1 }
    if v.pi < v.pj then do
      let c ← arr.compare ptr v.pj
      if c ≤ 0 then
        if c = 0 then do
          arr.swap (v.pgt - 1) v.pj
          scanDown ptr fuel { v with gt := v.gt - 1, pgt := v.pgt - 1 }
        else scanDown ptr fuel v
      else pure v
    else pure v

def partition (ptr innerFuel : Nat) : Nat → Scan → Run C Scan
  | 0, _ => Effect.undefined
  | fuel + 1, v => do
      let v ← scanUp arr ptr innerFuel v
      let v ← scanDown arr ptr innerFuel v
      if v.pj ≤ v.pi then pure v
      else do
        arr.swap v.pi v.pj
        partition ptr innerFuel fuel { v with i := v.i + 1, pi := v.pi + 1 }

/-- What the two parts of a range are: `lt` elements at its start, and those from `gt` on, at `pgt`. -/
structure Parts where
  lt : Nat
  gt : Nat
  pgt : Nat

def splitRange (fuel ptr nmemb : Nat) : Run C Parts := do
  let m4 := nmemb >>> 2
  let m ← med3 arr (ptr + m4) (ptr + 2 * m4) (ptr + 3 * m4)
  arr.swap ptr m
  let top := ptr + nmemb
  let v ← partition arr ptr fuel fuel ⟨1, 1, nmemb, ptr + 1, top, ptr + 1, top⟩
  let span := v.plt - ptr
  let span2 := v.pi - v.plt
  let lt := v.i - v.lt
  let span := if span2 < span then span2 else span
  arr.swapBlock ptr (v.pi - span) span
  let span := top - v.pgt
  let span2 := v.pgt - v.pi
  let pgt := top - span2
  let gt := nmemb - (v.gt - v.i)
  let span := if span2 < span then span2 else span
  arr.swapBlock v.pi (top - span) span
  pure ⟨lt, gt, pgt⟩

end Partition

section Loops

def sink (ptr : Nat) : Nat → Run C Unit
  | 0 => pure ()
  | pj + 1 =>
    if ptr < pj + 1 then do
      if 0 < (← arr.compare pj (pj + 1)) then do
        arr.swap (pj + 1) pj
        sink ptr pj
      else pure ()
    else pure ()

def insertionSort (ptr : Nat) : Nat → Nat → Run C Unit
  | _, 0 => pure ()
  | pi, left + 1 => do
      sink arr ptr pi
      insertionSort ptr (pi + 1) left

def push (range : Range) (stack : List Range) : Run C (List Range) :=
  if stack.length < 50 then pure (range :: stack) else Effect.undefined

def splitLoop (innerFuel : Nat) : Nat → Range → List Range → Run C (Range × List Range)
  | 0, _, _ => Effect.undefined
  | fuel + 1, ⟨ptr, nmemb, depth⟩, stack =>
    if 6 < nmemb then
      if 50 < depth + 1 then do
        heapsortx arr innerFuel ptr nmemb
        pure (⟨ptr, 0, depth + 1⟩, stack)
      else do
        let parts ← splitRange arr innerFuel ptr nmemb
        if nmemb - parts.gt < parts.lt then do
          let stack ← push ⟨ptr, parts.lt, depth + 1⟩ stack
          splitLoop innerFuel fuel ⟨parts.pgt, nmemb - parts.gt, depth + 1⟩ stack
        else do
          let stack ← push ⟨parts.pgt, nmemb - parts.gt, depth + 1⟩ stack
          splitLoop innerFuel fuel ⟨ptr, parts.lt, depth + 1⟩ stack
    else pure (⟨ptr, nmemb, depth⟩, stack)

def sortLoop (innerFuel : Nat) : Nat → List Range → Run C Unit
  | 0, _ => Effect.undefined
  | _ + 1, [] => pure ()
  | fuel + 1, range :: stack => do
      let (range, stack) ← splitLoop arr innerFuel innerFuel range stack
      insertionSort arr range.base (range.base + 1) (range.count - 1)
      sortLoop innerFuel fuel stack

def rqsort (fuel : Nat) : Run C Unit :=
  if arr.nmemb < 2 ∨ arr.size ≤ 0 then pure ()
  else sortLoop arr fuel fuel [⟨0, arr.nmemb, 0⟩]

end Loops

end Rqsort
