import Mathlib.Data.List.Basic

/-!
The instructions of `libregexp-opcode.h` and the code that `re_parse_term` lays out for a quantifier. A program is the
sequence of its instructions; positions and jumps count bytes, as in the source.
-/

namespace Regexp

inductive REOp where
  | char (val : Nat)
  | char32 (val : Nat)
  | dot
  | any
  | lineStart
  | lineEnd
  | goto (offset : Int)
  | splitGotoFirst (offset : Int)
  | splitNextFirst (offset : Int)
  | matched
  | saveStart (index : Nat)
  | saveEnd (index : Nat)
  | saveReset (first last : Nat)
  | loop (offset : Int)
  | pushI32 (val : Nat)
  | drop
  | wordBoundary
  | notWordBoundary
  | backReference (index : Nat)
  | backwardBackReference (index : Nat)
  | range (ranges : List (Nat × Nat))
  | range32 (ranges : List (Nat × Nat))
  | lookahead (offset : Int)
  | negativeLookahead (offset : Int)
  | pushCharPos
  | checkAdvance
  | prev
  | simpleGreedyQuant (next : Int) (quantMin quantMax charCount : Nat)
deriving DecidableEq, Repr

def REOp.size : REOp → Nat
  | .char _ => 3
  | .char32 _ => 5
  | .dot | .any | .lineStart | .lineEnd => 1
  | .goto _ | .splitGotoFirst _ | .splitNextFirst _ => 5
  | .matched => 1
  | .saveStart _ | .saveEnd _ => 2
  | .saveReset _ _ => 3
  | .loop _ | .pushI32 _ => 5
  | .drop | .wordBoundary | .notWordBoundary => 1
  | .backReference _ | .backwardBackReference _ => 2
  | .range ranges => 3 + 4 * ranges.length
  | .range32 ranges => 3 + 8 * ranges.length
  | .lookahead _ | .negativeLookahead _ => 5
  | .pushCharPos | .checkAdvance | .prev => 1
  | .simpleGreedyQuant _ _ _ _ => 17

theorem REOp.size_pos (op : REOp) : 0 < op.size := by
  cases op <;> simp only [size] <;> omega

def byteSize : List REOp → Nat
  | [] => 0
  | op :: code => op.size + byteSize code

@[simp] theorem byteSize_append (code code' : List REOp) :
    byteSize (code ++ code') = byteSize code + byteSize code' := by
  induction code with
  | nil => simp [byteSize]
  | cons op code ih =>
    simp only [List.cons_append, byteSize, ih]
    omega

def fetch : List REOp → Int → Option REOp
  | [], _ => none
  | op :: code, pc => if pc = 0 then some op else fetch code (pc - op.size)

theorem fetch_append (before : List REOp) (op : REOp) (after : List REOp) :
    fetch (before ++ op :: after) (byteSize before) = some op := by
  induction before with
  | nil => simp [byteSize, fetch]
  | cons first before ih =>
    have positive := first.size_pos
    simp only [List.cons_append, fetch, byteSize]
    rw [if_neg (by omega), ← ih]
    congr 1
    omega

def int32Max : Nat := 2147483647

def REOp.readsChar : REOp → Bool
  | .range _ | .range32 _ | .char _ | .char32 _ | .dot | .any => true
  | _ => false

def REOp.asserts : REOp → Bool
  | .lineStart | .lineEnd | .wordBoundary | .notWordBoundary => true
  | _ => false

def REOp.hasNoEffect : REOp → Bool
  | .lineStart | .lineEnd | .pushI32 _ | .pushCharPos | .drop | .wordBoundary | .notWordBoundary | .prev => true
  | .saveStart _ | .saveEnd _ | .saveReset _ _ | .backReference _ | .backwardBackReference _ => true
  | _ => false

def mayNotAdvance (ret : Bool) : List REOp → Bool
  | [] => ret
  | op :: code =>
    if op.readsChar then mayNotAdvance false code
    else if op.hasNoEffect then mayNotAdvance ret code
    else true

def reNeedCheckAdvance (code : List REOp) : Bool := mayNotAdvance true code

/-- The number of characters of an atom that the simple quantifier can repeat. -/
def reIsSimpleQuantifier : List REOp → Option Nat
  | [] => some 0
  | op :: code =>
    if op.readsChar then (reIsSimpleQuantifier code).map (· + 1)
    else if op.asserts then reIsSimpleQuantifier code
    else none

section Quantifiers

/-- The code of a greedy quantifier for an atom that `reIsSimpleQuantifier` takes. -/
def simpleQuantifier (quantMin quantMax charCount : Nat) (atom : List REOp) : List REOp :=
  .simpleGreedyQuant (byteSize atom + 1) quantMin quantMax charCount :: atom ++ [.matched]

def splitOp (greedy : Bool) (offset : Int) : REOp :=
  if greedy then .splitNextFirst offset else .splitGotoFirst offset

/-- The atom, with the check that it has advanced where it may not. -/
def checkedAtom (atom : List REOp) : List REOp :=
  if reNeedCheckAdvance atom then .pushCharPos :: atom ++ [.checkAdvance] else atom

def starLoop (greedy : Bool) (body : List REOp) : List REOp :=
  splitOp greedy (byteSize body + 5) :: body ++ [.goto (-(byteSize body + 10 : Nat))]

def countedLoop (greedy : Bool) (count : Nat) (body : List REOp) : List REOp :=
  .pushI32 count :: splitOp greedy (byteSize body + 5) :: body ++ [.loop (-(byteSize body + 10 : Nat)), .drop]

def repeatedAtom (count : Nat) (atom : List REOp) : List REOp :=
  if count = 1 then atom else .pushI32 count :: atom ++ [.loop (-(byteSize atom + 5 : Nat)), .drop]

/-- The code of a quantifier in general, for an atom with the captures from `lastCaptureCount` to `captureCount`. -/
def quantifierLoop (greedy : Bool) (quantMin quantMax lastCaptureCount captureCount : Nat) (atom : List REOp) :
    List REOp :=
  let body := checkedAtom atom
  if quantMin = 0 then
    (if lastCaptureCount ≠ captureCount then [.saveReset lastCaptureCount (captureCount - 1)] else []) ++
      (if quantMax = 0 then []
      else if quantMax = 1 then splitOp greedy (byteSize body) :: body
      else if quantMax = int32Max then starLoop greedy body
      else countedLoop greedy quantMax body)
  else if quantMin = 1 ∧ quantMax = int32Max ∧ reNeedCheckAdvance atom = false then
    atom ++ [splitOp (!greedy) (-(byteSize atom + 5 : Nat))]
  else
    repeatedAtom quantMin atom ++
      (if quantMax = int32Max then starLoop greedy body
      else if quantMax > quantMin then countedLoop greedy (quantMax - quantMin) body
      else [])

end Quantifiers

end Regexp
