import Mathlib.Data.Nat.Bitwise
import Partikle.Lib.Wrap

/-!
Surrogates and UTF-8 sequences, as `cutils` computes them. Bytes and code points are natural
numbers; the sequences of up to six bytes reach every 31 bit code point.
-/

namespace Text

open Wrap

def isSurrogate (c : Nat) : Bool := c >>> 11 == 0xD800 >>> 11

def isHiSurrogate (c : Nat) : Bool := c >>> 10 == 0xD800 >>> 10

def isLoSurrogate (c : Nat) : Bool := c >>> 10 == 0xDC00 >>> 10

def getHiSurrogate (c : Nat) : Nat := (c >>> 10) - (0x10000 >>> 10) + 0xD800

def getLoSurrogate (c : Nat) : Nat := (c &&& 0x3FF) ||| 0xDC00

def fromSurrogate (hi lo : Nat) : Nat := 0x10000 + 0x400 * (hi - 0xD800) + (lo - 0xDC00)

def tailByte (c shift : Nat) : Nat := ((c >>> shift) &&& 0x3f) ||| 0x80

def unicodeToUtf8 (c : Nat) : List Nat :=
  if c < 0x80 then [c]
  else if c < 0x800 then [(c >>> 6) ||| 0xc0, tailByte c 0]
  else if c < 0x10000 then [(c >>> 12) ||| 0xe0, tailByte c 6, tailByte c 0]
  else if c < 0x00200000 then [(c >>> 18) ||| 0xf0, tailByte c 12, tailByte c 6, tailByte c 0]
  else if c < 0x04000000 then
    [(c >>> 24) ||| 0xf8, tailByte c 18, tailByte c 12, tailByte c 6, tailByte c 0]
  else if c < 0x80000000 then
    [(c >>> 30) ||| 0xfc, tailByte c 24, tailByte c 18, tailByte c 12, tailByte c 6, tailByte c 0]
  else []

def utf8MinCode : List Nat := [0x80, 0x800, 0x10000, 0x00200000, 0x04000000]

def utf8FirstCodeMask : List Nat := [0x1f, 0xf, 0x7, 0x3, 0x1]

def followers (c : Nat) : Option Nat :=
  if 0xc0 ≤ c ∧ c ≤ 0xdf then some 1
  else if 0xe0 ≤ c ∧ c ≤ 0xef then some 2
  else if 0xf0 ≤ c ∧ c ≤ 0xf7 then some 3
  else if 0xf8 ≤ c ∧ c ≤ 0xfb then some 4
  else if 0xfc ≤ c ∧ c ≤ 0xfd then some 5
  else none

/-- The loop over the bytes that follow. The byte behind a text is its terminating NUL. -/
def readTail : Nat → Nat → List Nat → Option (Nat × List Nat)
  | 0, c, p => some (c, p)
  | l + 1, c, p =>
    let b := p.headD 0
    if b < 0x80 ∨ 0xc0 ≤ b then none else readTail l ((c <<< 6) ||| (b &&& 0x3f)) p.tail

def readSequence (c : Nat) (p : List Nat) (maxLen : Int) : Option (Nat × List Nat) :=
  if c < 0x80 then some (c, p)
  else
    match followers c with
    | none => none
    | some l =>
      if l > int32 (maxLen - 1) then none
      else
        match readTail l (c &&& utf8FirstCodeMask.getD (l - 1) 0) p with
        | none => none
        | some (c, p) => if c < utf8MinCode.getD (l - 1) 0 then none else some (c, p)

def unicodeFromUtf8 (p : List Nat) (maxLen : Int) : Option (Nat × List Nat) :=
  readSequence (p.headD 0) p.tail maxLen

@[simp] theorem unicodeFromUtf8_cons (b : Nat) (p : List Nat) (maxLen : Int) :
    unicodeFromUtf8 (b :: p) maxLen = readSequence b p maxLen := rfl

variable {c first l : Nat} {next : List Nat}

section Bits

theorem or_of_lt {a : Nat} (b k : Nat) (small : a < 2 ^ k) : a ||| (b <<< k) = b <<< k + a := by
  rw [Nat.or_comm, Nat.shiftLeft_add_eq_or_of_lt small]

theorem tailByte_eq (c shift : Nat) : tailByte c shift = 0x80 + c / 2 ^ shift % 64 := by
  have small : c / 2 ^ shift % 64 < 2 ^ 7 := by omega
  have masked : (c >>> shift) &&& 0x3f = c / 2 ^ shift % 64 := by
    rw [Nat.shiftRight_eq_div_pow]
    exact Nat.and_two_pow_sub_one_eq_mod _ 6
  rw [tailByte, masked]
  exact or_of_lt 1 7 small

theorem firstByte_eq {shift : Nat} (top k : Nat) (small : c / 2 ^ shift < 2 ^ k) :
    (c >>> shift) ||| (top <<< k) = top <<< k + c / 2 ^ shift := by
  rw [Nat.shiftRight_eq_div_pow]
  exact or_of_lt top k small

theorem firstByte_mask {bits : Nat} (top k : Nat) (small : bits < 2 ^ k) :
    (top <<< k + bits) &&& (2 ^ k - 1) = bits := by
  rw [Nat.and_two_pow_sub_one_eq_mod, Nat.shiftLeft_eq, Nat.mul_add_mod_self_right,
    Nat.mod_eq_of_lt small]

theorem followed (c b : Nat) : (c <<< 6) ||| (b &&& 0x3f) = c * 64 + b % 64 := by
  have masked : b &&& 0x3f = b % 64 := Nat.and_two_pow_sub_one_eq_mod _ 6
  have small : b % 64 < 2 ^ 6 := by omega
  rw [masked, ← Nat.shiftLeft_add_eq_or_of_lt small, Nat.shiftLeft_eq]

theorem isHiSurrogate_iff : isHiSurrogate c = true ↔ 0xD800 ≤ c ∧ c < 0xDC00 := by
  have bits := Nat.shiftRight_eq_div_pow c 10
  simp only [isHiSurrogate, beq_iff_eq, bits, Nat.reduceShiftRight]
  omega

theorem isLoSurrogate_iff : isLoSurrogate c = true ↔ 0xDC00 ≤ c ∧ c < 0xE000 := by
  have bits := Nat.shiftRight_eq_div_pow c 10
  simp only [isLoSurrogate, beq_iff_eq, bits, Nat.reduceShiftRight]
  omega

theorem isSurrogate_iff : isSurrogate c = true ↔ 0xD800 ≤ c ∧ c < 0xE000 := by
  have bits := Nat.shiftRight_eq_div_pow c 11
  simp only [isSurrogate, beq_iff_eq, bits, Nat.reduceShiftRight]
  omega

theorem getLoSurrogate_eq (c : Nat) : getLoSurrogate c = 0xDC00 + c % 0x400 := by
  have masked : c &&& 0x3FF = c % 2 ^ 10 := Nat.and_two_pow_sub_one_eq_mod _ 10
  have small : c % 2 ^ 10 < 2 ^ 10 := by omega
  rw [getLoSurrogate, masked]
  exact or_of_lt 0x37 10 small

theorem getHiSurrogate_eq (c : Nat) : getHiSurrogate c = c / 0x400 - 0x40 + 0xD800 := by
  simp [getHiSurrogate, Nat.shiftRight_eq_div_pow]

end Bits

section Pairs

variable {hi lo : Nat}

theorem fromSurrogate_bounds (high : isHiSurrogate hi = true) (low : isLoSurrogate lo = true) :
    0x10000 ≤ fromSurrogate hi lo ∧ fromSurrogate hi lo ≤ 0x10FFFF := by
  rw [isHiSurrogate_iff] at high
  rw [isLoSurrogate_iff] at low
  unfold fromSurrogate
  omega

theorem surrogates_fromSurrogate (high : isHiSurrogate hi = true) (low : isLoSurrogate lo = true) :
    getHiSurrogate (fromSurrogate hi lo) = hi ∧ getLoSurrogate (fromSurrogate hi lo) = lo := by
  rw [isHiSurrogate_iff] at high
  rw [isLoSurrogate_iff] at low
  rw [getHiSurrogate_eq, getLoSurrogate_eq]
  unfold fromSurrogate
  omega

end Pairs

section Codec

theorem readTail_tailByte (l first shift : Nat) (rest : List Nat) :
    readTail (l + 1) first (tailByte c shift :: rest) = readTail l (first * 64 + c / 2 ^ shift % 64) rest := by
  have value := tailByte_eq c shift
  have inside : ¬(tailByte c shift < 0x80 ∨ 0xc0 ≤ tailByte c shift) := by omega
  have bits : tailByte c shift % 64 = c / 2 ^ shift % 64 := by omega
  rw [readTail, List.headD_cons, List.tail_cons, if_neg inside, followed, bits]

variable {maxLen : Int} {p rest : List Nat}

theorem unicodeFromUtf8_sequence {bits : Nat} (count : followers first = some l) (long : l ≤ int32 (maxLen - 1))
    (mask : first &&& utf8FirstCodeMask.getD (l - 1) 0 = bits) (read : readTail l bits p = some (c, rest))
    (least : utf8MinCode.getD (l - 1) 0 ≤ c) : unicodeFromUtf8 (first :: p) maxLen = some (c, rest) := by
  have high : ¬first < 0x80 := by
    intro low
    unfold followers at count
    repeat rw [if_neg (by omega)] at count
    cases count
  rw [unicodeFromUtf8_cons, readSequence, if_neg high]
  simp only [count, mask, read]
  rw [if_neg (by omega), if_neg (by omega)]

theorem unicodeFromUtf8_two (low : 0x80 ≤ c) (high : c < 0x800) (long : 2 ≤ int32 (maxLen - 1) + 1) :
    unicodeFromUtf8 ([(c >>> 6) ||| 0xc0, tailByte c 0] ++ rest) maxLen = some (c, rest) := by
  have small : c / 2 ^ 6 < 2 ^ 5 := by omega
  have first : (c >>> 6) ||| 0xc0 = 0xc0 + c / 2 ^ 6 := firstByte_eq 6 5 small
  have mask : (0xc0 + c / 2 ^ 6) &&& 0x1f = c / 2 ^ 6 := firstByte_mask 6 5 small
  have count : followers (0xc0 + c / 2 ^ 6) = some 1 := if_pos (by omega)
  have read : readTail 1 (c / 2 ^ 6) (tailByte c 0 :: rest) = some (c, rest) := by
    rw [readTail_tailByte, readTail]
    congr 2
    omega
  rw [first]
  exact unicodeFromUtf8_sequence count (by omega) mask read low

theorem unicodeFromUtf8_three (low : 0x800 ≤ c) (high : c < 0x10000) (long : 3 ≤ int32 (maxLen - 1) + 1) :
    unicodeFromUtf8 ([(c >>> 12) ||| 0xe0, tailByte c 6, tailByte c 0] ++ rest) maxLen = some (c, rest) := by
  have small : c / 2 ^ 12 < 2 ^ 4 := by omega
  have first : (c >>> 12) ||| 0xe0 = 0xe0 + c / 2 ^ 12 := firstByte_eq 14 4 small
  have mask : (0xe0 + c / 2 ^ 12) &&& 0xf = c / 2 ^ 12 := firstByte_mask 14 4 small
  have count : followers (0xe0 + c / 2 ^ 12) = some 2 := by
    unfold followers
    rw [if_neg (by omega), if_pos (by omega)]
  have read : readTail 2 (c / 2 ^ 12) (tailByte c 6 :: tailByte c 0 :: rest) = some (c, rest) := by
    rw [readTail_tailByte, readTail_tailByte, readTail]
    congr 2
    omega
  rw [first]
  exact unicodeFromUtf8_sequence count (by omega) mask read low

theorem unicodeFromUtf8_four (low : 0x10000 ≤ c) (high : c < 0x200000) (long : 4 ≤ int32 (maxLen - 1) + 1) :
    unicodeFromUtf8 ([(c >>> 18) ||| 0xf0, tailByte c 12, tailByte c 6, tailByte c 0] ++ rest) maxLen = some
      (c, rest) := by
  have small : c / 2 ^ 18 < 2 ^ 3 := by omega
  have first : (c >>> 18) ||| 0xf0 = 0xf0 + c / 2 ^ 18 := firstByte_eq 30 3 small
  have mask : (0xf0 + c / 2 ^ 18) &&& 0x7 = c / 2 ^ 18 := firstByte_mask 30 3 small
  have count : followers (0xf0 + c / 2 ^ 18) = some 3 := by
    unfold followers
    rw [if_neg (by omega), if_neg (by omega), if_pos (by omega)]
  have read : readTail 3 (c / 2 ^ 18) (tailByte c 12 :: tailByte c 6 :: tailByte c 0 :: rest) = some (c, rest) := by
    rw [readTail_tailByte, readTail_tailByte, readTail_tailByte, readTail]
    congr 2
    omega
  rw [first]
  exact unicodeFromUtf8_sequence count (by omega) mask read low

theorem unicodeFromUtf8_unicodeToUtf8 (range : c ≤ 0x10FFFF) (rest : List Nat)
    (long : (unicodeToUtf8 c).length ≤ int32 (maxLen - 1) + 1) :
    unicodeFromUtf8 (unicodeToUtf8 c ++ rest) maxLen = some (c, rest) := by
  unfold unicodeToUtf8 at long ⊢
  by_cases one : c < 0x80
  · simp [readSequence, one]
  rw [if_neg one] at long ⊢
  by_cases two : c < 0x800
  · rw [if_pos two] at long ⊢
    exact unicodeFromUtf8_two (by omega) two long
  rw [if_neg two] at long ⊢
  by_cases three : c < 0x10000
  · rw [if_pos three] at long ⊢
    exact unicodeFromUtf8_three (by omega) three long
  have four : c < 0x200000 := by omega
  rw [if_neg three, if_pos four] at long ⊢
  exact unicodeFromUtf8_four (by omega) four long

theorem unicodeToUtf8_cons (low : 0x80 ≤ c) (range : c ≤ 0x10FFFF) :
    ∃ first rest, unicodeToUtf8 c = first :: rest ∧ 0xc0 ≤ first := by
  unfold unicodeToUtf8
  rw [if_neg (by omega)]
  split
  · exact ⟨_, _, rfl, Nat.right_le_or⟩
  · split
    · exact ⟨_, _, rfl, le_trans (by decide) Nat.right_le_or⟩
    · rw [if_pos (by omega)]
      exact ⟨_, _, rfl, le_trans (by decide) Nat.right_le_or⟩

theorem length_unicodeToUtf8_pos (range : c ≤ 0x10FFFF) : 0 < (unicodeToUtf8 c).length := by
  by_cases low : c < 0x80
  · simp [unicodeToUtf8, low]
  · obtain ⟨first, rest, shape, -⟩ := unicodeToUtf8_cons (by omega) range
    simp [shape]

theorem readTail_length (read : readTail l first p = some (c, next)) : next.length ≤ p.length := by
  induction l generalizing first p with
  | zero =>
    cases read
    exact le_refl _
  | succ l ih =>
    simp only [readTail] at read
    split at read
    · cases read
    · have shorter := ih read
      rw [List.length_tail] at shorter
      omega

theorem unicodeFromUtf8_length {b : Nat}
    (read : unicodeFromUtf8 (b :: p) maxLen = some (c, next)) : next.length ≤ p.length := by
  rw [unicodeFromUtf8_cons, readSequence] at read
  split at read
  · cases read
    exact le_refl _
  repeat' split at read
  all_goals cases read
  exact readTail_length ‹_›

end Codec

end Text
