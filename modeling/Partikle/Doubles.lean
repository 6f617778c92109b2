import Mathlib.Data.Nat.Bitwise
import Mathlib.Tactic.Zify

/-!
`JS_ToInt32Free` and `JS_ToInt64Free` on a double, which is given by its bits. Signed overflow wraps, as the Makefile
has `-fwrapv`.
-/

namespace Doubles

def exponent (bits : BitVec 64) : Nat := (bits >>> 52 &&& 0x7ff).toNat

abbrev negative (bits : BitVec 64) : Prop := bits >>> 63 ≠ 0

/-- The absolute value of a finite double, times `2 ^ 1075`. A subnormal number has no hidden bit. -/
def magnitude (bits : BitVec 64) : Nat :=
  if exponent bits = 0 then bits.toNat % 2 ^ 52 * 2 else (2 ^ 52 + bits.toNat % 2 ^ 52) * 2 ^ exponent bits

/-- The value of a finite double, rounded toward zero. -/
def truncated (bits : BitVec 64) : Int :=
  (if negative bits then -(magnitude bits : Int) else magnitude bits).tdiv (2 ^ 1075 : Nat)

/-- The cast of a double is undefined outside the range of its type. -/
def cast (w : Nat) (bits : BitVec 64) : Option (BitVec w) :=
  if -(2 ^ (w - 1) : Nat) ≤ truncated bits ∧ truncated bits < (2 ^ (w - 1) : Nat) then
    some (.ofInt w (truncated bits))
  else none

def mantissa (bits : BitVec 64) : BitVec 64 := bits &&& (1#64 <<< 52 - 1#64) ||| 1#64 <<< 52

/-- The result has `w` bits, and the shifts drop the `spare` upper ones of 64. -/
def toIntFree (w spare : Nat) (bits : BitVec 64) : Option (BitVec w) :=
  let e := exponent bits
  if e ≤ 1023 + (w - 2) then cast w bits
  else if e ≤ 1023 + (w - 2) + 53 then
    let v := mantissa bits <<< (e + spare - 1023 - 52)
    let ret := (v >>> spare).setWidth w
    some (if negative bits then -ret else ret)
  else some 0

def jsToInt32Free : BitVec 64 → Option (BitVec 32) := toIntFree 32 32

def jsToInt64Free : BitVec 64 → Option (BitVec 64) := toIntFree 64 0

variable {w spare : Nat} {bits : BitVec 64}

theorem truncated_eq : truncated bits =
    if negative bits then -((magnitude bits / 2 ^ 1075 : Nat) : Int) else (magnitude bits / 2 ^ 1075 : Nat) := by
  unfold truncated
  split
  · exact Int.neg_tdiv ..
  · rfl

theorem toNat_mantissa : (mantissa bits).toNat = 2 ^ 52 + bits.toNat % 2 ^ 52 := by
  have low : (bits &&& (1#64 <<< 52 - 1#64)).toNat = bits.toNat % 2 ^ 52 := by
    exact Nat.and_two_pow_sub_one_eq_mod bits.toNat 52
  rw [mantissa, BitVec.toNat_or, low, Nat.or_comm]
  exact (Nat.two_pow_add_eq_or_of_lt (Nat.mod_lt _ (Nat.two_pow_pos 52)) 1).symm

theorem magnitude_lt (small : exponent bits ≤ 1023 + (w - 2)) (wide : 2 ≤ w) :
    magnitude bits / 2 ^ 1075 < 2 ^ (w - 1) := by
  have bound : magnitude bits < 2 ^ 53 * 2 ^ exponent bits := by
    unfold magnitude
    split
    · next zero =>
        rw [zero]
        omega
    · exact Nat.mul_lt_mul_of_pos_right (by omega) (Nat.two_pow_pos _)
  rw [Nat.div_lt_iff_lt_mul (Nat.two_pow_pos _), ← Nat.pow_add 2 (w - 1) 1075]
  refine bound.trans_le ?_
  rw [← Nat.pow_add]
  exact Nat.pow_le_pow_right (by decide) (by omega)

theorem magnitude_eq {k : Nat} (normal : exponent bits ≠ 0) (is : exponent bits + spare = 1075 + k) :
    magnitude bits / 2 ^ 1075 = (mantissa bits).toNat * 2 ^ k / 2 ^ spare := by
  have powers : 2 ^ exponent bits * 2 ^ spare = 2 ^ k * 2 ^ 1075 := by
    rw [← Nat.pow_add, ← Nat.pow_add, is, Nat.add_comm]
  rw [magnitude, if_neg normal, ← toNat_mantissa, ← Nat.mul_div_mul_right _ _ (Nat.two_pow_pos spare), Nat.mul_assoc,
    powers, ← Nat.mul_assoc, Nat.mul_comm (2 ^ 1075), Nat.mul_div_mul_right _ _ (Nat.two_pow_pos 1075)]

theorem shifted (fits : 64 = w + spare) (normal : exponent bits ≠ 0) (large : 1075 ≤ exponent bits + spare) :
    (mantissa bits <<< (exponent bits + spare - 1023 - 52) >>> spare).setWidth w =
      BitVec.ofNat w (magnitude bits / 2 ^ 1075) := by
  obtain ⟨k, is⟩ := Nat.exists_eq_add_of_le large
  have shift : exponent bits + spare - 1023 - 52 = k := by omega
  have size : 2 ^ 64 = 2 ^ spare * 2 ^ w := by rw [fits, Nat.pow_add, Nat.mul_comm]
  apply BitVec.eq_of_toNat_eq
  rw [magnitude_eq normal is, shift, BitVec.toNat_setWidth, BitVec.toNat_ushiftRight, BitVec.toNat_shiftLeft,
    Nat.shiftLeft_eq, Nat.shiftRight_eq_div_pow, BitVec.toNat_ofNat, size, Nat.mod_mul_right_div_self, Nat.mod_mod]

theorem ofInt_truncated : BitVec.ofInt w (truncated bits) = if negative bits then
    -BitVec.ofNat w (magnitude bits / 2 ^ 1075) else BitVec.ofNat w (magnitude bits / 2 ^ 1075) := by
  rw [truncated_eq]
  split
  · rw [BitVec.ofInt_neg, BitVec.ofInt_natCast]
  · rw [BitVec.ofInt_natCast]

theorem toIntFree_eq (fits : 64 = w + spare) (wide : 2 ≤ w) :
    toIntFree w spare bits = some (if exponent bits = 0x7ff then 0 else .ofInt w (truncated bits)) := by
  simp only [toIntFree]
  split
  · next small =>
      have bound := magnitude_lt small wide
      rw [if_neg (by omega), cast, if_pos]
      rw [truncated_eq]
      split <;> omega
  · split
    · next medium =>
        rw [if_neg (show exponent bits ≠ 0x7ff by omega), shifted fits (by omega) (by omega), ofInt_truncated]
    · next large =>
        obtain ⟨k, is⟩ := Nat.exists_eq_add_of_le (show w + 1075 ≤ exponent bits by omega)
        have zero : BitVec.ofNat w (magnitude bits / 2 ^ 1075) = 0 := by
          apply BitVec.eq_of_toNat_eq
          rw [magnitude_eq (by omega) (show exponent bits + 0 = 1075 + (w + k) by omega), BitVec.toNat_ofNat,
            Nat.pow_zero, Nat.div_one, Nat.pow_add, Nat.mul_left_comm]
          exact Nat.mul_mod_right ..
        rw [ofInt_truncated, zero]
        simp

theorem jsToIntFree_congruent (bits : BitVec 64) :
    (∃ ret, jsToInt32Free bits = some ret ∧
      ret.toInt = if exponent bits = 0x7ff then 0 else (truncated bits).bmod (2 ^ 32)) ∧
    ∃ ret, jsToInt64Free bits = some ret ∧
      ret.toInt = if exponent bits = 0x7ff then 0 else (truncated bits).bmod (2 ^ 64) := by
  refine ⟨⟨_, toIntFree_eq rfl (by decide), ?_⟩, _, toIntFree_eq rfl (by decide), ?_⟩
  all_goals
    split
    · rfl
    · exact BitVec.toInt_ofInt _

end Doubles
