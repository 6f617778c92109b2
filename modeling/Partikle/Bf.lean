import Mathlib.Tactic.Linarith
import Mathlib.Tactic.LinearCombination

/-!
The division of two limbs by one that has its top bit set, with the inverse of the divisor computed before. A limb has
`w` bits.
-/

namespace Bf

variable {w : Nat}

abbrev Dlimb (w : Nat) := BitVec (w + w)

def dlimb (a : BitVec w) : Dlimb w := a.setWidth (w + w)

def joined (a1 a0 : BitVec w) : Dlimb w := dlimb a1 <<< w ||| dlimb a0

def high (a : Dlimb w) : BitVec w := (a >>> w).setWidth w

def udiv1normInit (d : BitVec w) : BitVec w := (joined (-d - 1#w) (-1#w) / dlimb d).setWidth w

/-- The quotient and the remainder. -/
def udiv1norm (a1 a0 d dInv : BitVec w) : BitVec w × BitVec w :=
  let n1m := a0.sshiftRight (w - 1)
  let nAdj := a0 + (n1m &&& d)
  let a := dlimb dInv * dlimb (a1 - n1m) + dlimb nAdj
  let q := (a >>> w + dlimb a1).setWidth w
  let a := joined a1 a0 - dlimb q * dlimb d - dlimb d
  let ah := high a
  (q + (1#w + ah), a.setWidth w + (ah &&& d))

theorem toNat_dlimb (a : BitVec w) : (dlimb a).toNat = a.toNat := by
  rw [dlimb, BitVec.toNat_setWidth, Nat.mod_eq_of_lt]
  exact a.isLt.trans_le (Nat.pow_le_pow_right (by decide) (Nat.le_add_left w w))

theorem toNat_joined (a1 a0 : BitVec w) : (joined a1 a0).toNat = a1.toNat * 2 ^ w + a0.toNat := by
  have inside : a1.toNat * 2 ^ w < 2 ^ (w + w) := by
    rw [Nat.pow_add]
    exact Nat.mul_lt_mul_of_pos_right a1.isLt (Nat.two_pow_pos w)
  rw [joined, BitVec.toNat_or, BitVec.toNat_shiftLeft, toNat_dlimb, toNat_dlimb, Nat.shiftLeft_eq,
    Nat.mod_eq_of_lt inside, Nat.mul_comm, Nat.two_pow_add_eq_or_of_lt a0.isLt]

theorem toNat_dlimb_mul (a b : BitVec w) : (dlimb a * dlimb b).toNat = a.toNat * b.toNat := by
  rw [BitVec.toNat_mul, toNat_dlimb, toNat_dlimb, Nat.mod_eq_of_lt]
  rw [Nat.pow_add]
  exact Nat.mul_lt_mul'' a.isLt b.isLt

theorem toNat_high (a : Dlimb w) : (high a).toNat = a.toNat / 2 ^ w := by
  rw [high, BitVec.toNat_setWidth, BitVec.toNat_ushiftRight, Nat.shiftRight_eq_div_pow, Nat.mod_eq_of_lt]
  exact Nat.div_lt_of_lt_mul (Nat.pow_add 2 w w ▸ a.isLt)

/-- The estimate `x / b` of the quotient is exact or one too small. -/
theorem estimate_near {b d v e a1 a0 x : Nat} (half : b ≤ 2 * d) (below : d < b) (inverse : (b + v) * d + e = b * b)
    (positive : 1 ≤ e) (small : e ≤ d) (less : a1 < d) (limb : a0 < b)
    (is : x = (b + v) * a1 + a0 ∧ 2 * a0 < b ∨ x + b = (b + v) * a1 + v + a0 + d ∧ b ≤ 2 * a0) :
    x / b * d ≤ a1 * b + a0 ∧ a1 * b + a0 < (x / b + 2) * d := by
  have close : x * d ≤ (a1 * b + a0) * b ∧ (a1 * b + a0) * b < x * d + d * b := by
    -- the factors of each gap are bounded, and none of them is negative
    zify at *
    rcases is with ⟨sum, low⟩ | ⟨sum, high⟩
    · have gap : (a1 * b + a0) * b - x * d = e * a1 + a0 * (b - d : ℤ) := by
        linear_combination -(a1 : ℤ) * inverse - d * sum
      constructor <;> nlinarith
    · have gap : (a1 * b + a0) * b - x * d = e * (a1 + 1) + (b - d) * (a0 - (b - d) : ℤ) := by
        linear_combination -(a1 + 1 : ℤ) * inverse - d * sum
      constructor <;> nlinarith
  have positive : 0 < b := by omega
  have lower := Nat.mul_le_mul_right d (Nat.div_mul_le_self x b)
  have upper := Nat.mul_le_mul_right d (Nat.lt_mul_div_succ x positive).le
  constructor
  · refine Nat.le_of_mul_le_mul_right ?_ positive
    linarith
  · refine Nat.lt_of_mul_lt_mul_right (a := b) ?_
    linarith

theorem udiv1normInit_spec {d : BitVec w} (half : 2 ^ w ≤ 2 * d.toNat) :
    ∃ e, (2 ^ w + (udiv1normInit d).toNat) * d.toNat + e = 2 ^ w * 2 ^ w ∧ 1 ≤ e ∧ e ≤ d.toNat := by
  have below := d.isLt
  have divided : (joined (-d - 1#w) (-1#w)).toNat = (2 ^ w - 1 - d.toNat) * 2 ^ w + (2 ^ w - 1) := by
    rw [toNat_joined, BitVec.neg_eq_not_add, BitVec.add_sub_cancel, BitVec.toNat_not, BitVec.neg_one_eq_allOnes,
      BitVec.toNat_allOnes]
  have total : (joined (-d - 1#w) (-1#w)).toNat + 1 + d.toNat * 2 ^ w = 2 ^ w * 2 ^ w := by
    have positive : 1 ≤ 2 ^ w := Nat.two_pow_pos w
    rw [divided, Nat.add_assoc _ _ 1, Nat.sub_add_cancel positive, ← Nat.succ_mul, ← Nat.add_mul]
    congr 1
    omega
  rw [udiv1normInit, BitVec.toNat_setWidth, BitVec.toNat_udiv, toNat_dlimb]
  generalize (joined (-d - 1#w) (-1#w)).toNat = n at *
  have fits : n / d.toNat < 2 ^ w := by
    rw [Nat.div_lt_iff_lt_mul (by omega)]
    nlinarith
  have split := Nat.div_add_mod n d.toNat
  refine ⟨n % d.toNat + 1, ?_, Nat.le_add_left 1 _, Nat.mod_lt n (by omega)⟩
  rw [Nat.mod_eq_of_lt fits]
  linarith

theorem sshiftRight_all (a : BitVec w) : a.sshiftRight (w - 1) = BitVec.fill w a.msb := by
  ext i inside
  rw [BitVec.getElem_sshiftRight, BitVec.getElem_fill]
  split
  · simp only [BitVec.msb_eq_getLsbD_last, ← BitVec.getLsbD_eq_getElem]
    rw [show w - 1 + i = w - 1 by omega]
  · rfl

theorem adjusted {a1 a0 d dInv : BitVec w} (half : 2 ^ w ≤ 2 * d.toNat) (less : a1.toNat < d.toNat) :
    let n1m := a0.sshiftRight (w - 1)
    let x := dInv.toNat * (a1 - n1m).toNat + (a0 + (n1m &&& d)).toNat + a1.toNat * 2 ^ w
    x = (2 ^ w + dInv.toNat) * a1.toNat + a0.toNat ∧ 2 * a0.toNat < 2 ^ w ∨
      x + 2 ^ w = (2 ^ w + dInv.toNat) * a1.toNat + dInv.toNat + a0.toNat + d.toNat ∧ 2 ^ w ≤ 2 * a0.toNat := by
  simp only [sshiftRight_all]
  cases sign : a0.msb with
  | false =>
    left
    simp only [BitVec.fill_false, BitVec.sub_zero, BitVec.zero_and, BitVec.add_zero]
    exact ⟨by linarith, BitVec.msb_eq_false_iff_two_mul_lt.mp sign⟩
  | true =>
    have high := BitVec.msb_eq_true_iff_two_mul_ge.mp sign
    have one : (1#w).toNat = 1 := BitVec.toNat_one (Nat.pos_of_ne_zero (by rintro rfl; omega))
    have next : (a1 - BitVec.allOnes w).toNat = a1.toNat + 1 := by
      rw [← BitVec.neg_one_eq_allOnes, BitVec.sub_neg, BitVec.toNat_add_of_lt (by omega), one]
    have wrapped : (a0 + d).toNat + 2 ^ w = a0.toNat + d.toNat := by
      rw [BitVec.toNat_add, Nat.mod_eq_sub_mod (by omega), Nat.mod_eq_of_lt (by omega), Nat.sub_add_cancel (by omega)]
    right
    simp only [BitVec.fill_true, BitVec.allOnes_and, next]
    exact ⟨by linarith, high⟩

theorem toNat_quotient {a1 c nAdj dInv : BitVec w}
    (fits : (dInv.toNat * c.toNat + nAdj.toNat + a1.toNat * 2 ^ w) / 2 ^ w < 2 ^ w) :
    ((dlimb dInv * dlimb c + dlimb nAdj) >>> w + dlimb a1 |>.setWidth w).toNat =
      (dInv.toNat * c.toNat + nAdj.toNat + a1.toNat * 2 ^ w) / 2 ^ w := by
  have sum : (dlimb dInv * dlimb c + dlimb nAdj).toNat = dInv.toNat * c.toNat + nAdj.toNat := by
    rw [BitVec.toNat_add_of_lt, toNat_dlimb_mul, toNat_dlimb]
    rw [toNat_dlimb_mul, toNat_dlimb, Nat.pow_add]
    have := dInv.isLt
    have := c.isLt
    have := nAdj.isLt
    nlinarith
  rw [Nat.add_mul_div_right _ _ (Nat.two_pow_pos w)] at fits ⊢
  rw [BitVec.toNat_setWidth, BitVec.toNat_add, BitVec.toNat_ushiftRight, Nat.shiftRight_eq_div_pow, sum, toNat_dlimb,
    Nat.mod_mod_of_dvd _ (Nat.pow_dvd_pow 2 (Nat.le_add_left w w)), Nat.mod_eq_of_lt fits]

theorem high_borrow {d : BitVec w} {a : Dlimb w} (less : a.toNat < d.toNat) :
    high (a - dlimb d) = BitVec.allOnes w ∧ ((a - dlimb d).setWidth w + d).toNat = a.toNat := by
  have own : (dlimb d).setWidth w = d := by
    rw [dlimb, BitVec.setWidth_setWidth_of_le _ (by omega), BitVec.setWidth_eq]
  constructor
  · apply BitVec.eq_of_toNat_eq
    rw [toNat_high, BitVec.toNat_sub_of_lt (by rwa [BitVec.lt_def, toNat_dlimb]), toNat_dlimb, BitVec.toNat_allOnes,
      Nat.pow_add, Nat.div_eq_iff (Nat.two_pow_pos w), Nat.sub_mul, one_mul]
    omega
  · nth_rewrite 2 [← own]
    rw [← BitVec.setWidth_add _ _ (by omega), BitVec.sub_add_cancel, BitVec.toNat_setWidth,
      Nat.mod_eq_of_lt (by omega)]

theorem high_enough {d : BitVec w} {a : Dlimb w} (enough : d.toNat ≤ a.toNat) (rest : a.toNat < 2 * d.toNat) :
    high (a - dlimb d) = 0#w ∧ ((a - dlimb d).setWidth w).toNat = a.toNat - d.toNat := by
  have less : (a - dlimb d).toNat = a.toNat - d.toNat := by
    rw [BitVec.toNat_sub_of_le (by rwa [BitVec.le_def, toNat_dlimb]), toNat_dlimb]
  constructor
  · apply BitVec.eq_of_toNat_eq
    rw [toNat_high, less]
    exact Nat.div_eq_of_lt (by omega)
  · rw [BitVec.toNat_setWidth, less, Nat.mod_eq_of_lt (by omega)]

theorem corrected_exact {n : Dlimb w} {q d : BitVec w} (lower : q.toNat * d.toNat ≤ n.toNat)
    (upper : n.toNat < (q.toNat + 2) * d.toNat) (inside : n.toNat < 2 ^ w * d.toNat) :
    let a := n - dlimb q * dlimb d - dlimb d
    (q + (1#w + high a)).toNat = n.toNat / d.toNat ∧ (a.setWidth w + (high a &&& d)).toNat = n.toNat % d.toNat := by
  have divided : (n - dlimb q * dlimb d).toNat = n.toNat - q.toNat * d.toNat := by
    rw [BitVec.toNat_sub_of_le, toNat_dlimb_mul]
    rwa [BitVec.le_def, toNat_dlimb_mul]
  have rest : (n - dlimb q * dlimb d).toNat < 2 * d.toNat := by
    rw [divided, Nat.sub_lt_iff_lt_add lower]
    linarith
  intro a
  rw [eq_comm, eq_comm (b := n.toNat % _), Nat.div_mod_unique (by omega), Nat.mul_comm d.toNat]
  rcases Nat.lt_or_ge (n - dlimb q * dlimb d).toNat d.toNat with less | enough
  · obtain ⟨ones, low⟩ := high_borrow less
    rw [ones, BitVec.allOnes_and, low, ← BitVec.neg_one_eq_allOnes, BitVec.add_right_neg, BitVec.add_zero]
    omega
  · obtain ⟨zero, low⟩ := high_enough enough rest
    have next : (q.toNat + 1) * d.toNat < 2 ^ w * d.toNat := by
      rw [Nat.succ_mul]
      omega
    have one : (1#w).toNat = 1 := BitVec.toNat_one (Nat.pos_of_ne_zero (by rintro rfl; omega))
    have sum : (q + 1#w).toNat = q.toNat + 1 := by
      rw [BitVec.toNat_add_of_lt (by rw [one]; exact Nat.lt_of_mul_lt_mul_right next), one]
    rw [zero, BitVec.zero_and, BitVec.add_zero, BitVec.add_zero, low, sum, Nat.succ_mul]
    omega

theorem udiv1norm_exact (a1 a0 d : BitVec w) (top : d.msb = true) (less : a1 < d) :
    (udiv1norm a1 a0 d (udiv1normInit d)).1.toNat = (a1.toNat * 2 ^ w + a0.toNat) / d.toNat ∧
      (udiv1norm a1 a0 d (udiv1normInit d)).2.toNat = (a1.toNat * 2 ^ w + a0.toNat) % d.toNat := by
  have half : 2 ^ w ≤ 2 * d.toNat := BitVec.msb_eq_true_iff_two_mul_ge.mp top
  have limb := a0.isLt
  have less : a1.toNat < d.toNat := less
  obtain ⟨e, inverse, least, small⟩ := udiv1normInit_spec half
  obtain ⟨lower, upper⟩ := estimate_near half d.isLt inverse least small less limb (adjusted half less)
  have inside : a1.toNat * 2 ^ w + a0.toNat < 2 ^ w * d.toNat := by nlinarith
  have fits := Nat.lt_of_mul_lt_mul_right (lower.trans_lt inside)
  rw [← toNat_quotient fits, ← toNat_joined] at lower upper
  rw [← toNat_joined] at inside ⊢
  exact corrected_exact lower upper inside

theorem udiv1norm_exact_top : (0x8000000000000001#64).msb = true ∧ 0x8000000000000000#64 < 0x8000000000000001#64 ∧
    (udiv1norm 0x8000000000000000#64 (-1#64) 0x8000000000000001#64 (udiv1normInit 0x8000000000000001#64)).1.toNat =
      (0x8000000000000000 * 2 ^ 64 + (2 ^ 64 - 1)) / 0x8000000000000001 :=
  ⟨by decide, by decide, (udiv1norm_exact _ _ _ (by decide) (by decide)).1⟩

end Bf
