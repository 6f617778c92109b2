import Mathlib.Algebra.Order.Ring.Int

/-!
Signed machine integers that wrap around, as values in `Int`.
-/

namespace Wrap

def int32 (n : Int) : Int := n.bmod (2 ^ 32)

theorem int32_of_small {n : Int} (low : -2 ^ 31 ≤ n) (high : n < 2 ^ 31) : int32 n = n := by
  unfold int32
  rw [Int.bmod_def]
  omega

end Wrap
