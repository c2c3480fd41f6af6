import Mathlib

/-!
# Masks of low bits

What a mask of low bits leaves of a word.
-/

namespace Charmos.BitMask

variable {w n : ℕ} {k : BitVec w}

/-- The mask of the low bits leaves the remainder. -/
theorem toNat_and_low (x : BitVec w) (hk : k.toNat = 2 ^ n - 1) :
    (x &&& k).toNat = x.toNat % 2 ^ n := by
  rw [BitVec.toNat_and, hk, Nat.and_two_pow_sub_one_eq_mod]

end Charmos.BitMask
