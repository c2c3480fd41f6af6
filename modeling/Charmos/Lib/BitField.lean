import Mathlib.Data.Nat.Bitwise
import Mathlib.Tactic.NormNum

/-!
# Fields packed into one machine word

A field of a `w`-bit word is a run of `len` bits starting at bit `off`. Reading masks the run
and shifts it down; writing clears the run and ors the shifted value in. A value read back
after a write is the value written, reduced modulo `2 ^ len`, and writing one field leaves
every disjoint field alone. The proofs compare the words bit by bit.
-/

namespace Charmos.BitField

open BitVec

variable {w : ℕ}

/-- The word whose set bits are exactly the bits of the field. -/
def mask (w off len : ℕ) : BitVec w := BitVec.ofNat w (2 ^ len - 1) <<< off

/-- The value of the field, shifted down to bit zero. -/
def read (m : BitVec w) (off len : ℕ) : ℕ := ((m &&& mask w off len) >>> off).toNat

/-- The word with the field replaced by `v`, which is cut to the width of the field. -/
def write (m : BitVec w) (off len v : ℕ) : BitVec w :=
  (m &&& ~~~mask w off len) ||| ((BitVec.ofNat w v <<< off) &&& mask w off len)

/-- Two fields share no bit. -/
def Apart (off len off' len' : ℕ) : Prop := off + len ≤ off' ∨ off' + len' ≤ off

instance (off len off' len' : ℕ) : Decidable (Apart off len off' len') :=
  inferInstanceAs (Decidable (_ ∨ _))

theorem getLsbD_mask (off len i : ℕ) :
    (mask w off len).getLsbD i = decide (i < w ∧ off ≤ i ∧ i < off + len) := by
  simp only [mask, getLsbD_shiftLeft, getLsbD_ofNat, Nat.testBit_two_pow_sub_one]
  grind

theorem getLsbD_write (m : BitVec w) (off len v i : ℕ) (hi : i < w) :
    (write m off len v).getLsbD i =
      if off ≤ i ∧ i < off + len then v.testBit (i - off) else m.getLsbD i := by
  simp only [write, getLsbD_or, getLsbD_and, getLsbD_not, getLsbD_mask,
    getLsbD_shiftLeft, getLsbD_ofNat]
  by_cases h : off ≤ i ∧ i < off + len
  · have h1 : ¬ i < off := by omega
    have h2 : i - off < w := by omega
    simp [h, hi, h1, h2]
  · simp [h, hi]

theorem testBit_read (m : BitVec w) (off len i : ℕ) :
    (read m off len).testBit i = (decide (i < len) && m.getLsbD (off + i)) := by
  rw [read, testBit_toNat, getLsbD_ushiftRight, getLsbD_and, getLsbD_mask]
  by_cases h : off + i < w
  · simp [h, Bool.and_comm]
  · simp [getLsbD_of_ge m (off + i) (by omega)]

/-- A field read after it was written holds the value written, cut to its width. -/
theorem read_write_self (m : BitVec w) {off len : ℕ} (h : off + len ≤ w) (v : ℕ) :
    read (write m off len v) off len = v % 2 ^ len := by
  apply Nat.eq_of_testBit_eq
  intro i
  rw [testBit_read, Nat.testBit_mod_two_pow]
  by_cases hi : i < len
  · rw [getLsbD_write _ _ _ _ _ (by omega)]
    simp [hi]
  · simp [hi]

theorem read_write_of_lt (m : BitVec w) {off len v : ℕ} (h : off + len ≤ w)
    (hv : v < 2 ^ len) : read (write m off len v) off len = v := by
  rw [read_write_self m h, Nat.mod_eq_of_lt hv]

/-- Writing a field does not change a field apart from it. -/
theorem read_write_apart (m : BitVec w) {off len off' len' : ℕ}
    (h : Apart off len off' len') (v : ℕ) :
    read (write m off len v) off' len' = read m off' len' := by
  apply Nat.eq_of_testBit_eq
  intro i
  rw [testBit_read, testBit_read]
  by_cases hi : i < len'
  · by_cases hw : off' + i < w
    · rw [getLsbD_write _ _ _ _ _ hw]
      have : ¬ (off ≤ off' + i ∧ off' + i < off + len) := by
        rcases h with h | h <;> omega
      simp [this]
    · rw [getLsbD_of_ge _ _ (by omega), getLsbD_of_ge _ _ (by omega)]
  · simp [hi]

/-- Writing back the value of a field changes nothing. -/
theorem write_read_self (m : BitVec w) (off len : ℕ) : write m off len (read m off len) = m := by
  apply eq_of_getLsbD_eq
  intro i hi
  rw [getLsbD_write _ _ _ _ _ hi, testBit_read]
  split_ifs with h
  · have h1 : i - off < len := by omega
    have h2 : off + (i - off) = i := by omega
    simp [h1, h2]
  · rfl

theorem read_lt (m : BitVec w) (off len : ℕ) : read m off len < 2 ^ len := by
  apply Nat.lt_pow_two_of_testBit
  intro i hi
  rw [testBit_read]
  simp [Nat.not_lt.mpr hi]

end Charmos.BitField
