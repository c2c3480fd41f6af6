import Mathlib.Data.Nat.Bitwise
import Mathlib.Tactic.Ring
import Mathlib.Tactic.Linarith
import Mathlib.Tactic.Positivity

/-!
# Dyadic blocks of natural numbers

A dyadic block of order `k` is an interval `[p, p + 2 ^ k)` whose start is a multiple of
`2 ^ k`. Two dyadic blocks are nested or apart. The *sibling* of a block is the other half of
the block of the next order; its start is `p ^^^ 2 ^ k`, and the two halves together fill the
parent, which starts at the smaller of the two.
-/

namespace Charmos.DyadicBlock

/-- The start `p` of a block of order `k` is a multiple of its size. -/
def Aligned (p k : ℕ) : Prop := 2 ^ k ∣ p

instance (p k : ℕ) : Decidable (Aligned p k) := inferInstanceAs (Decidable (_ ∣ _))

/-- The number `x` lies in the block of order `k` at `p`. -/
def Covers (p k x : ℕ) : Prop := p ≤ x ∧ x < p + 2 ^ k

/-- The blocks of orders `k` and `j` at `p` and `q` share no number. -/
def Apart (p k q j : ℕ) : Prop := p + 2 ^ k ≤ q ∨ q + 2 ^ j ≤ p

/-- The start of the other half of the parent block. -/
def sibling (p k : ℕ) : ℕ := p ^^^ 2 ^ k

theorem Apart.symm {p k q j : ℕ} (h : Apart p k q j) : Apart q j p k := Or.symm h

theorem apart_iff_forall {p k q j : ℕ} : Apart p k q j ↔ ∀ x, Covers p k x → ¬ Covers q j x := by
  constructor
  · rintro h x ⟨h1, h2⟩ ⟨h3, h4⟩
    rcases h with h | h <;> omega
  intro h
  by_contra hn
  simp only [Apart, not_or, not_le] at hn
  have hk : 0 < 2 ^ k := by positivity
  have hj : 0 < 2 ^ j := by positivity
  exact h (max p q) ⟨le_max_left _ _, by omega⟩ ⟨le_max_right _ _, by omega⟩

theorem covers_start (p k : ℕ) : Covers p k p :=
  ⟨le_rfl, Nat.lt_add_of_pos_right (by positivity)⟩

/-- A multiple of `2 ^ k` strictly below the end of an aligned larger block leaves room for a
whole block of order `k`. -/
theorem covers_end {p k q j x : ℕ} (hp : Aligned p k) (hq : Aligned q j) (hkj : k ≤ j)
    (hc : Covers q j p) (hx : Covers p k x) : Covers q j x := by
  obtain ⟨a, rfl⟩ := hp
  obtain ⟨b, rfl⟩ := hq
  obtain ⟨d, rfl⟩ := Nat.exists_eq_add_of_le hkj
  obtain ⟨h1, h2⟩ := hc
  obtain ⟨h3, h4⟩ := hx
  refine ⟨h1.trans h3, ?_⟩
  have hpow : 2 ^ (k + d) * b + 2 ^ (k + d) = 2 ^ k * (2 ^ d * (b + 1)) := by ring
  rw [hpow] at h2 ⊢
  have hab : a + 1 ≤ 2 ^ d * (b + 1) := Nat.lt_of_mul_lt_mul_left h2
  calc x < 2 ^ k * (a + 1) := by rw [mul_add, mul_one]; exact h4
    _ ≤ 2 ^ k * (2 ^ d * (b + 1)) := Nat.mul_le_mul_left _ hab

/-- Dyadic blocks that are not apart are nested, the smaller in the larger. -/
theorem covers_of_not_apart {p k q j : ℕ} (hp : Aligned p k) (hq : Aligned q j) (hkj : k ≤ j)
    (h : ¬ Apart p k q j) : Covers q j p := by
  simp only [Apart, not_or, not_le] at h
  obtain ⟨a, rfl⟩ := hp
  obtain ⟨b, rfl⟩ := hq
  obtain ⟨d, rfl⟩ := Nat.exists_eq_add_of_le hkj
  obtain ⟨h1, h2⟩ := h
  refine ⟨?_, h2⟩
  have hb : 2 ^ (k + d) * b = 2 ^ k * (2 ^ d * b) := by ring
  rw [hb] at h1 ⊢
  have hab : 2 ^ d * b < a + 1 := by
    apply Nat.lt_of_mul_lt_mul_left (a := 2 ^ k)
    rw [mul_add, mul_one]
    exact h1
  exact Nat.mul_le_mul_left _ (by omega)

theorem sibling_eq {p k : ℕ} (hp : Aligned p k) :
    (Aligned p (k + 1) ∧ sibling p k = p + 2 ^ k) ∨
      (Aligned (sibling p k) (k + 1) ∧ p = sibling p k + 2 ^ k) := by
  obtain ⟨a, rfl⟩ := hp
  have hx : sibling (2 ^ k * a) k = 2 ^ k * (a ^^^ 1) := by
    rw [sibling, mul_comm, mul_comm (2 ^ k), ← Nat.shiftLeft_eq, ← Nat.shiftLeft_eq,
      Nat.shiftLeft_xor_distrib, Nat.one_shiftLeft]
  rw [hx]
  rcases Nat.even_or_odd a with ha | ha
  · refine Or.inl ⟨?_, ?_⟩
    · rw [Aligned, pow_succ]
      exact Nat.mul_dvd_mul_left _ ha.two_dvd
    · rw [Nat.xor_one_of_even ha, mul_add, mul_one]
  · obtain ⟨c, rfl⟩ := ha
    rw [Nat.xor_one_of_odd ⟨c, rfl⟩, Nat.add_sub_cancel]
    refine Or.inr ⟨?_, by ring⟩
    rw [Aligned, pow_succ]
    exact Nat.mul_dvd_mul_left _ ⟨c, rfl⟩

theorem Aligned.of_succ {p k : ℕ} (h : Aligned p (k + 1)) : Aligned p k :=
  dvd_trans (pow_dvd_pow 2 (Nat.le_succ k)) h

theorem Aligned.upper {p k : ℕ} (h : Aligned p k) : Aligned (p + 2 ^ k) k :=
  Nat.dvd_add h dvd_rfl

theorem sibling_aligned {p k : ℕ} (hp : Aligned p k) : Aligned (sibling p k) k := by
  rcases sibling_eq hp with ⟨-, h⟩ | ⟨h, -⟩
  · rw [h]
    exact hp.upper
  · exact h.of_succ

theorem sibling_ne {p k : ℕ} (hp : Aligned p k) : sibling p k ≠ p := by
  have hk : 0 < 2 ^ k := by positivity
  rcases sibling_eq hp with ⟨-, h⟩ | ⟨-, h⟩ <;> omega

theorem sibling_sibling (p k : ℕ) : sibling (sibling p k) k = p := by
  rw [sibling, sibling, Nat.xor_assoc, Nat.xor_self, Nat.xor_zero]

theorem sibling_apart {p k : ℕ} (hp : Aligned p k) : Apart p k (sibling p k) k := by
  rcases sibling_eq hp with ⟨-, h⟩ | ⟨-, h⟩
  · exact Or.inl h.ge
  · exact Or.inr h.ge

/-- The parent block starts at the smaller half. -/
theorem parent_aligned {p k : ℕ} (hp : Aligned p k) : Aligned (min p (sibling p k)) (k + 1) := by
  have hk : 0 < 2 ^ k := by positivity
  rcases sibling_eq hp with ⟨ha, h⟩ | ⟨ha, h⟩
  · rwa [min_eq_left (by omega)]
  · rwa [min_eq_right (by omega)]

/-- The two halves of a block fill it. -/
theorem covers_parent_iff {p k x : ℕ} (hp : Aligned p k) :
    Covers (min p (sibling p k)) (k + 1) x ↔ Covers p k x ∨ Covers (sibling p k) k x := by
  have hk : 2 ^ (k + 1) = 2 ^ k + 2 ^ k := by ring
  simp only [Covers, hk]
  rcases sibling_eq hp with ⟨-, h⟩ | ⟨-, h⟩ <;> omega

theorem covers_succ_iff {p k x : ℕ} :
    Covers p (k + 1) x ↔ Covers p k x ∨ Covers (p + 2 ^ k) k x := by
  have hk : 2 ^ (k + 1) = 2 ^ k + 2 ^ k := by ring
  simp only [Covers, hk]
  omega

end Charmos.DyadicBlock
