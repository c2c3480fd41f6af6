import Mathlib

/-!
# Sums over agents

Each of finitely many agents is at a place, and every place has a weight. The total of the weights
changes with each agent that moves by the difference of two weights. With weights zero and one the
total counts the agents at certain places: it is zero if there is none, and if it is at most one,
there are no two.
-/

namespace Charmos.AgentSum

open Finset Function

variable {T P M : Type*} [Fintype T]

/-- The total weight of the agents, with `pc` for the place of each. -/
def total [AddCommMonoid M] (w : P → M) (pc : T → P) : M := ∑ t, w (pc t)

/-- The total without one agent, whatever the place of that agent. -/
theorem exists_rest [DecidableEq T] [AddCommMonoid M] (w : P → M) (pc : T → P) (t : T) :
    ∃ r, total w pc = r + w (pc t) ∧ ∀ p, total w (update pc t p) = r + w p := by
  refine ⟨∑ u ∈ univ.erase t, w (pc u), ?_, fun p => ?_⟩
  · exact (sum_erase_add _ _ (mem_univ t)).symm
  · rw [total, ← sum_erase_add _ _ (mem_univ t), update_self]
    refine congrArg (· + w p) (sum_congr rfl fun u hu => ?_)
    rw [update_of_ne (ne_of_mem_erase hu)]

/-- One agent goes to the place `p`. -/
theorem total_update [DecidableEq T] [AddCommMonoid M] (w : P → M) (pc : T → P) (t : T) (p : P) :
    total w (update pc t p) + w (pc t) = total w pc + w p := by
  obtain ⟨r, hold, hnew⟩ := exists_rest w pc t
  rw [hold, hnew, add_right_comm]

theorem total_update_eq [DecidableEq T] [AddCommMonoid M] {w : P → M} {pc : T → P} {t : T} {p : P}
    (hp : w p = w (pc t)) : total w (update pc t p) = total w pc := by
  obtain ⟨r, hold, hnew⟩ := exists_rest w pc t
  rw [hold, hnew, hp]

theorem total_const_zero [AddCommMonoid M] {w : P → M} {pc : T → P} (h : ∀ t, w (pc t) = 0) :
    total w pc = 0 :=
  sum_eq_zero fun t _ => h t

variable {w : P → ℕ} {pc : T → P} {t u : T}

theorem le_total (w : P → ℕ) (pc : T → P) (t : T) : w (pc t) ≤ total w pc :=
  single_le_sum (f := fun u => w (pc u)) (fun _ _ => Nat.zero_le _) (mem_univ t)

theorem total_eq_zero : total w pc = 0 ↔ ∀ t, w (pc t) = 0 := by
  simp [total, sum_eq_zero_iff]

/-- If the total is at most one, no two agents have weight. -/
theorem eq_of_total_le_one [DecidableEq T] (h : total w pc ≤ 1) (ht : 0 < w (pc t))
    (hu : 0 < w (pc u)) : t = u := by
  by_contra hne
  have hle : ∑ v ∈ {t, u}, w (pc v) ≤ total w pc := sum_le_sum_of_subset (subset_univ _)
  rw [sum_pair hne] at hle
  omega

end Charmos.AgentSum
