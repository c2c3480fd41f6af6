import Mathlib.Logic.Function.Basic
import Mathlib.Logic.Relation

/-!
# Agents that share a memory

Agents `ι` work on a shared memory `μ`, each with its own program counter in `π`. The relation
`act p m c m' c'` says what agent `p`, standing at `c`, may do to the memory in one atomic step.
`Step act` is one step of any agent, and a run is any interleaving of such steps.

An `Outline` annotates the program: an assertion about the memory alone, one that each agent's
counter makes about the memory, and a relation between the counters of two different agents. It
has to be checked for one step at a time: the agent that moves re-establishes its own part, and no
step interferes with the part of another agent. `Outline.run` then gives the annotation along
every interleaving.
-/

namespace Charmos.Interleaving

open Function

variable {ι μ π : Type*} [DecidableEq ι]

/-- The shared memory and the program counter of each agent. -/
structure Config (ι μ π : Type*) where
  mem : μ
  pc : ι → π

/-- One agent takes one step. -/
inductive Step (act : ι → μ → π → μ → π → Prop) : Config ι μ π → Config ι μ π → Prop
  | mk (p : ι) {m m' : μ} {pc : ι → π} {c' : π} (h : act p m (pc p) m' c') :
      Step act ⟨m, pc⟩ ⟨m', Function.update pc p c'⟩

/-- What one agent may do is a step of the system, wherever the others stand. -/
theorem Step.of_act {act : ι → μ → π → μ → π → Prop} {p : ι} {m m' : μ} {pc : ι → π} {c c' : π}
    (h : act p m c m' c') : Step act ⟨m, update pc p c⟩ ⟨m', update pc p c'⟩ := by
  have hp : act p m (update pc p c p) m' c' := by rwa [update_self]
  simpa only [update_idem] using Step.mk p hp

/-- An annotation of the agents' program that no step invalidates. -/
structure Outline (act : ι → μ → π → μ → π → Prop) where
  /-- What holds of the memory between any two steps. -/
  shared : μ → Prop
  /-- What an agent standing at a counter knows about the memory. -/
  known : ι → μ → π → Prop
  /-- The counters of two different agents never exclude each other. -/
  apart : π → π → Prop
  apart_symm : ∀ {c e}, apart c e → apart e c
  own : ∀ {p m c m' c'}, act p m c m' c' → shared m → known p m c →
    shared m' ∧ known p m' c'
  other : ∀ {p m c m' c' q e}, act p m c m' c' → p ≠ q → shared m → known p m c → known q m e →
    apart c e → known q m' e ∧ apart c' e

namespace Outline

variable {act : ι → μ → π → μ → π → Prop} (O : Outline act)

/-- The annotation holds in a configuration. -/
structure Holds (s : Config ι μ π) : Prop where
  shared : O.shared s.mem
  known : ∀ p, O.known p s.mem (s.pc p)
  apart : ∀ p q, p ≠ q → O.apart (s.pc p) (s.pc q)

variable {O}

/-- One step of any agent keeps the annotation. -/
theorem Holds.step {s s' : Config ι μ π} (h : O.Holds s) (hs : Step act s s') : O.Holds s' := by
  obtain ⟨p, hp⟩ := hs
  obtain ⟨hshared, hown⟩ := O.own hp h.shared (h.known p)
  have hother : ∀ q, p ≠ q → _ := fun q hq =>
    O.other hp hq h.shared (h.known p) (h.known q) (h.apart p q hq)
  refine ⟨hshared, fun q => ?_, fun q r hqr => ?_⟩
  · by_cases hq : q = p
    · subst hq
      simpa only [update_self] using hown
    · simpa only [update_of_ne hq] using (hother q (Ne.symm hq)).1
  by_cases hq : q = p
  · subst hq
    simpa only [update_self, update_of_ne hqr.symm] using (hother r hqr).2
  by_cases hr : r = p
  · subst hr
    simpa only [update_self, update_of_ne hq] using
      O.apart_symm (hother q hqr.symm).2
  · simpa only [update_of_ne hq, update_of_ne hr] using h.apart q r hqr

/-- The annotation holds along every interleaving. -/
theorem Holds.run {s s' : Config ι μ π} (h : O.Holds s)
    (hr : Relation.ReflTransGen (Step act) s s') : O.Holds s' := by
  induction hr with
  | refl => exact h
  | tail _ hs ih => exact ih.step hs

end Outline

end Charmos.Interleaving
