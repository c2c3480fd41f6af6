import Mathlib.Data.Set.Basic
import Mathlib.Logic.Relation

/-!
# Cycles of edges

A set of edges with a relation that says which edge may follow which. A cycle is an edge that can be
reached from itself by following edges of the set. When the edges that are added to a set without
cycles all have the same followers, as edges with one common head have, a cycle through several of
them has a shortcut through one: the larger set has a cycle if and only if one of the new edges is
reached from itself through the old ones (`hasEdgeCycle_union`).
-/

namespace Charmos

open Relation

variable {ε : Type}

/-- From an edge to one that follows it in the set. -/
def EdgeStep (J : ε → ε → Prop) (E : Set ε) (a b : ε) : Prop :=
  b ∈ E ∧ J a b

/-- Some edge of the set is reached from itself. -/
def HasEdgeCycle (J : ε → ε → Prop) (E : Set ε) : Prop :=
  ∃ e ∈ E, Relation.TransGen (EdgeStep J E) e e

variable {J : ε → ε → Prop} {E N : Set ε} {a b x y : ε}

private theorem EdgeStep.mono {F : Set ε} (hEF : E ⊆ F) (h : EdgeStep J E a b) : EdgeStep J F a b :=
  ⟨hEF h.1, h.2⟩

/-- A path that ends with a new edge comes to a first new edge. -/
private theorem first_new (h : TransGen (EdgeStep J (E ∪ N)) x y) (hy : y ∈ N) :
    ∃ n ∈ N, ∃ e, ReflTransGen (EdgeStep J E) x e ∧ J e n := by
  induction h using TransGen.head_induction_on with
  | single hstep => exact ⟨y, hy, _, .refl, hstep.2⟩
  | head hstep _ ih =>
    rcases hstep.1 with hE | hN
    · obtain ⟨n, hn, e, hpath, hjoin⟩ := ih
      exact ⟨n, hn, e, .head ⟨hE, hstep.2⟩ hpath, hjoin⟩
    · exact ⟨_, hN, _, .refl, hstep.2⟩

/-- A path uses old edges only, or it passes through a new one. -/
private theorem old_or_through (h : TransGen (EdgeStep J (E ∪ N)) x y) :
    TransGen (EdgeStep J E) x y ∨ ∃ n ∈ N,
      TransGen (EdgeStep J (E ∪ N)) x n ∧
      ReflTransGen (EdgeStep J (E ∪ N)) n y := by
  induction h with
  | single hstep =>
    rcases hstep.1 with hE | hN
    · exact .inl (.single ⟨hE, hstep.2⟩)
    · exact .inr ⟨_, hN, .single hstep, .refl⟩
  | tail hpath hstep ih =>
    rcases ih with hold | ⟨n, hn, hto, hfrom⟩
    · rcases hstep.1 with hE | hN
      · exact .inl (hold.tail ⟨hE, hstep.2⟩)
      · exact .inr ⟨_, hN, hpath.tail hstep, .refl⟩
    · exact .inr ⟨n, hn, hto, hfrom.tail hstep⟩

/-- Adding edges that all have the same followers closes a cycle if and only if one of them is
reached from itself through the old edges. -/
theorem hasEdgeCycle_union (hE : ¬ HasEdgeCycle J E) (hN : ∀ a ∈ N, ∀ b ∈ N, ∀ c, J a c → J b c) :
    HasEdgeCycle J (E ∪ N) ↔
      ∃ n ∈ N, ∃ e, ReflTransGen (EdgeStep J E) n e ∧ J e n := by
  refine ⟨?_, ?_⟩
  · rintro ⟨e₀, he₀, hcycle⟩
    obtain ⟨n, hn, hn'⟩ : ∃ n ∈ N, TransGen (EdgeStep J (E ∪ N)) n n := by
      rcases old_or_through hcycle with hold | ⟨n, hn, hto, hfrom⟩
      · rcases he₀ with he₀ | he₀
        · exact absurd ⟨e₀, he₀, hold⟩ hE
        · exact ⟨e₀, he₀, hcycle⟩
      · exact ⟨n, hn, hto.trans_right hfrom⟩
    obtain ⟨m, hm, e, hpath, hjoin⟩ := first_new hn' hn
    -- the path from `n` is also one from `m`, which has the same followers
    refine ⟨m, hm, ?_⟩
    rcases ReflTransGen.cases_head hpath with rfl | ⟨f, hf, hrest⟩
    · exact ⟨m, .refl, hN n hn m hm m hjoin⟩
    · exact ⟨e, .head ⟨hf.1, hN n hn m hm f hf.2⟩ hrest, hjoin⟩
  · rintro ⟨n, hn, e, hpath, hjoin⟩
    refine ⟨n, .inr hn, ?_⟩
    have hpath' : ReflTransGen (EdgeStep J (E ∪ N)) n e :=
      ReflTransGen.mono (fun _ _ h => EdgeStep.mono Set.subset_union_left h) _ _ hpath
    exact TransGen.tail' hpath' ⟨.inr hn, hjoin⟩

end Charmos
