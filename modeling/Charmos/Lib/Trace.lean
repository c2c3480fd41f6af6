import Mathlib.Logic.Relation

/-!
# Traces

A trace takes the steps that a list names, one after the other, as far as they can be taken. The
state that it ends in is reached by a run.
-/

namespace Charmos

variable {σ α : Type*} {r : σ → σ → Prop} {step : σ → α → Option σ}
  {trace : σ → List α → Option σ} {s s' : σ} {l : List α}

theorem reflTransGen_of_trace (h : trace s l = some s')
    (hstep : ∀ s a s', step s a = some s' → r s s')
    (hnil : ∀ s, trace s [] = some s := by exact fun _ => rfl)
    (hcons : ∀ s a l, trace s (a :: l) = (step s a).bind (trace · l) := by
      exact fun _ _ _ => rfl) : Relation.ReflTransGen r s s' := by
  induction l generalizing s with
  | nil =>
    obtain rfl := Option.some.inj ((hnil s).symm.trans h)
    exact .refl
  | cons a l ih =>
    rw [hcons] at h
    obtain ⟨s₁, hs₁, hrest⟩ := Option.bind_eq_some_iff.mp h
    exact .head (hstep s a s₁ hs₁) (ih hrest)

end Charmos
