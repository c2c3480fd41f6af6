import Mathlib.Init

/-!
# Triples for programs that may fail

A program is a state transformer over `Except ε`: it returns a value and a new state, or it
fails. `Triple P x Q` is partial correctness: whenever `x`, started in a state with `P`, returns
`a`, the value and the new state satisfy `Q`. A failing run is no run of the system any more, so
nothing is asked of it. The rules follow the ways of building programs.
-/

namespace Charmos

variable {σ ε α β : Type}

/-- If `x` returns when started in a state with `P`, its value and final state satisfy `Q`. -/
def Triple (P : σ → Prop) (x : StateT σ (Except ε) α) (Q : α → σ → Prop) : Prop :=
  ∀ s, P s → ∀ a s', x.run s = .ok (a, s') → Q a s'

namespace Triple

variable {P P' : σ → Prop} {Q Q' : α → σ → Prop} {R : β → σ → Prop} {x y : StateT σ (Except ε) α}
  {f : α → StateT σ (Except ε) β}

/-- A computation followed by another returns when both do. -/
theorem run_bind_eq_ok {s : σ} {b : β} {s' : σ} :
    (x >>= f).run s = .ok (b, s') ↔
      ∃ a s₁, x.run s = .ok (a, s₁) ∧ (f a).run s₁ = .ok (b, s') := by
  rw [StateT.run_bind]
  cases hx : x.run s with
  | error e => simp [bind, Except.bind]
  | ok r =>
    obtain ⟨a, s₁⟩ := r
    simp only [bind, Except.bind, Except.ok.injEq, Prod.mk.injEq]
    exact ⟨fun h => ⟨a, s₁, ⟨rfl, rfl⟩, h⟩, fun ⟨_, _, ⟨rfl, rfl⟩, h⟩ => h⟩

theorem conseq (h : Triple P x Q) (hP : ∀ s, P' s → P s) (hQ : ∀ a s, Q a s → Q' a s) :
    Triple P' x Q' :=
  fun s hs a s' hr => hQ a s' (h s (hP s hs) a s' hr)

theorem pre (h : Triple P x Q) (hP : ∀ s, P' s → P s) : Triple P' x Q :=
  h.conseq hP fun _ _ hq => hq

theorem post (h : Triple P x Q) (hQ : ∀ a s, Q a s → Q' a s) : Triple P x Q' :=
  h.conseq (fun _ hp => hp) hQ

theorem pure {a : α} (h : ∀ s, P s → Q a s) : Triple P (Pure.pure a : StateT σ (Except ε) α) Q := by
  intro s hs b s' hr
  obtain ⟨⟩ := hr
  exact h s hs

theorem bind (hx : Triple P x Q) (hf : ∀ a, Triple (Q a) (f a) R) : Triple P (x >>= f) R := by
  intro s hs b s' hr
  obtain ⟨a, s₁, h₁, h₂⟩ := run_bind_eq_ok.mp hr
  exact hf a s₁ (hx s hs a s₁ h₁) b s' h₂

theorem fail (e : ε) : Triple P (throw e : StateT σ (Except ε) α) Q := by
  intro s _ a s' hr
  cases hr

/-- A fact that the precondition carries may be used to prove the triple. -/
theorem of_fact {φ : Prop} (h : φ → Triple P x Q) : Triple (fun s => P s ∧ φ) x Q :=
  fun s hs => h hs.2 s hs.1

/-- Reading the state: the state read satisfies the precondition. -/
theorem get_bind {g : σ → StateT σ (Except ε) β} (h : ∀ s₀, P s₀ → Triple P (g s₀) R) :
    Triple P (MonadState.get >>= g) R :=
  fun s hs b s' hr => h s hs s hs b s' hr

theorem modify {g : σ → σ} {R : PUnit → σ → Prop} (h : ∀ s, P s → R ⟨⟩ (g s)) :
    Triple P (MonadState.modifyGet fun s => (⟨⟩, g s) : StateT σ (Except ε) PUnit) R := by
  intro s hs a s' hr
  obtain ⟨⟩ := hr
  exact h s hs

theorem ite {c : Prop} [Decidable c] (ht : c → Triple P x Q) (hf : ¬ c → Triple P y Q) :
    Triple P (if c then x else y) Q := by
  split
  · exact ht ‹c›
  · exact hf ‹¬ c›

end Triple

/-! ### Running a program -/

/-- The state that a program ends in, or the one it was started in if it fails. -/
def finalState (x : StateT σ (Except ε) α) (s : σ) : σ :=
  match x.run s with
  | .ok (_, s') => s'
  | .error _ => s

/-- The program returns the value `a`. -/
def returns [DecidableEq α] (x : StateT σ (Except ε) α) (s : σ) (a : α) : Bool :=
  match x.run s with
  | .ok (b, _) => decide (b = a)
  | .error _ => false

theorem run_of_returns [DecidableEq α] {x : StateT σ (Except ε) α} {s : σ} {a : α}
    (h : returns x s a = true) : x.run s = .ok (a, finalState x s) := by
  rw [returns] at h
  rw [finalState]
  cases hx : x.run s with
  | error e => rw [hx] at h; cases h
  | ok r =>
    rw [hx] at h
    obtain rfl := of_decide_eq_true h
    rfl

end Charmos
