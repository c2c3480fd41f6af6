import Mathlib.Data.List.Basic

/-!
# Neighbours in a queue

`Follows q x y` says that `y` stands right after `x` in the list `q`. In a list without repetition
an element follows at most one other and is followed by at most one; every element but the first
follows one and every element but the last is followed. Joining at the end and leaving at the front
change one pair of neighbours.
-/

namespace Charmos

open List

variable {α : Type*}

/-- `y` stands right after `x`. -/
def Follows : List α → α → α → Prop
  | a :: b :: q, x, y => (x = a ∧ y = b) ∨ Follows (b :: q) x y
  | _, _, _ => False

namespace Follows

variable {q : List α} {a x y z : α}

theorem mem_left (h : Follows q x y) : x ∈ q := by
  fun_induction Follows q x y with
  | case1 a b q x y ih =>
    rcases h with ⟨rfl, -⟩ | h
    · exact mem_cons_self
    · exact mem_cons_of_mem _ (ih h)
  | case2 => exact h.elim

theorem mem_tail (h : Follows q x y) : y ∈ q.tail := by
  fun_induction Follows q x y with
  | case1 a b q x y ih =>
    rcases h with ⟨-, rfl⟩ | h
    · exact mem_cons_self
    · exact mem_cons_of_mem _ (ih h)
  | case2 => exact h.elim

theorem mem_right (h : Follows q x y) : y ∈ q := mem_of_mem_tail h.mem_tail

/-- In a list without repetition the first element follows none. -/
theorem ne_head (hq : q.Nodup) (h : Follows q x y) : q.head? ≠ some y := by
  cases q with
  | nil => exact h.elim
  | cons b q =>
    intro hb
    obtain ⟨⟩ := hb
    exact (nodup_cons.mp hq).1 h.mem_tail

/-- In a list without repetition the last element is followed by none. -/
theorem ne_last (hq : q.Nodup) (h : Follows q x y) : q.getLast? ≠ some x := by
  fun_induction Follows q x y with
  | case1 a b q x y ih =>
    rw [List.getLast?_cons_cons]
    rcases h with ⟨rfl, -⟩ | h
    · intro hl
      exact (nodup_cons.mp hq).1 (List.mem_of_getLast? hl)
    · exact ih (nodup_cons.mp hq).2 h
  | case2 => exact h.elim

/-- In a list without repetition an element is followed by at most one. -/
theorem right_unique (hq : q.Nodup) (h : Follows q x y) (h' : Follows q x z) : y = z := by
  fun_induction Follows q x y with
  | case1 a b q x y ih =>
    have hnot : ∀ w, ¬ Follows (b :: q) a w := fun w hw => (nodup_cons.mp hq).1 hw.mem_left
    rcases h with ⟨rfl, rfl⟩ | h
    · rcases h' with ⟨-, rfl⟩ | h'
      · rfl
      · exact absurd h' (hnot z)
    · rcases h' with ⟨rfl, -⟩ | h'
      · exact absurd h (hnot y)
      · exact ih (nodup_cons.mp hq).2 h h'
  | case2 => exact h.elim

/-- In a list without repetition an element follows at most one. -/
theorem left_unique (hq : q.Nodup) (h : Follows q x z) (h' : Follows q y z) : x = y := by
  fun_induction Follows q x z with
  | case1 a b q x z ih =>
    have hnot : ∀ w, ¬ Follows (b :: q) w b :=
      fun w hw => hw.ne_head (nodup_cons.mp hq).2 rfl
    rcases h with ⟨rfl, rfl⟩ | h
    · rcases h' with ⟨rfl, -⟩ | h'
      · rfl
      · exact absurd h' (hnot y)
    · rcases h' with ⟨-, rfl⟩ | h'
      · exact absurd h (hnot x)
      · exact ih (nodup_cons.mp hq).2 h h'
  | case2 => exact h.elim

/-- Every element but the first follows one. -/
theorem exists_left (hy : y ∈ q) (hh : q.head? ≠ some y) : ∃ x, Follows q x y := by
  induction q with
  | nil => cases hy
  | cons b q ih =>
    cases q with
    | nil =>
      obtain rfl := mem_singleton.mp hy
      exact absurd rfl hh
    | cons c q =>
      rcases mem_cons.mp hy with rfl | hy
      · exact absurd rfl hh
      by_cases hc : y = c
      · exact ⟨b, .inl ⟨rfl, hc⟩⟩
      · obtain ⟨x, hx⟩ := ih hy (fun h => hc (Option.some.inj h).symm)
        exact ⟨x, .inr hx⟩

/-- Joining at the end. -/
theorem concat_iff : Follows (q ++ [a]) x y ↔ Follows q x y ∨ q.getLast? = some x ∧ y = a := by
  induction q with
  | nil => simp [Follows]
  | cons b q ih =>
    cases q with
    | nil => simp [Follows, eq_comm]
    | cons c q =>
      simp only [cons_append, Follows] at ih ⊢
      rw [ih, List.getLast?_cons_cons, or_assoc]

end Follows

end Charmos
