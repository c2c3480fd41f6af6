import Mathlib

/-!
# Singly linked lists in memory

The nodes of a list are linked through a field `next`. `LinkChain next o l` says that the link `o`
leads through the nodes of `l` to the end.
-/

namespace Charmos

variable {α : Type*} {next next' : α → Option α} {o : Option α} {a : α} {l l' : List α}

/-- The link `o` leads through the nodes of the list, and then ends. -/
def LinkChain (next : α → Option α) : Option α → List α → Prop
  | o, [] => o = none
  | o, a :: l => o = some a ∧ LinkChain next (next a) l

namespace LinkChain

@[simp] theorem nil_iff : LinkChain next o [] ↔ o = none := Iff.rfl

@[simp] theorem cons_iff : LinkChain next o (a :: l) ↔ o = some a ∧ LinkChain next (next a) l :=
  Iff.rfl

theorem none_iff : LinkChain next none l ↔ l = [] := by
  cases l <;> simp

/-- A link to a node starts with that node. -/
theorem some_cases (h : LinkChain next (some a) l) :
    ∃ l', l = a :: l' ∧ LinkChain next (next a) l' := by
  cases l with
  | nil => simp at h
  | cons b l =>
    obtain ⟨hb, hl⟩ := cons_iff.mp h
    obtain ⟨⟩ := hb
    exact ⟨l, rfl, hl⟩

/-- Only the links of the nodes of the list matter. -/
theorem congr (h : LinkChain next o l) (heq : ∀ a ∈ l, next' a = next a) : LinkChain next' o l := by
  induction l generalizing o with
  | nil => exact h
  | cons a l ih =>
    refine ⟨h.1, ?_⟩
    rw [heq a List.mem_cons_self]
    exact ih h.2 fun b hb => heq b (List.mem_cons_of_mem a hb)

/-- The link of another node is changed. -/
theorem update [DecidableEq α] (h : LinkChain next o l) (ha : a ∉ l) (v : Option α) :
    LinkChain (Function.update next a v) o l :=
  h.congr fun _ hb => Function.update_of_ne (ne_of_mem_of_not_mem hb ha) _ _

/-- A link leads through one list only. -/
theorem unique (h : LinkChain next o l) (h' : LinkChain next o l') : l = l' := by
  induction l generalizing o l' with
  | nil =>
    rw [nil_iff] at h
    subst h
    exact (none_iff.mp h').symm
  | cons a l ih =>
    obtain ⟨rfl, hl⟩ := cons_iff.mp h
    obtain ⟨l'', rfl, hl''⟩ := h'.some_cases
    rw [ih hl hl'']

end LinkChain

end Charmos
