import Mathlib

/-!
# Lists sorted by a key

Whether one member of a list is in its place is decided by its two neighbours, if the rest of the
list is sorted. This covers a new member that is put between two others, and a member whose key has
changed.
-/

namespace Charmos

open List

variable {α β : Type*} [LinearOrder β] {key : α → β} {l : List α}

/-- The keys do not decrease along the list. -/
def SortedBy (key : α → β) (l : List α) : Prop :=
  l.Pairwise fun a b => key a ≤ key b

theorem SortedBy.sublist {l' : List α} (h : SortedBy key l) (hl : l'.Sublist l) : SortedBy key l' :=
  Pairwise.sublist hl h

theorem sortedBy_congr {key' : α → β} (h : ∀ a ∈ l, key' a = key a) :
    SortedBy key' l ↔ SortedBy key l := by
  unfold SortedBy
  refine Pairwise.iff_of_mem fun ha hb => ?_
  rw [h _ ha, h _ hb]

/-- A member is in its place if and only if its neighbours are on the right sides of it. -/
theorem sortedBy_middle_iff {l₁ l₂ : List α} {a : α} :
    SortedBy key (l₁ ++ a :: l₂) ↔ SortedBy key (l₁ ++ l₂) ∧
      (∀ x ∈ l₁.getLast?, key x ≤ key a) ∧ ∀ x ∈ l₂.head?, key a ≤ key x := by
  unfold SortedBy
  rw [pairwise_append, pairwise_append, pairwise_cons]
  constructor
  · rintro ⟨h₁, ⟨ha, h₂⟩, hcross⟩
    refine ⟨⟨h₁, h₂, fun x hx y hy => hcross x hx y (mem_cons_of_mem a hy)⟩,
      fun x hx => ?_, fun x hx => ?_⟩
    · exact hcross x (mem_of_getLast? hx) a mem_cons_self
    · exact ha x (mem_of_mem_head? hx)
  · rintro ⟨⟨h₁, h₂, hcross⟩, hlast, hhead⟩
    -- the last member before it is the largest one there, the first one behind it the smallest
    have hbefore : ∀ x ∈ l₁, key x ≤ key a := by
      intro x hx
      rcases eq_nil_or_concat l₁ with rfl | ⟨l, y, rfl⟩
      · cases hx
      have hy : key y ≤ key a := hlast y (by simp)
      rw [concat_eq_append, pairwise_append] at h₁
      rcases mem_append.mp (concat_eq_append ▸ hx) with hx | hx
      · exact (h₁.2.2 x hx y mem_cons_self).trans hy
      · rwa [mem_singleton.mp hx]
    have hbehind : ∀ x ∈ l₂, key a ≤ key x := by
      intro x hx
      cases l₂ with
      | nil => cases hx
      | cons y l =>
        have hy : key a ≤ key y := hhead y rfl
        rcases mem_cons.mp hx with rfl | hx
        · exact hy
        · exact hy.trans ((pairwise_cons.mp h₂).1 x hx)
    refine ⟨h₁, ⟨hbehind, h₂⟩, fun x hx y hy => ?_⟩
    rcases mem_cons.mp hy with rfl | hy
    · exact hbefore x hx
    · exact hcross x hx y hy

/-- Some of the members of a list are sorted if and only if each of them is sorted with those behind
it. -/
theorem sortedBy_sublist_iff {l' : List α} (hsub : l'.Sublist l) (hl : l.Nodup) :
    SortedBy key l' ↔ ∀ l₁ a l₂, l = l₁ ++ a :: l₂ → ∀ b ∈ l₂, a ∈ l' → b ∈ l' →
      key a ≤ key b := by
  unfold SortedBy
  induction hsub with
  | slnil => simp
  | @cons l' m x hsub ih =>
    obtain ⟨hx, hm⟩ := nodup_cons.mp hl
    rw [ih hm]
    refine ⟨fun h l₁ a l₂ hsplit => ?_, fun h l₁ a l₂ hsplit => ?_⟩
    · cases l₁ with
      | nil =>
        obtain ⟨rfl, -⟩ := cons.inj hsplit
        exact fun _ _ ha => absurd (hsub.subset ha) hx
      | cons y l₁ => exact h l₁ a l₂ (cons.inj hsplit).2
    · exact h (x :: l₁) a l₂ (by rw [hsplit]; rfl)
  | @cons_cons l' m x hsub ih =>
    obtain ⟨hx, hm⟩ := nodup_cons.mp hl
    rw [pairwise_cons, ih hm]
    have hne : ∀ b ∈ m, b ∈ x :: l' → b ∈ l' := by
      intro b hb hin
      rcases mem_cons.mp hin with rfl | hin
      · exact absurd hb hx
      · exact hin
    constructor
    · rintro ⟨hfirst, h⟩ l₁ a l₂ hsplit b hb ha hb'
      cases l₁ with
      | nil =>
        obtain ⟨rfl, rfl⟩ := cons.inj hsplit
        exact hfirst b (hne b hb hb')
      | cons y l₁ =>
        obtain ⟨-, rfl⟩ := cons.inj hsplit
        exact h l₁ a l₂ rfl b hb (hne a (by simp) ha) (hne b (by simp [hb]) hb')
    · intro h
      refine ⟨fun b hb => ?_, fun l₁ a l₂ hsplit b hb ha hb' => ?_⟩
      · exact h [] x m rfl b (hsub.subset hb) mem_cons_self (mem_cons_of_mem x hb)
      · exact h (x :: l₁) a l₂ (by rw [hsplit]; rfl) b hb (mem_cons_of_mem x ha)
          (mem_cons_of_mem x hb')

end Charmos
