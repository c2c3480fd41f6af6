import Mathlib.Tactic.Ring

/-!
# The address ranges of the kernel

`address_range.c` keeps the ranges of the kernel's address space as descriptors in a linker section.
`address_range_for_addr` goes through them in the order of the section and takes a range with its
end. A range that comes first hides the start of one that it ends at (`addressRangeForAddr_iff`).
-/

namespace Charmos.Ranges

open List

/-- `struct address_range`. -/
structure AddressRange where
  base : ℕ
  size : ℕ
  deriving DecidableEq

/-- `ADDRESS_RANGE_KERNEL_START`. -/
def kernelStart : ℕ := 0xFFFF800000000000

/-- `ADDRESS_RANGE_KERNEL_END`. -/
def kernelEnd : ℕ := 0xFFFFFFFFFFFFFFFF

/-- `ar_end`. -/
def arEnd (ar : AddressRange) : ℕ := (ar.base + ar.size) % 2 ^ 64

/-- `address_range_for_addr`; no result where `IN_RANGE` finds the bounds out of order. -/
def addressRangeForAddr (vaddr : ℕ) : List AddressRange → Option (Option AddressRange)
  | [] => some none
  | ar :: ars =>
    if ar.base ≤ arEnd ar then
      if vaddr ≥ ar.base ∧ vaddr ≤ arEnd ar then some (some ar) else addressRangeForAddr vaddr ars
    else none

/-- The range is inside the kernel window. -/
def AddressRange.InWindow (ar : AddressRange) : Prop :=
  kernelStart ≤ ar.base ∧ ar.base + ar.size ≤ kernelEnd

/-- The address is in the half-open range. -/
def AddressRange.Has (ar : AddressRange) (vaddr : ℕ) : Prop :=
  ar.base ≤ vaddr ∧ vaddr < ar.base + ar.size

instance (ar : AddressRange) (vaddr : ℕ) : Decidable (ar.Has vaddr) :=
  inferInstanceAs (Decidable (_ ∧ _))

/-- No address is in both ranges. -/
def AddressRange.Disjoint (a b : AddressRange) : Prop := ∀ vaddr, ¬ (a.Has vaddr ∧ b.Has vaddr)

theorem AddressRange.InWindow.arEnd_eq {ar : AddressRange} (h : ar.InWindow) :
    arEnd ar = ar.base + ar.size :=
  Nat.mod_eq_of_lt (Nat.lt_of_le_of_lt h.2 (by decide : kernelEnd < 2 ^ 64))

/-- The address is classified as the ranges say: the result is the range that has it, if one has. -/
def Classified (ars : List AddressRange) (vaddr : ℕ) : Prop :=
  ∃ r, addressRangeForAddr vaddr ars = some r ∧ ∀ ar, r = some ar ↔ ar ∈ ars ∧ ar.Has vaddr

/-- An address is classified right if and only if no range ends at it, except for ranges that come
behind the one that has it. -/
theorem addressRangeForAddr_iff (ars : List AddressRange) (hin : ∀ ar ∈ ars, ar.InWindow)
    (hd : ars.Pairwise AddressRange.Disjoint) (vaddr : ℕ) :
    Classified ars vaddr ↔ ∀ l₁ ar l₂, ars = l₁ ++ ar :: l₂ → ar.base + ar.size = vaddr →
      ∃ ar' ∈ l₁, ar'.Has vaddr := by
  induction ars with
  | nil =>
    refine iff_of_true ⟨none, rfl, fun ar => by simp⟩ fun l₁ ar l₂ heq => ?_
    simp at heq
  | cons ar ars ih =>
    obtain ⟨hhead, htail⟩ := pairwise_cons.mp hd
    have hend := (hin ar mem_cons_self).arEnd_eq
    have ih := ih (fun x hx => hin x (mem_cons_of_mem ar hx)) htail
    have hle : ar.base ≤ arEnd ar := hend ▸ Nat.le_add_right _ _
    by_cases hhas : ar.Has vaddr
    · -- the first range has the address
      refine iff_of_true ⟨some ar, ?_, fun x => ?_⟩ fun l₁ x l₂ heq hx => ?_
      · rw [addressRangeForAddr, if_pos hle, if_pos ⟨hhas.1, hend ▸ Nat.le_of_lt hhas.2⟩]
      · constructor
        · rintro ⟨⟩
          exact ⟨mem_cons_self, hhas⟩
        rintro ⟨hx, hx'⟩
        rcases mem_cons.mp hx with rfl | hx
        · rfl
        · exact absurd ⟨hhas, hx'⟩ (hhead x hx vaddr)
      · cases l₁ with
        | nil =>
          obtain rfl := (cons.inj heq).1
          exact absurd hx (Nat.ne_of_gt hhas.2)
        | cons y l₁ =>
          obtain rfl := (cons.inj heq).1
          exact ⟨ar, mem_cons_self, hhas⟩
    by_cases hat : ar.base + ar.size = vaddr
    · -- the first range ends at the address and is taken for it
      refine iff_of_false ?_ fun h => ?_
      · rintro ⟨r, hr, hr'⟩
        have htaken : vaddr ≥ ar.base ∧ vaddr ≤ arEnd ar := by omega
        rw [addressRangeForAddr, if_pos hle, if_pos htaken] at hr
        exact hhas ((hr' ar).mp (Option.some.inj hr).symm).2
      · obtain ⟨x, hx, -⟩ := h [] ar ars rfl hat
        cases hx
    · have hskip : addressRangeForAddr vaddr (ar :: ars) = addressRangeForAddr vaddr ars := by
        rw [addressRangeForAddr, if_pos hle, if_neg]
        rintro ⟨hlo, hhi⟩
        exact hhas ⟨hlo, by omega⟩
      have hmem : ∀ x, x ∈ ar :: ars ∧ x.Has vaddr ↔ x ∈ ars ∧ x.Has vaddr := by
        intro x
        rw [mem_cons, or_and_right, or_iff_right]
        rintro ⟨rfl, hx⟩
        exact hhas hx
      simp only [Classified, hskip, hmem]
      refine ih.trans ⟨fun h l₁ x l₂ heq hx => ?_, fun h l₁ x l₂ heq hx => ?_⟩
      · cases l₁ with
        | nil => exact absurd hx ((cons.inj heq).1 ▸ hat)
        | cons y l₁ =>
          obtain ⟨z, hz, hz'⟩ := h l₁ x l₂ (cons.inj heq).2 hx
          exact ⟨z, mem_cons_of_mem y hz, hz'⟩
      · obtain ⟨z, hz, hz'⟩ := h (ar :: l₁) x l₂ (congrArg (ar :: ·) heq) hx
        rcases mem_cons.mp hz with rfl | hz
        · exact absurd hz' hhas
        · exact ⟨z, hz, hz'⟩

/-- Two pages, one behind the other. -/
private def lowPage : AddressRange := ⟨kernelStart, 0x1000⟩

private def highPage : AddressRange := ⟨kernelStart + 0x1000, 0x1000⟩

private theorem pages_ok : lowPage.InWindow ∧ highPage.InWindow ∧ highPage.Disjoint lowPage := by
  refine ⟨⟨by decide, by decide⟩, ⟨by decide, by decide⟩, fun vaddr h => ?_⟩
  exact absurd h.2.2 (Nat.not_lt.mpr h.1.1)

/-- The first address of the higher page is classified right if its descriptor comes first. -/
theorem addressRangeForAddr_iff_pages :
    Classified [highPage, lowPage] (kernelStart + 0x1000) := by
  obtain ⟨hlow, hhigh, hd⟩ := pages_ok
  refine (addressRangeForAddr_iff _ ?_ ?_ _).mpr fun l₁ ar l₂ heq hat => ?_
  · simp [hlow, hhigh]
  · simp [hd]
  rcases l₁ with _ | ⟨x, l₁⟩
  · obtain rfl := (cons.inj heq).1
    exact absurd hat (by decide)
  · obtain rfl := (cons.inj heq).1
    exact ⟨highPage, mem_cons_self, by decide⟩

/-- It is classified as the lower page if that descriptor comes first. -/
theorem addressRangeForAddr_boundary :
    addressRangeForAddr (kernelStart + 0x1000) [lowPage, highPage] = some (some lowPage) ∧
      highPage.Has (kernelStart + 0x1000) ∧ ¬ lowPage.Has (kernelStart + 0x1000) := by
  decide

end Charmos.Ranges
