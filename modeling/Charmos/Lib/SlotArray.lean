import Mathlib

/-!
# A fixed array of optional entries

`n` slots, each free or with one entry. What matters about the array is which entries are in it and
how often, not where: `entries` lists them in the order of the slots, and every operation on a slot
is described by what it does to that list, up to the order.
-/

namespace Charmos.SlotArray

open Function List

variable {n : ℕ} {α : Type*} {f : Fin n → Option α} {i : Fin n} {a : α}

/-- The entries of the slots that are in use. -/
def entries (f : Fin n → Option α) : List α := (List.finRange n).filterMap f

@[simp] theorem mem_entries : a ∈ entries f ↔ ∃ i, f i = some a := by
  simp [entries]

@[simp] theorem entries_none : entries (fun _ : Fin n => (none : Option α)) = [] := by
  simp [entries]

/-- Entries that fail a test are dropped. -/
theorem entries_filter (f : Fin n → Option α) (p : α → Bool) :
    entries (fun i => (f i).filter p) = (entries f).filter p := by
  rw [entries, entries, filter_filterMap]

private theorem filterMap_update_perm {l : List (Fin n)} (hl : l.Nodup) (hi : i ∈ l)
    (hf : f i = none) : (l.filterMap (update f i (some a))).Perm (a :: l.filterMap f) := by
  induction l with
  | nil => cases hi
  | cons j l ih =>
    have hj := nodup_cons.1 hl
    by_cases hij : j = i
    · have hrest : l.filterMap (update f i (some a)) = l.filterMap f := by
        refine filterMap_congr fun k hk => update_of_ne ?_ _ _
        rintro rfl
        exact hj.1 (hij ▸ hk)
      rw [filterMap_cons_some (b := a) (by rw [hij, update_self]),
        filterMap_cons_none (hij ▸ hf), hrest]
    · have hmem : i ∈ l := by
        rcases mem_cons.1 hi with h | h
        · exact absurd h.symm hij
        · exact h
      rw [filterMap_cons, filterMap_cons, update_of_ne hij]
      cases f j with
      | none => exact ih hj.2 hmem
      | some b => exact ((ih hj.2 hmem).cons b).trans (List.Perm.swap a b _)

/-- An entry is put into a free slot. -/
theorem entries_fill (hf : f i = none) : (entries (update f i (some a))).Perm (a :: entries f) :=
  filterMap_update_perm (nodup_finRange n) (mem_finRange i) hf

/-- A slot in use is freed. -/
theorem entries_free (hf : f i = some a) : (entries f).Perm (a :: entries (update f i none)) := by
  have hfill := entries_fill (f := update f i none) (a := a) (update_self i none f)
  rwa [update_idem, update_eq_self_iff.2 hf.symm] at hfill

end Charmos.SlotArray
