import Mathlib

/-!
# Arrays in pages that exist on demand

An array is kept in pages of `n` elements behind a table of pages. A page that is missing stands for
elements that all have the default value. `PagedArray.get` reads an element through the table; the
lemmas say what each change of the table does to the elements.
-/

namespace Charmos

/-- A table of pages, of which some are missing. -/
abbrev PagedArray (β : Type*) := List (Option (ℕ → β))

namespace PagedArray

variable {β : Type*} {n : ℕ} {a : PagedArray β}

/-- The page with an index, if there is one. -/
def page (a : PagedArray β) (k : ℕ) : Option (ℕ → β) :=
  (a[k]?).join

theorem page_set (a : PagedArray β) (k j : ℕ) (p : Option (ℕ → β)) :
    page (a.set k p) j = if j = k ∧ k < a.length then p else a.page j := by
  by_cases hj : j = k
  · subst hj
    by_cases hk : j < a.length
    · simp [page, hk]
    · simp [page, hk]
  · simp [page, hj, List.getElem?_set_ne (Ne.symm hj)]

theorem page_of_length_le {k : ℕ} (h : a.length ≤ k) : a.page k = none := by
  simp [page, h]

theorem page_append_replicate (a : PagedArray β) (m k : ℕ) :
    page (a ++ List.replicate m none) k = a.page k := by
  by_cases hk : k < a.length
  · simp [page, List.getElem?_append_left hk]
  · rw [page_of_length_le (not_lt.mp hk), page, List.getElem?_append_right (not_lt.mp hk),
      List.getElem?_replicate]
    split_ifs <;> rfl

theorem page_take (a : PagedArray β) (m k : ℕ) :
    page (a.take m) k = if k < m then a.page k else none := by
  simp only [page, List.getElem?_take]
  split_ifs <;> rfl

variable [Inhabited β] {i : ℕ}

/-- The element with an index. -/
def get (n : ℕ) (a : PagedArray β) (i : ℕ) : β :=
  match a.page (i / n) with
  | some p => p (i % n)
  | none => default

/-- A page into which elements are copied from the position `start` on. -/
def copyIn (p : ℕ → β) (start : ℕ) (data : List β) : ℕ → β :=
  fun k => if start ≤ k ∧ k < start + data.length then data.getD (k - start) default else p k

theorem get_eq_default (h : a.page (i / n) = none) : a.get n i = default := by
  simp [get, h]

theorem get_congr {b : PagedArray β} (h : a.page (i / n) = b.page (i / n)) :
    a.get n i = b.get n i := by
  simp [get, h]

/-- Copying a piece that stays within one page changes the elements of that piece. -/
theorem get_set_copyIn (hn : 0 < n) (a : PagedArray β) (p : ℕ → β) (off : ℕ) (data : List β)
    (hlen : off / n < a.length) (hfit : off % n + data.length ≤ n)
    (hp : a.page (off / n) = some p ∨ a.page (off / n) = none ∧ p = fun _ => default) :
    get n (a.set (off / n) (some (copyIn p (off % n) data))) i =
      if off ≤ i ∧ i < off + data.length then data.getD (i - off) default else a.get n i := by
  have hoff := Nat.div_add_mod off n
  have hi := Nat.div_add_mod i n
  have hmod := Nat.mod_lt i hn
  by_cases hpage : i / n = off / n
  · have hread : get n (a.set (off / n) (some (copyIn p (off % n) data))) i =
        copyIn p (off % n) data (i % n) := by
      rw [get, page_set, if_pos ⟨hpage, hlen⟩]
    have hold : a.get n i = p (i % n) := by
      rcases hp with hp | ⟨hp, rfl⟩
      · rw [get, hpage, hp]
      · rw [get, hpage, hp]
    rw [hpage] at hi
    rw [hread, hold, copyIn]
    by_cases hin : off ≤ i ∧ i < off + data.length
    · rw [if_pos hin, if_pos ⟨by omega, by omega⟩, show i % n - off % n = i - off by omega]
    · rw [if_neg hin, if_neg (by omega)]
  · have hout : ¬(off ≤ i ∧ i < off + data.length) := by
      rintro ⟨hlo, hhi⟩
      have hle : off / n ≤ i / n := Nat.div_le_div_right hlo
      have hnext : n * (off / n) + n ≤ n * (i / n) := by
        have := Nat.mul_le_mul_left n (show off / n + 1 ≤ i / n by omega)
        rwa [mul_add, mul_one] at this
      omega
    rw [if_neg hout]
    apply get_congr
    rw [page_set, if_neg fun h => hpage h.1]

end PagedArray

end Charmos
