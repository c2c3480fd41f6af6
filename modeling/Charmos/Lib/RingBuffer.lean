import Mathlib.Data.Nat.ModEq
import Mathlib.Logic.Function.Basic
import Mathlib.Tactic.Ring

/-!
# Ring buffers

A ring of `capacity` slots with a head and a tail index, empty when the two are equal and full
when advancing the tail would make them equal, so that one slot always stays unused.
`RingBuffer.Holds r l` says that the ring stores the list `l`, oldest element first.
-/

namespace Charmos

open Function List

/-- The slots and the two indices of a ring buffer. -/
structure RingBuffer (α : Type) where
  slots : ℕ → α
  head : ℕ
  tail : ℕ
  capacity : ℕ

namespace RingBuffer

variable {α : Type}

/-- The slot after the tail is the head. -/
def Full (r : RingBuffer α) : Prop := (r.tail + 1) % r.capacity = r.head

instance (r : RingBuffer α) : Decidable r.Full := inferInstanceAs (Decidable (_ = _))

/-- Store at the tail, unless the ring is full. -/
def push (r : RingBuffer α) (x : α) : Option (RingBuffer α) :=
  if r.Full then none
  else some { r with
    slots := Function.update r.slots r.tail x
    tail := (r.tail + 1) % r.capacity }

/-- Take from the head, unless the ring is empty. -/
def pop (r : RingBuffer α) : Option (α × RingBuffer α) :=
  if r.head = r.tail then none
  else some (r.slots r.head, { r with head := (r.head + 1) % r.capacity })

/-- The ring stores the elements of `l`, the oldest one at the head. -/
structure Holds (r : RingBuffer α) (l : List α) : Prop where
  head_lt : r.head < r.capacity
  length_lt : l.length < r.capacity
  tail_eq : r.tail = (r.head + l.length) % r.capacity
  slot : ∀ i, (h : i < l.length) → r.slots ((r.head + i) % r.capacity) = l[i]

namespace Holds

variable {r r' : RingBuffer α} {l : List α} {x : α}

private theorem add_mod_inj {n a i j : ℕ} (hi : i < n) (hj : j < n)
    (h : (a + i) % n = (a + j) % n) : i = j := by
  have hij : i ≡ j [MOD n] := Nat.ModEq.add_left_cancel' a h
  rwa [Nat.ModEq, Nat.mod_eq_of_lt hi, Nat.mod_eq_of_lt hj] at hij

/-- A ring is full when it holds one element less than it has slots. -/
theorem full_iff (h : r.Holds l) : r.Full ↔ l.length + 1 = r.capacity := by
  have hlen := h.length_lt
  rw [Full, h.tail_eq, Nat.mod_add_mod]
  constructor
  · intro he
    by_contra hne
    have h0 : (r.head + (l.length + 1)) % r.capacity = (r.head + 0) % r.capacity := by
      rw [← add_assoc, he, add_zero, Nat.mod_eq_of_lt h.head_lt]
    have := add_mod_inj (by omega) (by omega) h0
    omega
  · intro he
    rw [add_assoc, he, Nat.add_mod_right, Nat.mod_eq_of_lt h.head_lt]

theorem empty_iff (h : r.Holds l) : r.head = r.tail ↔ l = [] := by
  rw [h.tail_eq]
  constructor
  · intro he
    have h0 : (r.head + l.length) % r.capacity = (r.head + 0) % r.capacity := by
      rw [← he, add_zero, Nat.mod_eq_of_lt h.head_lt]
    have hl := add_mod_inj h.length_lt (by have := h.head_lt; omega) h0
    exact length_eq_zero_iff.mp hl
  · rintro rfl
    exact (Nat.mod_eq_of_lt h.head_lt).symm

theorem push_none (hr : r.push x = none) : r.Full := by
  rw [push] at hr
  split_ifs at hr with hf
  exact hf

/-- Pushing appends. -/
theorem push (h : r.Holds l) (hr : r.push x = some r') : r'.Holds (l ++ [x]) := by
  rw [RingBuffer.push] at hr
  split_ifs at hr with hf
  have hlen := h.length_lt
  rw [h.full_iff] at hf
  obtain ⟨⟩ := hr
  refine ⟨h.head_lt, ?_, ?_, fun i hi => ?_⟩
  · simp only [length_append, length_singleton]
    omega
  · simp only [length_append, length_singleton]
    rw [h.tail_eq, Nat.mod_add_mod, add_assoc]
  simp only [length_append, length_singleton] at hi
  change update r.slots r.tail x ((r.head + i) % r.capacity) = _
  rcases Nat.lt_succ_iff_lt_or_eq.mp hi with hi' | rfl
  · have hne : (r.head + i) % r.capacity ≠ r.tail := by
      rw [h.tail_eq]
      intro he
      have := add_mod_inj (by omega) hlen he
      omega
    rw [update_of_ne hne, h.slot i hi', getElem_append_left hi']
  · rw [← h.tail_eq, update_self]
    simp

/-- Popping takes the oldest element. -/
theorem pop (h : r.Holds l) (hr : r.pop = some (x, r')) : ∃ l', l = x :: l' ∧ r'.Holds l' := by
  rw [RingBuffer.pop] at hr
  split_ifs at hr with he
  rw [h.empty_iff] at he
  obtain ⟨⟩ := hr
  obtain ⟨y, l', rfl⟩ := exists_cons_of_ne_nil he
  have hlen := h.length_lt
  simp only [length_cons] at hlen
  have hy : r.slots r.head = y := by
    have h0 := h.slot 0 (by simp)
    rwa [add_zero, Nat.mod_eq_of_lt h.head_lt] at h0
  refine ⟨l', by rw [hy], Nat.mod_lt _ (by omega), ?_, ?_, fun i hi => ?_⟩
  · change l'.length < r.capacity
    omega
  · change r.tail = ((r.head + 1) % r.capacity + l'.length) % r.capacity
    rw [h.tail_eq, Nat.mod_add_mod, length_cons]
    congr 1
    ring
  · change r.slots (((r.head + 1) % r.capacity + i) % r.capacity) = l'[i]
    have hs := h.slot (i + 1) (by simpa using hi)
    rw [getElem_cons_succ] at hs
    rw [Nat.mod_add_mod, ← hs]
    congr 2
    ring

end Holds

end RingBuffer

end Charmos
