import Mathlib

/-!
# Rings of slots with sequence numbers

Producers and one consumer share `n` slots. The queue has positions `0, 1, 2, …`, and the position
`p` uses the slot `p % n`. A slot has a sequence number that tells whose turn it is: it is `p` while
the slot is free for the position `p` or being filled for it, `p + 1` from the moment its value is
published until the consumer releases it, and then `p + n`. A producer claims the position `head`
if the sequence number of the slot is that position; the consumer takes published positions from
`tail` on, clears and releases them.

`SeqRing.Ok` is the invariant that all atomic steps keep. It is relative to what the queue holds at
each position (`item`), the first position that is not released (`rel`) and the first whose value is
still in its slot (`keep`).
-/

namespace Charmos

open Function

/-- How far the producer of a position is. -/
inductive Phase
  | claimed
  | written
  | published
  deriving DecidableEq

/-- The two ends of the queue, and the slots. -/
structure SeqRing (α : Type*) where
  head : ℕ
  tail : ℕ
  seq : ℕ → ℕ
  val : ℕ → α

namespace SeqRing

variable {α : Type*} {n : ℕ} {r : SeqRing α} {rel keep p : ℕ} {item : ℕ → Option (α × Phase)}
  {a : α}

/-- The slots agree with what the queue holds. -/
structure Ok (n : ℕ) (r : SeqRing α) (rel keep : ℕ) (item : ℕ → Option (α × Phase)) : Prop where
  rel_le : rel ≤ keep
  keep_le : keep ≤ r.tail
  tail_le : r.tail ≤ r.head
  head_le : r.head ≤ rel + n
  unclaimed : ∀ p, r.head ≤ p → item p = none
  claimed : ∀ p, p < r.head → ∃ a ph, item p = some (a, ph)
  taken : ∀ p, p < r.tail → ∃ a, item p = some (a, .published)
  seq_item : ∀ p a ph, rel ≤ p → item p = some (a, ph) →
    r.seq (p % n) = if ph = .published then p + 1 else p
  seq_free : ∀ p, r.head ≤ p → p < rel + n → r.seq (p % n) = p
  val_item : ∀ p a ph, keep ≤ p → item p = some (a, ph) → ph ≠ .claimed → r.val (p % n) = a

/-- An empty ring. -/
theorem Ok.init (n : ℕ) (val : ℕ → α) :
    Ok n { head := 0, tail := 0, seq := id, val } 0 0 fun _ => none where
  rel_le := le_rfl
  keep_le := le_rfl
  tail_le := le_rfl
  head_le := Nat.zero_le _
  unclaimed _ _ := rfl
  claimed p hp := absurd hp (Nat.not_lt_zero p)
  taken p hp := absurd hp (Nat.not_lt_zero p)
  seq_item _ _ _ _ h := nomatch h
  seq_free p _ hp := Nat.mod_eq_of_lt (by omega)
  val_item _ _ _ _ h := nomatch h

theorem mod_ne {q : ℕ} (hp : rel ≤ p ∧ p < rel + n) (hq : rel ≤ q ∧ q < rel + n) (hne : p ≠ q) :
    p % n ≠ q % n := by
  intro hmod
  have hdvd := (Nat.modEq_iff_dvd.1 hmod)
  obtain ⟨k, hk⟩ := hdvd
  rcases lt_trichotomy k 0 with hlt | rfl | hgt
  · nlinarith
  · omega
  · nlinarith

namespace Ok

variable (h : Ok n r rel keep item)
include h

theorem lt_head {x : α × Phase} (hp : item p = some x) : p < r.head := by
  by_contra hle
  rw [h.unclaimed p (by omega)] at hp
  cases hp

theorem tail_le_of_not_published {ph : Phase}
    (hp : item p = some (a, ph)) (hne : ph ≠ .published) : r.tail ≤ p := by
  by_contra hlt
  obtain ⟨b, hb⟩ := h.taken p (by omega)
  rw [hp] at hb
  exact hne (Prod.mk.inj (Option.some.inj hb)).2

/-- A producer that finds the slot free for its position can claim the position. -/
theorem lt_of_seq_eq (hn : 2 ≤ n) (hp : p ≤ r.head) (hseq : r.seq (p % n) = p) : p < rel + n := by
  by_contra hge
  have hhead := h.head_le
  have hkeep := h.rel_le.trans h.keep_le
  have htail := h.tail_le
  obtain rfl : p = rel + n := by omega
  obtain ⟨b, ph, hitem⟩ := h.claimed rel (by omega)
  have := h.seq_item rel b ph le_rfl hitem
  rw [Nat.add_mod_right] at hseq
  split_ifs at this <;> omega

theorem claim (hlt : r.head < rel + n) (a : α) :
    Ok n { r with head := r.head + 1 } rel keep
      (update item r.head (some (a, .claimed))) where
  rel_le := h.rel_le
  keep_le := h.keep_le
  tail_le := h.tail_le.trans (Nat.le_succ _)
  head_le := hlt
  unclaimed p hp := by
    rw [update_of_ne (by dsimp only at hp; omega)]
    exact h.unclaimed p (by dsimp only at hp; omega)
  claimed p hp := by
    rcases eq_or_ne p r.head with rfl | hne
    · exact ⟨a, _, update_self ..⟩
    · rw [update_of_ne hne]
      exact h.claimed p (by dsimp only at hp; omega)
  taken p hp := by
    have := h.tail_le
    rw [update_of_ne (by dsimp only at hp; omega)]
    exact h.taken p hp
  seq_item p b ph hp hitem := by
    rcases eq_or_ne p r.head with rfl | hne
    · rw [update_self] at hitem
      cases hitem
      exact h.seq_free r.head le_rfl hlt
    · rw [update_of_ne hne] at hitem
      exact h.seq_item p b ph hp hitem
  seq_free p hp := h.seq_free p (by dsimp only at hp; omega)
  val_item p b ph hp hitem hph := by
    rcases eq_or_ne p r.head with rfl | hne
    · rw [update_self] at hitem
      cases hitem
      exact absurd rfl hph
    · rw [update_of_ne hne] at hitem
      exact h.val_item p b ph hp hitem hph

/-- The phase of one position moves on, before its publication. -/
private theorem phase {ph ph' : Phase} (hp : item p = some (a, ph))
    (hph : ph ≠ .published) {seq : ℕ → ℕ} {val : ℕ → α}
    (hseq : seq (p % n) = if ph' = .published then p + 1 else p) (hval : val (p % n) = a)
    (hseqs : ∀ q, q ≠ p % n → seq q = r.seq q) (hvals : ∀ q, q ≠ p % n → val q = r.val q) :
    Ok n { r with seq := seq, val := val } rel keep
      (update item p (some (a, ph'))) := by
  have hrange := h.rel_le.trans h.keep_le
  have hhead := h.head_le
  have hlt := h.lt_head hp
  have htail := h.tail_le_of_not_published hp hph
  have hother (q : ℕ) (hq : rel ≤ q) (hq' : q < rel + n) (hne : q ≠ p) : q % n ≠ p % n :=
    mod_ne ⟨hq, hq'⟩ ⟨by omega, by omega⟩ hne
  refine ⟨h.rel_le, h.keep_le, h.tail_le, h.head_le, fun q hq => ?_, fun q hq => ?_, fun q hq => ?_,
    fun q b ph hq hitem => ?_, fun q hq hq' => ?_, fun q b ph hq hitem hne => ?_⟩
  · rw [update_of_ne (by dsimp only at hq; omega)]
    exact h.unclaimed q hq
  · rcases eq_or_ne q p with rfl | hne
    · exact ⟨a, ph', update_self ..⟩
    · rw [update_of_ne hne]
      exact h.claimed q hq
  · rw [update_of_ne (by dsimp only at hq; omega)]
    exact h.taken q hq
  · rcases eq_or_ne q p with rfl | hne
    · rw [update_self] at hitem
      cases hitem
      exact hseq
    · rw [update_of_ne hne] at hitem
      have := h.lt_head hitem
      dsimp only
      rw [hseqs _ (hother q hq (by omega) hne)]
      exact h.seq_item q b ph hq hitem
  · dsimp only at hq ⊢
    rw [hseqs _ (hother q (by omega) hq' (by omega))]
    exact h.seq_free q hq hq'
  · rcases eq_or_ne q p with rfl | hqp
    · rw [update_self] at hitem
      cases hitem
      exact hval
    rw [update_of_ne hqp] at hitem
    have := h.lt_head hitem
    have := h.rel_le
    dsimp only
    rw [hvals _ (hother q (by omega) (by omega) hqp)]
    exact h.val_item q b ph hq hitem hne

theorem write (hp : item p = some (a, .claimed)) :
    Ok n { r with val := update r.val (p % n) a } rel keep
      (update item p (some (a, .written))) := by
  have hseq : r.seq (p % n) = p := by
    have := h.tail_le_of_not_published hp (by decide)
    simpa using h.seq_item p a _ (by have := h.rel_le; have := h.keep_le; omega) hp
  exact h.phase hp (by decide) (by simpa using hseq) (update_self ..) (fun _ _ => rfl)
    fun q hq => update_of_ne hq ..

theorem publish (hp : item p = some (a, .written)) :
    Ok n { r with seq := update r.seq (p % n) (p + 1) } rel keep
      (update item p (some (a, .published))) := by
  have hval : r.val (p % n) = a := by
    have := h.tail_le_of_not_published hp (by decide)
    exact h.val_item p a _ (by have := h.keep_le; omega) hp (by decide)
  exact h.phase hp (by decide) (by simp) hval (fun q hq => update_of_ne hq ..) fun _ _ => rfl

/-- A position whose sequence number says so is published. -/
theorem published_of_seq (hrel : rel ≤ p) (hp : p < r.head)
    (hseq : r.seq (p % n) = p + 1) : ∃ a, item p = some (a, .published) := by
  obtain ⟨a, ph, hitem⟩ := h.claimed p hp
  have := h.seq_item p a ph hrel hitem
  split_ifs at this with hph
  · exact ⟨a, hph ▸ hitem⟩
  · omega

/-- If nothing is held back, the sequence number of the slot at the tail tells whether a value is
there. -/
theorem tail_lt_of_seq (hn : 2 ≤ n) (hrel : rel = r.tail)
    (hseq : r.seq (r.tail % n) = r.tail + 1) : r.tail < r.head := by
  by_contra hge
  have htail := h.tail_le
  have := h.seq_free r.tail (by omega) (by omega)
  omega

/-- The consumer takes published positions, up to `m`. -/
theorem take {m : ℕ} (hm : r.tail ≤ m) (hhead : m ≤ r.head)
    (hpub : ∀ p, r.tail ≤ p → p < m → ∃ a, item p = some (a, .published)) :
    Ok n { r with tail := m } rel keep item :=
  { h with
    keep_le := h.keep_le.trans hm
    tail_le := hhead
    taken := fun p hp => by
      rcases lt_or_ge p r.tail with hlt | hge
      · exact h.taken p hlt
      · exact hpub p hge hp }

/-- The values below `keep'` are not needed any more. -/
theorem forget {keep' : ℕ} (hle : keep ≤ keep') (htail : keep' ≤ r.tail) : Ok n r rel keep' item :=
  { h with
    rel_le := h.rel_le.trans hle
    keep_le := htail
    val_item := fun p a ph hp => h.val_item p a ph (hle.trans hp) }

/-- The consumer clears a slot whose value is not needed any more. -/
theorem clear (hrel : rel ≤ p) (hp : p < keep) (a : α) :
    Ok n { r with val := update r.val (p % n) a } rel keep item :=
  { h with
    val_item := fun q b ph hq hitem hph => by
      have := h.lt_head hitem
      have := h.head_le
      have := h.rel_le
      have hne := mod_ne (p := q) (q := p) (n := n) ⟨by omega, by omega⟩
        ⟨hrel, by omega⟩ (by omega)
      dsimp only
      rw [update_of_ne hne]
      exact h.val_item q b ph hq hitem hph }

/-- The consumer releases the slot of the first position that it holds. -/
theorem release (hn : 2 ≤ n) (hlt : rel < keep) :
    Ok n { r with seq := update r.seq (rel % n) (rel + n) } (rel + 1) keep item := by
  have hkeep := h.keep_le
  have htail := h.tail_le
  have hhead := h.head_le
  refine { h with
    rel_le := hlt
    head_le := by dsimp only; omega
    seq_item := fun p b ph hp hitem => ?_
    seq_free := fun p hp hp' => ?_ }
  · have := h.lt_head hitem
    have hne := mod_ne (p := p) (q := rel) (n := n) ⟨by omega, by omega⟩
      ⟨le_rfl, by omega⟩ (by omega)
    dsimp only
    rw [update_of_ne hne]
    exact h.seq_item p b ph (by omega) hitem
  · dsimp only at hp ⊢
    rcases eq_or_ne p (rel + n) with rfl | hne
    · rw [Nat.add_mod_right, update_self]
    have hmod := mod_ne (p := p) (q := rel) (n := n) ⟨by omega, by omega⟩
      ⟨le_rfl, by omega⟩ (by omega)
    rw [update_of_ne hmod]
    exact h.seq_free p hp (by omega)

end Ok

end SeqRing

end Charmos
