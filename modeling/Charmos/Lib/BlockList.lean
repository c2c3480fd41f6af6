import Charmos.Lib.Dyadic
import Mathlib.Data.List.Perm.Basic
import Mathlib.Algebra.BigOperators.Group.List.Basic
import Mathlib.Data.Set.Card
import Mathlib.Order.Interval.Finset.Nat

/-!
# Families of dyadic blocks

A block is a pair `(p, k)` standing for the interval `[p, p + 2 ^ k)`. A list of blocks is
*packed* in `[lo, hi)` when every block is aligned, non-zero, inside the interval and of an
order below `n`, and the blocks are pairwise apart. Being packed and the set of numbers
covered do not depend on the order of the list, and a block may be replaced by its two halves
or two siblings by their parent.

`gather n L` lists the blocks of a family of lists `L k` of starts, one for each order `k < n`.
-/

namespace Charmos.DyadicBlock

open Function List

/-- A block: its start and its order. -/
abbrev Block := ℕ × ℕ

/-- The blocks share no number. -/
def Block.Apart (b c : Block) : Prop := DyadicBlock.Apart b.1 b.2 c.1 c.2

/-- The number lies in the block. -/
def Block.Covers (b : Block) (x : ℕ) : Prop := DyadicBlock.Covers b.1 b.2 x

theorem Block.Apart.ne {b c : Block} (h : b.Apart c) : b ≠ c := by
  rintro rfl
  have hk : 0 < 2 ^ b.2 := by positivity
  rcases h with h | h <;> omega

theorem Block.Apart.comm {b c : Block} (h : b.Apart c) : c.Apart b := DyadicBlock.Apart.symm h

/-- The number of numbers that a list of pairwise apart blocks covers. -/
def size (bs : List Block) : ℕ := (bs.map fun b => 2 ^ b.2).sum

@[simp] theorem size_cons (b : Block) (bs : List Block) : size (b :: bs) = 2 ^ b.2 + size bs := by
  simp [size]

@[simp] theorem size_append (bs cs : List Block) : size (bs ++ cs) = size bs + size cs := by
  simp [size]

/-- The numbers that lie in some block of the list. -/
def covered (bs : List Block) : Set ℕ := {x | ∃ b ∈ bs, b.Covers x}

theorem mem_covered {bs : List Block} {x : ℕ} : x ∈ covered bs ↔ ∃ b ∈ bs, b.Covers x := Iff.rfl

theorem covered_cons (b : Block) (bs : List Block) :
    covered (b :: bs) = {x | b.Covers x} ∪ covered bs := by
  ext x
  simp [mem_covered]

theorem covered_perm {bs cs : List Block} (h : bs.Perm cs) : covered bs = covered cs := by
  ext x
  simp only [mem_covered, h.mem_iff]

theorem covered_split (p k : ℕ) (bs : List Block) :
    covered ((p, k) :: (p + 2 ^ k, k) :: bs) = covered ((p, k + 1) :: bs) := by
  rw [covered_cons, covered_cons, covered_cons, ← Set.union_assoc]
  congr 1
  ext x
  exact covers_succ_iff.symm

theorem covered_join {p k : ℕ} (hp : Aligned p k) (bs : List Block) :
    covered ((p, k) :: (sibling p k, k) :: bs) =
      covered ((min p (sibling p k), k + 1) :: bs) := by
  rw [covered_cons, covered_cons, covered_cons, ← Set.union_assoc]
  congr 1
  ext x
  exact (covers_parent_iff hp).symm

/-- The blocks are aligned, lie in `[lo, hi)` and are pairwise apart. -/
structure Packed (n lo hi : ℕ) (bs : List Block) : Prop where
  order_lt : ∀ b ∈ bs, b.2 < n
  pos : ∀ b ∈ bs, 0 < b.1
  le : ∀ b ∈ bs, lo ≤ b.1
  end_le : ∀ b ∈ bs, b.1 + 2 ^ b.2 ≤ hi
  aligned : ∀ b ∈ bs, Aligned b.1 b.2
  apart : bs.Pairwise Block.Apart

namespace Packed

variable {n lo hi : ℕ} {bs cs : List Block} {b c : Block} {p k : ℕ} {x : ℕ}

section

variable (h : Packed n lo hi bs)
include h

theorem perm (hp : bs.Perm cs) : Packed n lo hi cs where
  order_lt b hb := h.order_lt b (hp.mem_iff.mpr hb)
  pos b hb := h.pos b (hp.mem_iff.mpr hb)
  le b hb := h.le b (hp.mem_iff.mpr hb)
  end_le b hb := h.end_le b (hp.mem_iff.mpr hb)
  aligned b hb := h.aligned b (hp.mem_iff.mpr hb)
  apart := (hp.pairwise_iff fun h => Block.Apart.comm h).mp h.apart

theorem nodup : bs.Nodup := h.apart.imp fun hab => hab.ne

theorem apart_of_ne (hb : b ∈ bs) (hc : c ∈ bs) (hne : b ≠ c) : b.Apart c := by
  have : Std.Symm Block.Apart := ⟨fun _ _ hab => hab.comm⟩
  exact h.apart.forall hb hc hne

/-- A number lies in at most one block. -/
theorem eq_of_covers (hb : b ∈ bs) (hc : c ∈ bs) (hbx : b.Covers x) (hcx : c.Covers x) : b = c := by
  by_contra hne
  exact apart_iff_forall.mp (h.apart_of_ne hb hc hne) x hbx hcx

theorem start_inj (hb : b ∈ bs) (hc : c ∈ bs) (he : b.1 = c.1) : b = c :=
  h.eq_of_covers hb hc (covers_start _ _) (by rw [he]; exact covers_start _ _)

end

theorem tail (h : Packed n lo hi (b :: bs)) : Packed n lo hi bs where
  order_lt c hc := h.order_lt c (mem_cons_of_mem _ hc)
  pos c hc := h.pos c (mem_cons_of_mem _ hc)
  le c hc := h.le c (mem_cons_of_mem _ hc)
  end_le c hc := h.end_le c (mem_cons_of_mem _ hc)
  aligned c hc := h.aligned c (mem_cons_of_mem _ hc)
  apart := (pairwise_cons.mp h.apart).2

private theorem covers_eq_Ico (b : Block) : {x | b.Covers x} = Finset.Ico b.1 (b.1 + 2 ^ b.2) := by
  ext x
  simp [Block.Covers, DyadicBlock.Covers]

theorem covered_finite (bs : List Block) : (covered bs).Finite := by
  induction bs with
  | nil => simp [covered]
  | cons b bs ih =>
    rw [covered_cons, covers_eq_Ico]
    exact (Finset.finite_toSet _).union ih

/-- Packed blocks cover as many numbers as their sizes say. -/
theorem ncard_covered (h : Packed n lo hi bs) : (covered bs).ncard = size bs := by
  induction bs with
  | nil => simp [covered, size]
  | cons b bs ih =>
    have hdisj : Disjoint {x | b.Covers x} (covered bs) := by
      rw [Set.disjoint_left]
      rintro x hx ⟨c, hc, hcx⟩
      exact apart_iff_forall.mp ((pairwise_cons.mp h.apart).1 c hc) x hx hcx
    have hfin : {x | b.Covers x}.Finite := by
      rw [covers_eq_Ico]
      exact Finset.finite_toSet _
    rw [covered_cons, Set.ncard_union_eq hdisj hfin (covered_finite bs), ih h.tail, size_cons,
      covers_eq_Ico, Set.ncard_coe_finset, Nat.card_Ico, Nat.add_sub_cancel_left]

/-- A number that packed blocks cover lies in exactly one of them. -/
theorem countP_covers (h : Packed n lo hi bs) (hx : x ∈ covered bs) :
    bs.countP (fun b => decide (b.1 ≤ x) && decide (x < b.1 + 2 ^ b.2)) = 1 := by
  obtain ⟨b, hb, hbx⟩ := hx
  have hcov : b.1 ≤ x ∧ x < b.1 + 2 ^ b.2 := hbx
  rw [(perm_cons_erase hb).countP_eq, countP_cons_of_pos (by simpa using hcov),
    Nat.add_eq_right, countP_eq_zero]
  intro c hc
  have hne : c ≠ b := ((Nodup.mem_erase_iff h.nodup).mp hc).1
  have hno := apart_iff_forall.mp (h.apart_of_ne hb (mem_of_mem_erase hc) hne.symm) x hbx
  simpa [DyadicBlock.Covers] using hno

private theorem apart_of_covers {d : Block} (hc : c.Apart d) (h : ∀ x, b.Covers x → c.Covers x) :
    b.Apart d :=
  apart_iff_forall.mpr fun x hx => apart_iff_forall.mp hc x (h x hx)

/-- A block of a packed list may be cut into its halves. -/
theorem split (h : Packed n lo hi ((p, k + 1) :: bs)) :
    Packed n lo hi ((p, k) :: (p + 2 ^ k, k) :: bs) := by
  have hmem : (p, k + 1) ∈ (p, k + 1) :: bs := by simp
  have hk := h.order_lt _ hmem
  have hpos := h.pos _ hmem
  have hle := h.le _ hmem
  have hend := h.end_le _ hmem
  have hal := (h.aligned _ hmem).of_succ
  have hk0 : 0 < 2 ^ k := by positivity
  have ht := h.tail
  obtain ⟨hap, hapt⟩ := pairwise_cons.mp h.apart
  simp only at hk hpos hle hend
  constructor
  · simp only [mem_cons, forall_eq_or_imp]
    exact ⟨by omega, by omega, ht.order_lt⟩
  · simp only [mem_cons, forall_eq_or_imp]
    exact ⟨by omega, by omega, ht.pos⟩
  · simp only [mem_cons, forall_eq_or_imp]
    exact ⟨by omega, by omega, ht.le⟩
  · simp only [mem_cons, forall_eq_or_imp]
    exact ⟨by omega, by omega, ht.end_le⟩
  · simp only [mem_cons, forall_eq_or_imp]
    exact ⟨hal, hal.upper, ht.aligned⟩
  refine pairwise_cons.mpr ⟨fun d hd => ?_, pairwise_cons.mpr ⟨fun d hd => ?_, hapt⟩⟩
  · rcases mem_cons.mp hd with rfl | hd
    · exact Or.inl le_rfl
    · exact apart_of_covers (hap d hd) fun x hx => covers_succ_iff.mpr (Or.inl hx)
  · exact apart_of_covers (hap d hd) fun x hx => covers_succ_iff.mpr (Or.inr hx)

/-- Two siblings of a packed list may be joined into their parent. -/
theorem join (h : Packed n lo hi ((p, k) :: (sibling p k, k) :: bs)) (hn : k + 1 < n) :
    Packed n lo hi ((min p (sibling p k), k + 1) :: bs) := by
  have hal : Aligned p k := h.aligned (p, k) (by simp)
  have h1 := h.end_le (p, k) (by simp)
  have h2 := h.end_le (sibling p k, k) (by simp)
  have ht := h.tail.tail
  obtain ⟨hap, hap'⟩ := pairwise_cons.mp h.apart
  obtain ⟨hap', hapt⟩ := pairwise_cons.mp hap'
  simp only at h1 h2
  constructor
  · simp only [mem_cons, forall_eq_or_imp]
    exact ⟨hn, ht.order_lt⟩
  · simp only [mem_cons, forall_eq_or_imp]
    exact ⟨lt_min (h.pos (p, k) (by simp)) (h.pos (sibling p k, k) (by simp)), ht.pos⟩
  · simp only [mem_cons, forall_eq_or_imp]
    exact ⟨le_min (h.le (p, k) (by simp)) (h.le (sibling p k, k) (by simp)), ht.le⟩
  · simp only [mem_cons, forall_eq_or_imp]
    refine ⟨?_, ht.end_le⟩
    rcases sibling_eq hal with ⟨-, he⟩ | ⟨-, he⟩ <;> omega
  · simp only [mem_cons, forall_eq_or_imp]
    exact ⟨parent_aligned hal, ht.aligned⟩
  · refine pairwise_cons.mpr ⟨fun d hd => apart_iff_forall.mpr fun x hx => ?_, hapt⟩
    rcases (covers_parent_iff hal).mp hx with hx | hx
    · exact apart_iff_forall.mp (hap d (mem_cons_of_mem _ hd)) x hx
    · exact apart_iff_forall.mp (hap' d hd) x hx

/-- No block of a packed list contains the sibling of one of its blocks in its inside, except
for blocks below it: a block that meets the sibling of `(p, k)` starts there or is no larger. -/
theorem sibling_start (h : Packed n lo hi bs) (hp : (p, k) ∈ bs) (hb : b ∈ bs)
    (hc : b.Covers (sibling p k)) : b.1 = sibling p k := by
  have hpal := h.aligned _ hp
  have hbal := h.aligned _ hb
  rcases Nat.lt_or_ge k b.2 with hk | hk
  · -- A larger block would contain the parent, and with it the block `(p, k)`.
    exfalso
    have hsal : Aligned (min p (sibling p k)) (k + 1) := parent_aligned hpal
    have hcov : DyadicBlock.Covers b.1 b.2 (min p (sibling p k)) := by
      apply covers_of_not_apart hsal hbal hk
      intro hap
      exact apart_iff_forall.mp hap _
        ((covers_parent_iff hpal).mpr (Or.inr (covers_start _ _))) hc
    have hbp : b.Covers p := covers_end hsal hbal hk hcov
      ((covers_parent_iff hpal).mpr (Or.inl (covers_start _ _)))
    have hbe : b = (p, k) := h.eq_of_covers hb hp hbp (covers_start _ _)
    have : b.2 = k := by rw [hbe]
    omega
  · have hsal : Aligned (sibling p k) b.2 := dvd_trans (pow_dvd_pow 2 hk) (sibling_aligned hpal)
    obtain ⟨hc1, hc2⟩ := hc
    obtain ⟨a, ha⟩ := hsal
    obtain ⟨d, hd⟩ := hbal
    rw [ha, hd] at hc1 hc2
    have hpos : 0 < 2 ^ b.2 := by positivity
    have h1 : d ≤ a := Nat.le_of_mul_le_mul_left hc1 hpos
    have h2 : a < d + 1 := by
      apply Nat.lt_of_mul_lt_mul_left (a := 2 ^ b.2)
      exact hc2
    rw [ha, hd, show a = d by omega]

end Packed

/-! ### Blocks listed by order -/

/-- The blocks of a family of lists of starts, one list for each order below `n`. -/
def gather (n : ℕ) (L : ℕ → List ℕ) : List Block :=
  (range n).flatMap fun k => (L k).map fun p => (p, k)

theorem mem_gather {n : ℕ} {L : ℕ → List ℕ} {b : Block} :
    b ∈ gather n L ↔ b.2 < n ∧ b.1 ∈ L b.2 := by
  simp only [gather, mem_flatMap, mem_range, mem_map]
  constructor
  · rintro ⟨k, hk, p, hp, rfl⟩
    exact ⟨hk, hp⟩
  · rintro ⟨hk, hp⟩
    exact ⟨b.2, hk, b.1, hp, rfl⟩

/-- The size of blocks listed in groups of one order each. -/
theorem size_range_flatMap (n : ℕ) (L : ℕ → List ℕ) (order : ℕ → ℕ) :
    size ((range n).flatMap fun j => (L j).map fun p => (p, order j)) =
      ((range n).map fun j => (L j).length * 2 ^ order j).sum := by
  induction range n with
  | nil => rfl
  | cons j js ih =>
    rw [flatMap_cons, size_append, ih, map_cons, sum_cons]
    simp [size, comp_def]

/-- Taking one element out of one list of a family takes its image out of the images of all. -/
theorem range_flatMap_perm {α β : Type*} {n k : ℕ} (hk : k < n) (g : ℕ → α → β) (L : ℕ → List α)
    {p : α} {l : List α} (h : (L k).Perm (p :: l)) :
    ((range n).flatMap fun j => (L j).map (g j)).Perm
      (g k p :: (range n).flatMap fun j => (update L k l j).map (g j)) := by
  have hr : (range n).Perm (k :: (range n).erase k) := perm_cons_erase (mem_range.mpr hk)
  have hrest : ((range n).erase k).flatMap (fun j => (L j).map (g j)) =
      ((range n).erase k).flatMap (fun j => (update L k l j).map (g j)) := by
    refine flatMap_congr fun j hj => ?_
    have hjk : j ≠ k := ((Nodup.mem_erase_iff nodup_range).mp hj).1
    rw [update_of_ne hjk]
  have h1 := hr.flatMap_right fun j => (L j).map (g j)
  have h2 := hr.flatMap_right fun j => (update L k l j).map (g j)
  rw [flatMap_cons, hrest] at h1
  rw [flatMap_cons, update_self] at h2
  refine h1.trans (((h.map (g k)).append_right _).trans ?_)
  exact Perm.cons _ h2.symm

/-- Taking one start out of the list of order `k` takes one block out of the family. -/
theorem gather_perm {n k : ℕ} (hk : k < n) (L : ℕ → List ℕ) {p : ℕ} {l : List ℕ}
    (h : (L k).Perm (p :: l)) : (gather n L).Perm ((p, k) :: gather n (update L k l)) :=
  range_flatMap_perm hk (fun j q => (q, j)) L h

end Charmos.DyadicBlock
