import Mathlib

/-!
# Tilings of a set of numbers by extents

An extent is a start and a length and stands for the interval `[start, start + length)`. A list
of extents *tiles* a set when its extents are not empty, stand in increasing order without
overlap, and together cover exactly the set. A contiguous part of the list may be exchanged for
any other tiling of the same set of numbers; this one rule covers splitting an extent and joining
neighbours. Extents may also be put in or taken out together with the numbers they cover.
-/

namespace Charmos.Tiling

open List

/-- The interval `[start, start + length)`. -/
@[ext]
structure Extent where
  start : ℕ
  length : ℕ
  deriving DecidableEq, Repr

namespace Extent

/-- The numbers of the extent. -/
def toSet (e : Extent) : Set ℕ := Set.Ico e.start (e.start + e.length)

/-- The first extent ends where the second begins, or earlier. -/
def Before (e f : Extent) : Prop := e.start + e.length ≤ f.start

/-- The extents share no number. -/
def Apart (e f : Extent) : Prop := e.Before f ∨ f.Before e

variable {e : Extent}

theorem mem_toSet {x : ℕ} : x ∈ e.toSet ↔ e.start ≤ x ∧ x < e.start + e.length :=
  Iff.rfl

theorem start_mem (h : 0 < e.length) : e.start ∈ e.toSet :=
  ⟨le_refl _, by omega⟩

theorem last_mem (h : 0 < e.length) : e.start + e.length - 1 ∈ e.toSet :=
  ⟨by omega, by omega⟩

theorem Apart.symm {f : Extent} (h : e.Apart f) : f.Apart e := Or.symm h

theorem Apart.disjoint {f : Extent} (h : e.Apart f) : Disjoint e.toSet f.toSet := by
  rw [Set.disjoint_left]
  rintro x ⟨h₁, h₂⟩ ⟨h₃, h₄⟩
  rcases h with h | h <;> simp only [Before] at h <;> omega

/-- Non-empty extents without a common number are apart. -/
theorem apart_of_disjoint {f : Extent} (he : 0 < e.length) (hf : 0 < f.length)
    (h : Disjoint e.toSet f.toSet) : e.Apart f := by
  by_contra hc
  simp only [Apart, Before, not_or, not_le] at hc
  rw [Set.disjoint_left] at h
  rcases le_total e.start f.start with hle | hle
  · exact h (a := f.start) ⟨hle, hc.1⟩ (start_mem hf)
  · exact h (a := e.start) (start_mem he) ⟨hle, hc.2⟩

end Extent

open Extent

/-- The extents are not empty, stand in increasing order without overlap and cover exactly the
numbers of `R`. -/
structure Tiles (R : Set ℕ) (l : List Extent) : Prop where
  pos : ∀ e ∈ l, 0 < e.length
  ordered : l.Pairwise Before
  cover : ∀ x, x ∈ R ↔ ∃ e ∈ l, x ∈ e.toSet

namespace Tiles

variable {R S : Set ℕ} {a b l m : List Extent} {e f : Extent}

theorem nil : Tiles ∅ [] := ⟨by simp, .nil, by simp⟩

theorem single (h : 0 < e.length) : Tiles e.toSet [e] := ⟨by simpa, by simp, by simp⟩

theorem subset (h : Tiles R l) (he : e ∈ l) : e.toSet ⊆ R :=
  fun x hx => (h.cover x).mpr ⟨e, he, hx⟩

theorem start_mem (h : Tiles R l) (he : e ∈ l) : e.start ∈ R :=
  h.subset he (Extent.start_mem (h.pos e he))

/-- Two different extents of a tiling are apart. -/
theorem apart (h : Tiles R l) (he : e ∈ l) (hf : f ∈ l) (hne : e ≠ f) : e.Apart f := by
  have : Std.Symm Apart := ⟨fun _ _ => Apart.symm⟩
  have hp : l.Pairwise Apart := h.ordered.imp Or.inl
  exact hp.forall he hf hne

theorem starts_pairwise (h : Tiles R l) : l.Pairwise fun e f => e.start < f.start := by
  refine (List.Pairwise.and_mem.mp h.ordered).imp ?_
  rintro e f ⟨he, -, hef⟩
  have := h.pos e he
  simp only [Before] at hef
  omega

/-- A part of a tiling may be exchanged for another tiling of the same numbers. -/
theorem retile (h : Tiles R (a ++ l ++ b)) (hl : Tiles S l) (hm : Tiles S m) :
    Tiles R (a ++ m ++ b) := by
  obtain ⟨hpos, hord, hcov⟩ := h
  rw [pairwise_append, pairwise_append] at hord
  obtain ⟨⟨ha, -, hal⟩, hb, halb⟩ := hord
  refine ⟨?_, ?_, ?_⟩
  · intro e he
    rcases mem_append.mp he with he | he
    · rcases mem_append.mp he with he | he
      · exact hpos e (by simp [he])
      · exact hm.pos e he
    · exact hpos e (by simp [he])
  · rw [pairwise_append, pairwise_append]
    refine ⟨⟨ha, hm.ordered, ?_⟩, hb, ?_⟩
    · -- the first number of the new extent lies in an old one
      intro e he f hf
      obtain ⟨g, hg, hfg⟩ := (hl.cover _).mp (hm.start_mem hf)
      exact le_trans (hal e he g hg) hfg.1
    intro e he f hf
    rcases mem_append.mp he with he | he
    · exact halb e (mem_append_left _ he) f hf
    -- the last number of the new extent lies in an old one
    obtain ⟨g, hg, heg⟩ := (hl.cover _).mp (hm.subset he (last_mem (hm.pos e he)))
    have hgf := halb g (mem_append_right _ hg) f hf
    have := hm.pos e he
    simp only [mem_toSet, Before] at heg hgf ⊢
    omega
  · intro x
    have hlm : (∃ e ∈ l, x ∈ e.toSet) ↔ ∃ e ∈ m, x ∈ e.toSet := (hl.cover x).symm.trans (hm.cover x)
    rw [hcov x]
    simp only [mem_append, or_and_right, exists_or, hlm]

/-- Extents may be put in between those that stand before and those that stand after them. -/
theorem insert (h : Tiles R (a ++ b)) (hl : Tiles S l) (ha : ∀ e ∈ a, ∀ f ∈ l, e.Before f)
    (hb : ∀ e ∈ l, ∀ f ∈ b, e.Before f) : Tiles (R ∪ S) (a ++ l ++ b) := by
  obtain ⟨hpos, hord, hcov⟩ := h
  rw [pairwise_append] at hord
  obtain ⟨hoa, hob, hab⟩ := hord
  refine ⟨?_, ?_, ?_⟩
  · intro e he
    simp only [mem_append] at he
    rcases he with (he | he) | he
    · exact hpos e (by simp [he])
    · exact hl.pos e he
    · exact hpos e (by simp [he])
  · rw [pairwise_append, pairwise_append]
    refine ⟨⟨hoa, hl.ordered, ha⟩, hob, ?_⟩
    intro e he f hf
    rcases mem_append.mp he with he | he
    · exact hab e he f hf
    · exact hb e he f hf
  · intro x
    rw [Set.mem_union, hcov x, hl.cover x]
    simp only [mem_append, or_and_right, exists_or]
    exact or_right_comm

/-- An extent may be taken out together with its numbers. -/
theorem remove (h : Tiles R (a ++ e :: b)) : Tiles (R \ e.toSet) (a ++ b) := by
  have hmem : ∀ f ∈ a ++ b, f ∈ a ++ e :: b := by
    intro f hf
    rcases mem_append.mp hf with hf | hf <;> simp [hf]
  have hapart : ∀ f ∈ a ++ b, Disjoint f.toSet e.toSet := by
    have hord := h.ordered
    rw [pairwise_append, pairwise_cons] at hord
    intro f hf
    rcases mem_append.mp hf with hf | hf
    · exact Apart.disjoint (Or.inl (hord.2.2 f hf e (by simp)))
    · exact Apart.disjoint (Or.inr (hord.2.1.1 f hf))
  refine ⟨fun f hf => h.pos f (hmem f hf), ?_, ?_⟩
  · exact h.ordered.sublist (List.Sublist.append_left (sublist_cons_self e b) a)
  intro x
  constructor
  · rintro ⟨hx, hxe⟩
    obtain ⟨f, hf, hxf⟩ := (h.cover x).mp hx
    refine ⟨f, ?_, hxf⟩
    simp only [mem_append, mem_cons] at hf ⊢
    rcases hf with hf | rfl | hf
    · exact Or.inl hf
    · exact absurd hxf hxe
    · exact Or.inr hf
  · rintro ⟨f, hf, hxf⟩
    exact ⟨h.subset (hmem f hf) hxf, Set.disjoint_left.mp (hapart f hf) hxf⟩

/-- Two neighbours tile what the joined extent tiles. -/
theorem pair {p n k : ℕ} (hn : 0 < n) (hk : 0 < k) :
    Tiles (toSet ⟨p, n + k⟩) [⟨p, n⟩, ⟨p + n, k⟩] := by
  refine ⟨by simp [hn, hk], by simp [Before], fun x => ?_⟩
  simp only [mem_cons, not_mem_nil, or_false, exists_eq_or_imp, exists_eq_left, mem_toSet]
  omega

/-- The extents of a tiling inside a set tile that set, if no other extent meets it. -/
theorem filter {α : Type*} {L : List α} {g : α → Extent} (h : Tiles R (L.map g)) {p : α → Bool}
    (hS : S ⊆ R) (hp : ∀ e ∈ L, p e = true → (g e).toSet ⊆ S)
    (hn : ∀ e ∈ L, p e = false → Disjoint (g e).toSet S) : Tiles S ((L.filter p).map g) := by
  have hsub : ((L.filter p).map g).Sublist (L.map g) := filter_sublist.map g
  refine ⟨fun e he => h.pos e (hsub.subset he), h.ordered.sublist hsub, fun x => ?_⟩
  constructor
  · intro hx
    obtain ⟨_, he, hxe⟩ := (h.cover x).mp (hS hx)
    obtain ⟨e, heL, rfl⟩ := mem_map.mp he
    refine ⟨g e, mem_map_of_mem (mem_filter.mpr ⟨heL, ?_⟩), hxe⟩
    by_contra hpe
    exact Set.disjoint_left.mp (hn e heL (by simpa using hpe)) hxe hx
  · rintro ⟨_, he, hxe⟩
    obtain ⟨e, heL, rfl⟩ := mem_map.mp he
    obtain ⟨heL, hpe⟩ := mem_filter.mp heL
    exact hp e heL hpe hxe

end Tiles

end Charmos.Tiling
