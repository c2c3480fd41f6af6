import Mathlib

/-!
# Reallocation

`vrealloc_full` keeps the allocation when both sizes have the same index. But `slab_size_to_index`
gives -1 for every size above the largest class, so memory from pages is never made larger, and the
caller may write past its end (`vrealloc_too_short`). The address of new memory and what it holds
are an argument of the call.
-/

namespace Charmos.Slab

open Function

/-- The loop of `slab_size_to_index`; `sizes` is `slab_global.class_sizes`. -/
def searchLoop (sizes : List ℕ) (size : ℕ) : (fuel lo hi : ℕ) → ℕ
  | 0, lo, _ => lo
  | fuel + 1, lo, hi =>
    if lo < hi then
      let mid := lo + (hi - lo) / 2
      if size ≤ sizes.getD mid 0 then searchLoop sizes size fuel lo mid
      else searchLoop sizes size fuel (mid + 1) hi
    else lo

/-- `slab_size_to_index`, with none for -1. -/
def slabSizeToIndex (sizes : List ℕ) (size : ℕ) : Option ℕ :=
  let lo := searchLoop sizes size sizes.length 0 sizes.length
  if sizes.length ≤ lo then none else some lo

/-- An object of a size class, or pages behind a `struct slab_page_hdr` of 24 bytes. -/
inductive Backing
  | slab (idx : ℕ)
  | pages (n : ℕ)

def vsize (sizes : List ℕ) : Backing → ℕ
  | .slab idx => sizes.getD idx 0
  | .pages n => (n * 4096 + (2 ^ 64 - 24)) % 2 ^ 64

structure Allocation where
  backing : Backing
  bytes : ℕ → UInt8

/-- The live allocations by their address. -/
abbrev Heap := ℕ → Option Allocation

/-- `valloc_pages_raw`. No pages, and more than the 8 TiB of its range, are refused by `vas_alloc`;
the field `pages` of the header has 31 bits. -/
def vallocPagesRaw (size : ℕ) : Option Backing :=
  let totalSize := (size + 24) % 2 ^ 64
  let pages := totalSize / 4096 + if totalSize % 4096 ≠ 0 then 1 else 0
  let bytes := pages * 4096 % 2 ^ 64
  if bytes = 0 ∨ 2 ^ 43 < bytes then none
  else some (.pages (pages % 2 ^ 31))

/-- `valloc_full`: what memory of this size is made of. -/
def vallocFull (sizes : List ℕ) (size : ℕ) : Option Backing :=
  match slabSizeToIndex sizes size with
  | some idx => some (.slab idx)
  | none => vallocPagesRaw size

/-- `vrealloc_full` of a live allocation. -/
def vreallocFull (sizes : List ℕ) (heap : Heap) (ptr : ℕ) (a : Allocation) (size : ℕ)
    (got : Option (ℕ × (ℕ → UInt8))) : Option ℕ × Heap :=
  if size = 0 then (none, update heap ptr none)
  else
    let old := vsize sizes a.backing
    if slabSizeToIndex sizes old = slabSizeToIndex sizes size then (some ptr, heap)
    else
      match got, vallocFull sizes size with
      | some (newPtr, fresh), some b =>
        let toCopy := min old size
        let bytes k := if k < toCopy then a.bytes k else fresh k
        (some newPtr, update (update heap newPtr (some ⟨b, bytes⟩)) ptr none)
      | _, _ => (none, heap)

/-- Without memory nothing happens. Otherwise the result is large enough and holds the old bytes,
and the old allocation is free if it is not the result. -/
def Reallocates (sizes : List ℕ) (ptr : ℕ) (a : Allocation) (size : ℕ) :
    Option ℕ × Heap → Prop
  | (none, heap) => heap ptr = some a
  | (some newPtr, heap) => (heap ptr = none ↔ newPtr ≠ ptr) ∧ ∃ b, heap newPtr = some b ∧
      size ≤ vsize sizes b.backing ∧ ∀ k < min (vsize sizes a.backing) size, b.bytes k = a.bytes k

/-- A page is asked to become two pages, and the caller gets the page. -/
theorem vrealloc_too_short : ∃ sizes heap ptr a size got, heap ptr = some a ∧ 1 ≤ size ∧
    ¬ Reallocates sizes ptr a size (vreallocFull sizes heap ptr a size got) := by
  refine ⟨[8, 16, 32, 64, 96, 128, 192, 256, 512, 1024],
    update (fun _ => none) 4120 (some ⟨.pages 1, 0⟩), 4120, _, 8000, none, rfl, by decide, ?_⟩
  rintro ⟨-, b, ⟨⟩, hsize, -⟩
  exact absurd hsize (by decide)

variable {sizes : List ℕ} {size fuel lo hi i : ℕ}

/-- The search ends at a class that is large enough, or at the end. -/
theorem le_searchLoop (hfuel : hi ≤ lo + fuel) (hlo : lo ≤ hi)
    (h : hi < sizes.length → size ≤ sizes.getD hi 0) :
    let r := searchLoop sizes size fuel lo hi
    r < sizes.length → size ≤ sizes.getD r 0 := by
  induction fuel generalizing lo hi with
  | zero =>
    obtain rfl : hi = lo := by omega
    exact h
  | succ fuel ih =>
    simp only [searchLoop]
    split_ifs with hlt hle
    · exact ih (by omega) (by omega) fun _ => hle
    · exact ih (by omega) (by omega) h
    · obtain rfl : hi = lo := by omega
      exact h

theorem size_le_class (h : slabSizeToIndex sizes size = some i) : size ≤ sizes.getD i 0 := by
  obtain ⟨hlt, hi⟩ := Option.ite_none_left_eq_some.mp h
  obtain rfl := Option.some.inj hi
  exact le_searchLoop (by simp) (Nat.zero_le _) (by simp) (not_le.mp hlt)

/-- New memory is large enough unless the size of pages wraps. -/
theorem size_le_vallocFull_iff (hword : size < 2 ^ 64) :
    (∀ b ∈ vallocFull sizes size, size ≤ vsize sizes b) ↔
      (slabSizeToIndex sizes size = none → size + 24 ≤ 2 ^ 64) := by
  unfold vallocFull
  cases hidx : slabSizeToIndex sizes size with
  | some i => simpa [vsize] using size_le_class hidx
  | none =>
    simp only [vallocPagesRaw, forall_const]
    split_ifs <;> simp [vsize] <;> omega

/-- Memory that is kept must not have to grow, and the header must not make the size of new pages
wrap. -/
theorem vrealloc_iff {heap : Heap} {ptr : ℕ} {a : Allocation} {got : Option (ℕ × (ℕ → UInt8))}
    (hlive : heap ptr = some a) (hfresh : ∀ x ∈ got, heap x.1 = none) (hpos : 1 ≤ size)
    (hword : size < 2 ^ 64) :
    Reallocates sizes ptr a size (vreallocFull sizes heap ptr a size got) ↔
      if slabSizeToIndex sizes (vsize sizes a.backing) = slabSizeToIndex sizes size then
        size ≤ vsize sizes a.backing
      else got ≠ none → slabSizeToIndex sizes size = none → size + 24 ≤ 2 ^ 64 := by
  simp only [vreallocFull, if_neg (Nat.ne_of_gt hpos)]
  split_ifs with hidx
  · simp [Reallocates, hlive]
  rw [← size_le_vallocFull_iff hword]
  rcases got with - | ⟨newPtr, fresh⟩
  · exact iff_of_true hlive (by simp)
  have hnew : newPtr ≠ ptr := by
    rintro rfl
    simp [hlive] at hfresh
  cases hb : vallocFull sizes size with
  | none => exact iff_of_true hlive (by simp)
  | some b => simp +contextual [Reallocates, hnew]

/-- An object moves from one size class to the next. -/
theorem vrealloc_iff_moved : let a : Allocation := ⟨.slab 0, 7⟩
    let r := vreallocFull [8, 16] (update (fun _ => none) 8 (some a)) 8 a 12 (some (64, 0))
    r.1 = some 64 ∧ Reallocates [8, 16] 8 a 12 r :=
  ⟨rfl, (vrealloc_iff rfl (by simp) (by decide) (by decide)).mpr (by decide)⟩

end Charmos.Slab
