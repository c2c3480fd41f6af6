import Charmos.Lib.BlockList
import Charmos.Mem.Buddy.FreeArea
import Mathlib.Data.Nat.Log

/-!
# The buddy allocator

`buddy_alloc_pages` finds the smallest non-empty order that fits, splits a block of that order
down to the one requested and hands out the lower half. `buddy_free_pages` puts a block back
and joins it with its buddy as long as the word of the buddy says that it heads a free block
of the same order (`mem/buddy/core.c`).

Both take the array of free areas as an argument, so the state is the page memory together
with one such array. A call that panics, fails an `enforce`, follows a null pointer or never
leaves a loop returns no state.
-/

namespace Charmos.Mem

open DyadicBlock Function

/-- `BUDDY_MAX_ORDER`. -/
def buddyMaxOrder : ℕ := 18

/-- The page memory and one array `struct buddy_free_area free_area[BUDDY_MAX_ORDER]`. -/
structure BuddyState where
  mem : PageMem
  area : ℕ → BuddyFreeArea

/-- `buddy_add_to_free_area`. -/
def buddyAddToFreeArea (s : BuddyState) (page k : ℕ) : Except Crash BuddyState := do
  pageAssertTag s.mem page .buddy
  let pushed := buddyFaPushTail s.mem (s.area k) page
  return ⟨buddyPageSetFree pushed.1 page true, update s.area k pushed.2⟩

/-- `buddy_remove_from_free_area`. -/
def buddyRemoveFromFreeArea (s : BuddyState) (k : ℕ) : Option ℕ × BuddyState :=
  match buddyFaPopHead s.mem (s.area k) with
  | (none, _, _) => (none, s)
  | (some page, m, a) => (some page, ⟨buddyPageSetFree m page false, update s.area k a⟩)

/-- The loop `while (size < count) { order++; size <<= 1; }` on 64-bit words. Once `size` has
been shifted out it stays `0`, and the loop never ends. -/
def orderLoop (count : ℕ) : ℕ → ℕ → ℕ → Except Crash ℕ
  | 0, _, _ => .error .diverges
  | fuel + 1, order, size =>
    if size < count then orderLoop count fuel (order + 1) ((size <<< 1) % 2 ^ 64) else .ok order

/-- The order of the smallest block of `count` pages, as both entry points compute it. -/
def blockOrder (count : ℕ) : Except Crash ℕ := orderLoop count 65 0 1

/-- The loop that skips empty orders, from `cur` on for at most the given number of orders. -/
def findOrder (area : ℕ → BuddyFreeArea) : ℕ → ℕ → ℕ
  | 0, cur => cur
  | fuel + 1, cur => if (area cur).nrFree = 0 then findOrder area fuel (cur + 1) else cur

/-- One round of the splitting loop: the first block of order `k + 1` becomes two blocks of
order `k`, the lower one first on the list. The flag is `false` on the early `return 0x0`. -/
def splitStep (s : BuddyState) (k : ℕ) : Except Crash (Bool × BuddyState) :=
  match buddyRemoveFromFreeArea s (k + 1) with
  | (none, s) => .ok (false, s)
  | (some page, s) => do
    pageAssertTag s.mem page .buddy
    -- `buddy_page_tag` tolerates a null page, the link store right after it does not.
    let buddy ← derefPage (pageForPfn s.mem (page + 2 ^ k))
    let m := buddyPageTag s.mem buddy
    let m := buddyPageSetNextPfn m buddy 0
    let m := buddyPageSetOrder m page k
    let m := buddyPageSetOrder m buddy k
    let s ← buddyAddToFreeArea ⟨m, s.area⟩ page k
    let s ← buddyAddToFreeArea s buddy k
    return (true, s)

/-- The loop `while (current_order > order)`, with `current_order = order + d`. -/
def splitLoop (order : ℕ) : ℕ → BuddyState → Except Crash (Bool × BuddyState)
  | 0, s => .ok (true, s)
  | d + 1, s => do
    match ← splitStep s (order + d) with
    | (false, s) => return (false, s)
    | (true, s) => splitLoop order d s

/-- The last part of `buddy_alloc_pages`: take the first block of the order and untag it. -/
def takeBlock (s : BuddyState) (order : ℕ) : Except Crash (ℕ × BuddyState) :=
  match buddyRemoveFromFreeArea s order with
  | (none, s) => .ok (0, s)
  | (some page, s) => do
    pageAssertTag s.mem page .buddy
    return (pfnToPage page, ⟨buddyPageUntag s.mem page, s.area⟩)

/-- `buddy_alloc_pages`, with the address returned and the state left behind. -/
def buddyAllocPages (s : BuddyState) (count : ℕ) : Except Crash (ℕ × BuddyState) := do
  if count = 0 then throw (.panic "Tried to allocate zero pages")
  let order ← blockOrder count
  if buddyMaxOrder ≤ order then
    throw (.panic "Attempted to allocate too many pages (outside max order)")
  let cur := findOrder s.area (buddyMaxOrder - order) order
  if buddyMaxOrder ≤ cur then
    throw (.panic "Attempted to allocate too many pages (outside max order)")
  match ← splitLoop order (cur - order) s with
  | (false, s) => return (0, s)
  | (true, s) => takeBlock s order

/-- The test of the merging loop on the buddy of the block of order `order` at `pfn`: inside the
bound, tagged, flagged free, and of the same order. -/
def canMerge (m : PageMem) (total pfn order : ℕ) : Bool :=
  decide (order < buddyMaxOrder - 1) && decide (sibling pfn order < total) &&
    buddyPageIsFree m (sibling pfn order) &&
    buddyPageGetOrder m (sibling pfn order) == order

/-- One round of the merging loop: the buddy leaves its free list and the lower half becomes
the block of the next order. The free flag of the buddy is left as it is. -/
def mergeStep (s : BuddyState) (pfn order : ℕ) : Except Crash BuddyState := do
  let buddy := sibling pfn order
  let removed := buddyFaRemove (buddyPageTag s.mem buddy) (s.area order) buddy
  let page ← derefPage (pageForPfn removed.1 (min pfn buddy))
  let m := buddyPageSetNextPfn removed.1 page 0
  let m := buddyPageSetOrder m page (order + 1)
  return ⟨buddyPageTag m page, update s.area order removed.2⟩

/-- The loop `while (order < BUDDY_MAX_ORDER - 1)`, run for at most the given number of rounds;
it returns the block it arrived at. -/
def mergeLoop (total : ℕ) : ℕ → BuddyState → ℕ → ℕ → Except Crash (ℕ × ℕ × BuddyState)
  | 0, s, pfn, order => .ok (pfn, order, s)
  | fuel + 1, s, pfn, order =>
    if total ≤ sibling pfn order then .ok (pfn, order, s)
    else do
      let buddy ← derefPage (pageForPfn s.mem (sibling pfn order))
      if !buddyPageIsFree s.mem buddy || buddyPageGetOrder s.mem buddy != order then
        return (pfn, order, s)
      mergeLoop total fuel (← mergeStep s pfn order) (min pfn (sibling pfn order)) (order + 1)

/-- The stores that `buddy_free_pages` makes to the first page of the block before the loop. -/
def markFreed (m : PageMem) (page order : ℕ) : PageMem :=
  buddyPageTag (buddyPageSetOrder (buddyPageSetNextPfn m page 0) page order) page

/-- `buddy_free_pages`. -/
def buddyFreePages (s : BuddyState) (addr count total : ℕ) : Except Crash BuddyState := do
  if addr = 0 ∨ count = 0 then return s
  let pfn := pageToPfn addr
  enforce (decide (pfn < total)) "pfn < total_pages"
  let order ← blockOrder count
  let page ← derefPage (pageForPfn s.mem pfn)
  pageAssertTag s.mem page .none
  let (pfn, order, s) ←
    mergeLoop total (buddyMaxOrder - 1 - order) ⟨markFreed s.mem page order, s.area⟩ pfn order
  buddyAddToFreeArea s pfn order

/-- The frames of the buddies whose page structs the merging loop looks at. -/
def mergeReads (total : ℕ) : ℕ → BuddyState → ℕ → ℕ → List ℕ
  | 0, _, _, _ => []
  | fuel + 1, s, pfn, order =>
    if total ≤ sibling pfn order then []
    else sibling pfn order ::
      if canMerge s.mem total pfn order then
        match mergeStep s pfn order with
        | .ok s => mergeReads total fuel s (min pfn (sibling pfn order)) (order + 1)
        | .error _ => []
      else []

/-- The frames whose page structs `buddy_free_pages` looks at. -/
def freeReads (s : BuddyState) (addr count total : ℕ) : List ℕ :=
  match blockOrder count with
  | .ok order => pageToPfn addr :: mergeReads total (buddyMaxOrder - 1 - order)
      ⟨markFreed s.mem (pageToPfn addr) order, s.area⟩ (pageToPfn addr) order
  | .error _ => []

/-! ### The order of a request -/

variable {count : ℕ}

theorem orderLoop_eq (fuel order : ℕ) (hc : count ≤ 2 ^ 63) (ho : order ≤ 63)
    (hf : 63 < fuel + order) (hlow : ∀ j < order, 2 ^ j < count) :
    orderLoop count fuel order (2 ^ order) = .ok (Nat.clog 2 count) := by
  induction fuel generalizing order with
  | zero => omega
  | succ fuel ih =>
    rw [orderLoop]
    split_ifs with hlt
    · have h63 : order < 63 := by
        by_contra hge
        rw [show order = 63 by omega] at hlt
        omega
      have hshift : (2 ^ order <<< 1) % 2 ^ 64 = 2 ^ (order + 1) := by
        rw [Nat.shiftLeft_eq, pow_one, ← pow_succ]
        exact Nat.mod_eq_of_lt (Nat.pow_lt_pow_right (by omega) (by omega))
      rw [hshift]
      refine ih (order + 1) (by omega) (by omega) fun j hj => ?_
      rcases Nat.lt_succ_iff_lt_or_eq.mp hj with hj | rfl
      · exact hlow j hj
      · exact hlt
    · have hle : Nat.clog 2 count ≤ order := (Nat.clog_le_iff_le_pow (by omega)).mpr (by omega)
      have hge : order ≤ Nat.clog 2 count := by
        by_contra hlt'
        have h1 := hlow (Nat.clog 2 count) (by omega)
        have h2 := Nat.le_pow_clog (b := 2) (by omega) count
        omega
      rw [le_antisymm hge hle]

/-- A request of `count` pages is for a block of order `⌈log₂ count⌉`, provided `count` is at
most `2 ^ 63`; for larger counts the loop does not end. -/
theorem blockOrder_eq (hc : count ≤ 2 ^ 63) : blockOrder count = .ok (Nat.clog 2 count) := by
  have h := orderLoop_eq 65 0 hc (by omega) (by omega) (by simp)
  rwa [pow_zero] at h

theorem orderLoop_diverges (fuel order : ℕ) (hc : 2 ^ 63 < count) :
    (∀ size, (size = 0 ∨ ∃ i ≤ 63, size = 2 ^ i) →
      orderLoop count fuel order size = .error .diverges) := by
  induction fuel generalizing order with
  | zero => intro size _; rfl
  | succ fuel ih =>
    intro size hsize
    have hlt : size < count := by
      rcases hsize with rfl | ⟨i, hi, rfl⟩
      · omega
      · have : 2 ^ i ≤ 2 ^ 63 := Nat.pow_le_pow_right (by omega) hi
        omega
    rw [orderLoop, if_pos hlt]
    refine ih (order + 1) _ ?_
    rcases hsize with rfl | ⟨i, hi, rfl⟩
    · exact Or.inl (by simp)
    rw [Nat.shiftLeft_eq, pow_one, ← pow_succ]
    rcases Nat.lt_or_ge i 63 with hi' | hi'
    · exact Or.inr ⟨i + 1, hi', Nat.mod_eq_of_lt (Nat.pow_lt_pow_right (by omega) (by omega))⟩
    · rw [show i = 63 by omega]
      exact Or.inl (by norm_num)

/-- The order loop ends exactly on the counts up to `2 ^ 63`. -/
theorem blockOrder_ok_iff {order : ℕ} :
    blockOrder count = .ok order ↔ count ≤ 2 ^ 63 ∧ order = Nat.clog 2 count := by
  constructor
  · intro h
    rcases Nat.lt_or_ge (2 ^ 63) count with hc | hc
    · rw [blockOrder, orderLoop_diverges 65 0 hc 1 (Or.inr ⟨0, by omega, rfl⟩)] at h
      cases h
    · rw [blockOrder_eq hc] at h
      exact ⟨hc, (Except.ok.inj h).symm⟩
  · rintro ⟨hc, rfl⟩
    exact blockOrder_eq hc

/-- `findOrder` stops at the first order whose list is not empty. -/
theorem findOrder_spec (area : ℕ → BuddyFreeArea) (fuel cur : ℕ) :
    cur ≤ findOrder area fuel cur ∧ findOrder area fuel cur ≤ cur + fuel ∧
      (∀ j, cur ≤ j → j < findOrder area fuel cur → (area j).nrFree = 0) ∧
      (findOrder area fuel cur < cur + fuel → (area (findOrder area fuel cur)).nrFree ≠ 0) := by
  induction fuel generalizing cur with
  | zero => exact ⟨le_rfl, le_rfl, fun j h1 h2 => by rw [findOrder] at h2; omega, fun h => by
      rw [findOrder] at h; omega⟩
  | succ fuel ih =>
    rw [findOrder]
    split_ifs with h0
    · obtain ⟨h1, h2, h3, h4⟩ := ih (cur + 1)
      refine ⟨by omega, by omega, fun j hj1 hj2 => ?_, fun h => h4 (by omega)⟩
      rcases eq_or_lt_of_le hj1 with rfl | hj1
      · exact h0
      · exact h3 j hj1 hj2
    · exact ⟨le_rfl, by omega, fun j h1 h2 => by omega, fun _ => h0⟩

end Charmos.Mem
