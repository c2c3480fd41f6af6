import Charmos.Mem.BootBitmap
import Charmos.Mem.Buddy.Core

/-!
# Handing the boot memory over to the buddy allocator

`buddy_add_entry` cuts a usable entry of the memory map into the largest aligned blocks and lists
those that have no page in use (`mem/buddy/init.c`). A block with one page in use is left out as a
whole, and its other pages are lost; `buddyAddEntry_handedOver_iff` says when there are none.
-/

namespace Charmos.Mem

open DyadicBlock BootBitmap Function List

/-- `struct limine_memmap_entry`, with the flag for `type == LIMINE_MEMMAP_USABLE`. -/
structure MemmapEntry where
  base : ℕ
  length : ℕ
  usable : Bool

def alignDown (x : ℕ) : ℕ := x / 4096 * 4096

def alignUp (x : ℕ) : ℕ := alignDown (x + 4095)

def pfnUsableFromMemmap (memmap : List MemmapEntry) (pfn : ℕ) : Bool :=
  memmap.any fun e => e.usable && decide (alignDown e.base ≤ pfn * 4096) &&
    decide (pfn * 4096 < alignUp (e.base + e.length))

def isBlockFree (b : Bitmap) (memmap : List MemmapEntry) (pfn order : ℕ) : Bool :=
  (List.range (2 ^ order)).all fun i =>
    if pfn + i < pages then !testBit b (pfn + i) else pfnUsableFromMemmap memmap (pfn + i)

/-- The inner loop, which lowers the order until the start is aligned to it. -/
def alignedOrder (start order : ℕ) : ℕ := Nat.findGreatest (Aligned start) order

/-- The stores to the first page of a block and `buddy_add_to_free_area`. -/
def addBlock (farea : ℕ → List ℕ) (order pfn : ℕ) : ℕ → List ℕ :=
  update farea order (farea order ++ [pfn])

/-- The outer loop. A free list is the list of its pages from head to tail; link 0 ends a chain, and
page 0, if it is usable, is the first page of the memory map and so the head of its list. -/
def addBlocks (b : Bitmap) (memmap : List MemmapEntry) :
    ℕ → ℕ → ℕ → (ℕ → List ℕ) → ℕ → List ℕ
  | 0, _, _, farea => farea
  | fuel + 1, start, size, farea =>
    if size = 0 then farea
    else
      let order := alignedOrder start (min (Nat.log2 size) (buddyMaxOrder - 1))
      let blockSize := min (2 ^ order) size
      addBlocks b memmap fuel (start + blockSize) (size - blockSize)
        (if isBlockFree b memmap start order then addBlock farea order start else farea)

def MemmapEntry.regionStart (e : MemmapEntry) : ℕ := alignUp e.base / 4096

def MemmapEntry.regionSize (e : MemmapEntry) : ℕ :=
  (alignDown (e.base + e.length) - alignUp e.base) / 4096

/-- The page lies in the page-aligned entry. -/
def MemmapEntry.Has (e : MemmapEntry) (q : ℕ) : Prop :=
  e.regionStart ≤ q ∧ q < e.regionStart + e.regionSize

/-- `buddy_add_entry`. -/
def buddyAddEntry (b : Bitmap) (memmap : List MemmapEntry) (e : MemmapEntry)
    (farea : ℕ → List ℕ) : ℕ → List ℕ :=
  if e.usable then addBlocks b memmap e.regionSize e.regionStart e.regionSize farea else farea

/-- An aligned block of an order of the allocator that lies in `[start, start + size)`. -/
def Fits (start size : ℕ) (c : Block) : Prop :=
  c.2 < buddyMaxOrder ∧ Aligned c.1 c.2 ∧ start ≤ c.1 ∧ c.1 + 2 ^ c.2 ≤ start + size

/-- The number of listed blocks that a page belongs to. -/
def listed (farea : ℕ → List ℕ) (q : ℕ) : ℕ :=
  (gather buddyMaxOrder farea).countP fun c => decide (c.1 ≤ q) && decide (q < c.1 + 2 ^ c.2)

/-- After the call, the unused usable pages of the entry are in one listed block each, the others in
none, and the blocks that are new are aligned and inside the entry. -/
def HandedOver (b : Bitmap) (memmap : List MemmapEntry) (e : MemmapEntry)
    (farea : ℕ → List ℕ) : Prop :=
  (∀ q, e.Has q → listed (buddyAddEntry b memmap e farea) q =
    if testBit b q = false ∧ pfnUsableFromMemmap memmap q then 1 else 0) ∧
  ∀ p k, p ∈ buddyAddEntry b memmap e farea k →
    p ∈ farea k ∨ Fits e.regionStart e.regionSize (p, k)

variable {b : Bitmap} {memmap : List MemmapEntry} {start size q k fuel : ℕ} {c : Block}
  {farea : ℕ → List ℕ}

/-- The block that the outer loop takes next fits, and a block that fits and begins in it ends in
it. -/
theorem alignedOrder_fits (hs : size ≠ 0)
    (ho : k = alignedOrder start (min (Nat.log2 size) (buddyMaxOrder - 1))) :
    Fits start size (start, k) ∧
      ∀ c, Fits start size c → c.1 < start + 2 ^ k → c.1 + 2 ^ c.2 ≤ start + 2 ^ k := by
  have hle : k ≤ min (Nat.log2 size) (buddyMaxOrder - 1) := ho ▸ Nat.findGreatest_le _
  have hal : Aligned start k := by
    rw [ho]
    exact Nat.findGreatest_spec (Nat.zero_le _) (one_dvd start)
  have hb : buddyMaxOrder = 18 := rfl
  refine ⟨⟨by dsimp only; omega, hal, le_rfl, ?_⟩, fun c ⟨hc, hca, hcs, hce⟩ hlt => ?_⟩
  · exact Nat.add_le_add_left ((Nat.le_log2 hs).mp (by omega)) _
  by_cases hk : c.2 ≤ k
  · have := (covers_end hca hal hk ⟨hcs, hlt⟩ (x := c.1 + (2 ^ c.2 - 1))
      ⟨by omega, by have := Nat.two_pow_pos c.2; omega⟩).2
    omega
  -- A larger block begins at the same page, which is then aligned to its order.
  have hst : start = c.1 := le_antisymm hcs
    (covers_of_not_apart hal hca (by omega) (by
      have := Nat.two_pow_pos c.2
      simp only [Apart]; omega)).1
  have hlog : c.2 ≤ Nat.log2 size := (Nat.le_log2 hs).mpr (by omega)
  refine absurd ?_ hk
  rw [ho]
  exact Nat.le_findGreatest (by omega) (hst ▸ hca)

theorem listed_addBlock (hk : k < buddyMaxOrder) (farea : ℕ → List ℕ) (p q : ℕ) :
    listed (addBlock farea k p) q =
      listed farea q + if p ≤ q ∧ q < p + 2 ^ k then 1 else 0 := by
  have h := gather_perm hk (addBlock farea k p) (p := p) (l := farea k)
    (by rw [addBlock, update_self]; exact perm_append_singleton p (farea k))
  rw [addBlock, update_idem, update_eq_self] at h
  simp [listed, addBlock, h.countP_eq, countP_cons]

theorem mem_addBlock {p j x : ℕ} (h : x ∈ addBlock farea k p j) : x ∈ farea j ∨ x = p ∧ j = k := by
  rcases eq_or_ne j k with rfl | hj
  · simpa [addBlock] using h
  · rw [addBlock, update_of_ne hj] at h
    exact Or.inl h

/-- A page of the region is in one block of the cut, which contains every block that fits and
contains the page, and is listed with it; the lists of other pages do not change. -/
theorem addBlocks_listed (hf : size ≤ fuel) :
    (q < start → listed (addBlocks b memmap fuel start size farea) q = listed farea q) ∧
    (start ≤ q → q < start + size → ∃ c, Fits start size c ∧ c.Covers q ∧
      (∀ d, Fits start size d → d.Covers q → ∀ x, d.Covers x → c.Covers x) ∧
      listed (addBlocks b memmap fuel start size farea) q =
        listed farea q + if isBlockFree b memmap c.1 c.2 then 1 else 0) ∧
    ∀ p k, p ∈ addBlocks b memmap fuel start size farea k →
      p ∈ farea k ∨ Fits start size (p, k) := by
  induction fuel generalizing start size farea with
  | zero =>
    obtain rfl : size = 0 := by omega
    exact ⟨fun _ => rfl, fun _ _ => by omega, fun _ _ h => Or.inl h⟩
  | succ fuel ih =>
    by_cases hs : size = 0
    · simp only [addBlocks, hs, if_true]
      exact ⟨fun _ => trivial, fun _ _ => by omega, fun _ _ h => Or.inl h⟩
    simp only [addBlocks, hs, if_false]
    generalize ho : alignedOrder start (min (Nat.log2 size) (buddyMaxOrder - 1)) = k
    obtain ⟨hfit, hin⟩ := alignedOrder_fits hs ho.symm
    have hk : k < buddyMaxOrder := hfit.1
    have hend : start + 2 ^ k ≤ start + size := hfit.2.2.2
    have h2 := Nat.two_pow_pos k
    rw [min_eq_left (by omega)]
    set next := if isBlockFree b memmap start k then addBlock farea k start else farea with hnext
    have hlisted : listed next q = listed farea q +
        if (start ≤ q ∧ q < start + 2 ^ k) ∧ isBlockFree b memmap start k then 1 else 0 := by
      by_cases hfree : isBlockFree b memmap start k <;> simp [hnext, hfree, listed_addBlock hk]
    obtain ⟨hbefore, hpage, hmem⟩ := @ih (start + 2 ^ k) (size - 2 ^ k) next (by omega)
    refine ⟨fun hq => ?_, fun hq hq' => ?_, fun p j hp => ?_⟩
    · rw [hbefore (by omega), hlisted, if_neg (by omega), add_zero]
    · by_cases hlt : q < start + 2 ^ k
      · refine ⟨(start, k), hfit, ⟨hq, hlt⟩, fun d hd hdq x hx => ?_, ?_⟩
        · exact ⟨hd.2.2.1.trans hx.1, hx.2.trans_le (hin d hd (hdq.1.trans_lt hlt))⟩
        · simp [hbefore hlt, hlisted, hq, hlt]
      obtain ⟨c, ⟨hco, hca, hcs, hce⟩, hcq, hmax, hl⟩ := hpage (by omega) (by omega)
      refine ⟨c, ⟨hco, hca, by omega, by omega⟩, hcq, fun d hd hdq => ?_, ?_⟩
      · have hds : start + 2 ^ k ≤ d.1 := by
          by_contra hd'
          have := hin d hd (by omega)
          have := hdq.2
          omega
        exact hmax d ⟨hd.1, hd.2.1, hds, by have := hd.2.2.2; omega⟩ hdq
      · rw [hl, hlisted, if_neg (by omega), add_zero]
    · rcases hmem p j hp with hp | ⟨h1, h2, h3, h4⟩
      · rw [hnext] at hp
        split_ifs at hp
        · exact (mem_addBlock hp).imp_right fun ⟨he, hj⟩ => by rwa [he, hj]
        · exact Or.inl hp
      · exact Or.inr ⟨h1, h2, by omega, by omega⟩

theorem isBlockFree_iff (h : ∀ x, c.Covers x → pfnUsableFromMemmap memmap x = true) :
    isBlockFree b memmap c.1 c.2 = true ↔ ∀ x, c.Covers x → testBit b x = false := by
  simp only [isBlockFree, all_eq_true, mem_range]
  constructor
  · rintro hall x ⟨h1, h2⟩
    have hx := hall (x - c.1) (by omega)
    rw [Nat.add_sub_cancel' h1] at hx
    by_cases hlt : x < pages
    · simpa [hlt] using hx
    · rw [pages, toBits] at hlt
      exact if_pos (by omega)
  · intro hall i hi
    have hc : c.Covers (c.1 + i) := ⟨by omega, by omega⟩
    split_ifs
    · simp [hall _ hc]
    · exact h _ hc

theorem pfnUsableFromMemmap_of_mem {e : MemmapEntry} (he : e ∈ memmap) (hu : e.usable = true)
    (hq : e.Has q) : pfnUsableFromMemmap memmap q = true := by
  simp only [MemmapEntry.Has, MemmapEntry.regionStart, MemmapEntry.regionSize, alignUp,
    alignDown] at hq
  refine List.any_eq_true.mpr ⟨e, he, ?_⟩
  simp only [alignUp, alignDown, hu, Bool.true_and, Bool.and_eq_true]
  exact ⟨decide_eq_true (by omega), decide_eq_true (by omega)⟩

/-- **The hand-over loses no memory** exactly when no aligned block inside a usable entry has a page
in use beside one that is not. The entry is one of the memory map, none of its pages is listed yet,
and an entry of another type does not overlap usable memory. -/
theorem buddyAddEntry_handedOver_iff (b : Bitmap) (memmap : List MemmapEntry) (e : MemmapEntry)
    (farea : ℕ → List ℕ) (he : e ∈ memmap) (hnew : ∀ q, e.Has q → listed farea q = 0 ∧
      (e.usable = false → pfnUsableFromMemmap memmap q = false)) :
    HandedOver b memmap e farea ↔
      (e.usable = true → ∀ c, Fits e.regionStart e.regionSize c → ∀ q q', c.Covers q →
        c.Covers q' → testBit b q = false → testBit b q' = false) := by
  cases hu : e.usable with
  | false =>
    simp only [buddyAddEntry, hu, HandedOver, Bool.false_eq_true, if_false, false_imp_iff, iff_true]
    refine ⟨fun q hq => ?_, fun _ _ h => Or.inl h⟩
    rw [(hnew q hq).1, (hnew q hq).2 hu, if_neg (by simp)]
  | true =>
    have hhas : ∀ c q, Fits e.regionStart e.regionSize c → c.Covers q → e.Has q :=
      fun c q hc hq => ⟨hc.2.2.1.trans hq.1, hq.2.trans_le hc.2.2.2⟩
    have husable := fun q => @pfnUsableFromMemmap_of_mem memmap q e he hu
    have hfree := fun c hc => @isBlockFree_iff b memmap c fun x hx => husable x (hhas c x hc hx)
    have hloop := fun q => @addBlocks_listed b memmap e.regionStart e.regionSize q _ farea le_rfl
    simp only [HandedOver, buddyAddEntry, hu, if_true, true_imp_iff]
    constructor
    · intro h d hd q q' hq hq' hbit
      have hin := hhas d q hd hq
      obtain ⟨c, hc, hcq, hmax, hl⟩ := (hloop q).2.1 hin.1 hin.2
      rw [h.1 q hin, (hnew q hin).1, if_pos ⟨hbit, husable q hin⟩] at hl
      refine (hfree c hc).mp ?_ q' (hmax d hd hq q' hq')
      by_contra hn
      simp [hn] at hl
    · intro h
      refine ⟨fun q hin => ?_, (hloop 0).2.2⟩
      obtain ⟨c, hc, hcq, -, hl⟩ := (hloop q).2.1 hin.1 hin.2
      rw [hl, (hnew q hin).1, zero_add]
      congr 1
      rw [hfree c hc, eq_iff_iff]
      exact ⟨fun hall => ⟨hall q hcq, husable q hin⟩, fun hb x hx => h c hc q x hcq hx hb.1⟩

/-- An entry of the pages 2 and 3. -/
def twoPages : MemmapEntry := ⟨0x2000, 0x2000, true⟩

/-- Two unused pages are handed over. -/
theorem buddyAddEntry_handedOver_two : HandedOver (fun _ ↦ false) [twoPages] twoPages fun _ ↦ [] :=
  (buddyAddEntry_handedOver_iff _ _ _ _ (by simp) fun q _ => ⟨rfl, by simp [twoPages]⟩).mpr
    fun _ _ _ _ _ _ _ _ => by simp [testBit]

/-- Page 3 is in use, and page 2 is lost with it. -/
theorem buddyAddEntry_loses_page : ¬ HandedOver (· == 3) [twoPages] twoPages fun _ => [] := by
  intro h
  have h2 := h.1 2 ⟨by decide, by decide⟩
  revert h2
  decide +kernel

end Charmos.Mem
