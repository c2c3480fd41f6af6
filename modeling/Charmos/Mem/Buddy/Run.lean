import Charmos.Mem.Buddy.Free
import Mathlib.Logic.Relation
import Mathlib.Tactic.IntervalCases

/-!
# Runs of the buddy allocator

A run is any sequence of allocations and of frees of what was allocated and not yet freed, over
one array of free areas and the frames `1, …, total - 1`. `BuddySound` collects what should hold
between the calls: the free lists are doubly linked and counted, listed blocks are aligned and
carry their tag, flag and order, a page that looks free heads a listed block, free and
outstanding blocks are pairwise apart, no page is lost, and buddies are coalesced.

All of it survives every allocation and every free that merges at most once and then with the
buddy below (`buddyRun_sound`). A free that absorbs a free buddy above it leaves the word of the
absorbed half flagged free (`buddyRun_stale`).
-/

namespace Charmos.Mem

open DyadicBlock Relation List

/-- The allocator together with the outstanding allocations, as pairs of address and count. -/
structure Ledger where
  buddy : BuddyState
  live : List (ℕ × ℕ)

/-- The block behind an outstanding allocation. -/
def liveBlock (a : ℕ × ℕ) : Block := (pageToPfn a.1, Nat.clog 2 a.2)

/-- One call on the free areas, given the bound `total` that frees are passed. -/
inductive BuddyStep (total : ℕ) : Ledger → Ledger → Prop
  | alloc {l : Ledger} {count addr : ℕ} {s' : BuddyState}
      (h : buddyAllocPages l.buddy count = .ok (addr, s')) :
      BuddyStep total l ⟨s', (addr, count) :: l.live⟩
  | free {l : Ledger} {a : ℕ × ℕ} {s' : BuddyState} (ha : a ∈ l.live)
      (h : buddyFreePages l.buddy a.1 a.2 total = .ok s') :
      BuddyStep total l ⟨s', l.live.erase a⟩

/-- A call whose free, if it is one, does not merge, or merges once with the buddy below. -/
inductive CleanStep (total : ℕ) : Ledger → Ledger → Prop
  | alloc {l : Ledger} {count addr : ℕ} {s' : BuddyState}
      (h : buddyAllocPages l.buddy count = .ok (addr, s')) :
      CleanStep total l ⟨s', (addr, count) :: l.live⟩
  | free {l : Ledger} {a : ℕ × ℕ} {s' : BuddyState} (ha : a ∈ l.live)
      (hclean : CleanFree l.buddy.mem total (pageToPfn a.1) (Nat.clog 2 a.2))
      (h : buddyFreePages l.buddy a.1 a.2 total = .ok s') :
      CleanStep total l ⟨s', l.live.erase a⟩

/-- What holds of the free areas between calls, `L k` being the blocks on `free_area[k]` and
`pages` the number of pages in free blocks and outstanding allocations together. -/
structure BuddySound (total pages : ℕ) (l : Ledger) (L : ℕ → List ℕ) : Prop where
  /-- The bound is that of the page array, whose frame numbers fit the link field. -/
  bound : total ≤ l.buddy.mem.lastPfn ∧ l.buddy.mem.lastPfn ≤ 2 ^ 52
  /-- Heads, tails, links in both directions and `nr_free` agree. -/
  linked : ∀ k < buddyMaxOrder, FreeList l.buddy.mem (l.buddy.area k) (L k)
  /-- Listed blocks lie in `1, …, total - 1`, are aligned, tagged, free and of their order. -/
  listed : ∀ k < buddyMaxOrder, ∀ p ∈ L k, 0 < p ∧ p + 2 ^ k ≤ total ∧ Aligned p k ∧
    pageGetTag l.buddy.mem p = PageTag.buddy.code ∧ buddyPageIsFree l.buddy.mem p = true ∧
    buddyPageGetOrder l.buddy.mem p = k
  /-- Only the heads of listed blocks look free. -/
  looksFree : ∀ p < total, buddyPagePfnFree l.buddy.mem p = true → ∃ k < buddyMaxOrder, p ∈ L k
  /-- Free blocks are apart from each other and from every outstanding allocation. -/
  apart : (gather buddyMaxOrder L ++ l.live.map liveBlock).Pairwise Block.Apart
  /-- No page is lost or gained. -/
  conserved : size (gather buddyMaxOrder L) + size (l.live.map liveBlock) = pages
  /-- No two buddies are both free. -/
  coalesced : Coalesced L

/-- The running form of the invariant. -/
structure LedgerInv (strict : Prop) (total : ℕ) (M : Set ℕ) (l : Ledger) (L : ℕ → List ℕ) :
    Prop where
  inv : BuddyInv strict 0 total M l.buddy L (l.live.map liveBlock) []
  live : ∀ a ∈ l.live, 0 < a.2 ∧ a.1 = pfnToPage (pageToPfn a.1) ∧
    l.buddy.mem.get (pageToPfn a.1) .tag = PageTag.none.code
  coalesced : Coalesced L

variable {strict : Prop} {total pages : ℕ} {M : Set ℕ} {l l' : Ledger} {L : ℕ → List ℕ}

theorem BuddySound.ledgerInv (h : BuddySound total pages l L) (hl : l.live = []) :
    LedgerInv strict total (covered (gather buddyMaxOrder L)) l L := by
  have hall : allBlocks L (l.live.map liveBlock) [] = gather buddyMaxOrder L := by
    simp [allBlocks, hl]
  have hmem : ∀ b ∈ gather buddyMaxOrder L, b.2 < buddyMaxOrder ∧ 0 < b.1 ∧
      b.1 + 2 ^ b.2 ≤ total ∧ Aligned b.1 b.2 := by
    intro b hb
    obtain ⟨hb2, hbL⟩ := mem_gather.mp hb
    obtain ⟨h1, h2, h3, -⟩ := h.listed b.2 hb2 b.1 hbL
    exact ⟨hb2, h1, h2, h3⟩
  refine ⟨⟨h.bound.1, h.bound.2, h.linked, fun k hk p hp => ?_, by simp [hl], ?_, ?_, ?_⟩,
    by simp [hl], h.coalesced⟩
  · obtain ⟨-, -, -, h4, h5, h6⟩ := h.listed k hk p hp
    have hflag := (buddyPageIsFree_iff.mp h5).2
    have hlt : l.buddy.mem.get p .isFree < 2 := BitField.read_lt _ _ _
    exact ⟨h4, by omega, h6⟩
  · rw [hall]
    exact ⟨fun b hb => (hmem b hb).1, fun b hb => (hmem b hb).2.1, fun b _ => Nat.zero_le _,
      fun b hb => (hmem b hb).2.2.1, fun b hb => (hmem b hb).2.2.2, by simpa [hl] using h.apart⟩
  · intro q _ hq hf
    have hlast := h.bound.1
    obtain ⟨k, hk, hqL⟩ := h.looksFree q hq (by rw [buddyPagePfnFree, if_neg (by omega), hf])
    exact ⟨(q, k), BuddyInv.mem_list hk hqL, covers_start _ _, fun _ => rfl⟩
  · rw [hall]

theorem LedgerInv.sound (h : LedgerInv True total M l L) : BuddySound total M.ncard l L := by
  refine ⟨⟨h.inv.hi_le, h.inv.last_le⟩, h.inv.list, fun k hk p hp => ?_, fun p hp hf => ?_,
    h.inv.packed.apart, ?_, h.coalesced⟩
  · have hmem : (p, k) ∈ allBlocks L (l.live.map liveBlock) [] := BuddyInv.mem_list hk hp
    obtain ⟨h1, h2, h3⟩ := h.inv.free k hk p hp
    exact ⟨h.inv.packed.pos _ hmem, h.inv.packed.end_le _ hmem, h.inv.packed.aligned _ hmem, h1,
      buddyPageIsFree_iff.mpr ⟨h1, by omega⟩, h3⟩
  · have hlast := h.inv.hi_le
    rw [buddyPagePfnFree, if_neg (by omega)] at hf
    obtain ⟨b, hb, -, hst⟩ := h.inv.stale p (Nat.zero_le _) hp hf
    have hbp : b.1 = p := hst trivial
    rcases mem_allBlocks.mp hb with ⟨hb2, hbL⟩ | hbh | hbo
    · exact ⟨b.2, hb2, hbp ▸ hbL⟩
    · cases hbh
    · have htag := (h.inv.taken b hbo).1
      rw [hbp] at htag
      exact absurd (buddyPageIsFree_iff.mp hf).1 htag
  · have hsize := h.inv.packed.ncard_covered
    rw [h.inv.cover, allBlocks, nil_append, size_append] at hsize
    exact hsize.symm

/-- A frame below the bound is met by the merging loop only below the bound. -/
theorem mergeInside_whole (m : PageMem) (total fuel p k : ℕ) :
    MergeInside m 0 total total fuel p k := by
  induction fuel generalizing p k with
  | zero => trivial
  | succ fuel ih => exact fun hlt => ⟨⟨Nat.zero_le _, hlt⟩, fun _ _ => ih _ _⟩

/-- The word of an outstanding block is outside the scope of a call. -/
theorem get_of_live {m m' : PageMem} {out : List Block} (ht : Touches m m' (Scope 0 total out))
    {b : Block} (hb : b ∈ out) (f : MetaField) : m'.get b.1 f = m.get b.1 f :=
  ht.get_eq (fun hs => hs.2.2 b hb (covers_start _ _)) f

/-- An allocation keeps the invariant. -/
theorem LedgerInv.alloc (h : LedgerInv strict total M l L) {count addr : ℕ} {s' : BuddyState}
    (hres : buddyAllocPages l.buddy count = .ok (addr, s')) :
    ∃ L', LedgerInv strict total M ⟨s', (addr, count) :: l.live⟩ L' := by
  obtain ⟨p, L', rfl, hinv, htag, hco, ht⟩ := buddyAllocPages_spec h.inv hres
  have hcount : 0 < count := by
    by_contra h0
    rw [buddyAllocPages, if_pos (by omega)] at hres
    cases hres
  refine ⟨L', ⟨?_, ?_, hco h.coalesced⟩⟩
  · simpa [liveBlock] using hinv
  intro a ha
  rcases mem_cons.mp ha with rfl | ha
  · simpa using And.intro hcount htag
  · obtain ⟨h1, h2, h3⟩ := h.live a ha
    exact ⟨h1, h2, (get_of_live ht (mem_map_of_mem ha) .tag).trans h3⟩

/-- A free of an outstanding allocation returns and keeps the invariant. -/
theorem LedgerInv.free (h : LedgerInv strict total M l L) {a : ℕ × ℕ} (ha : a ∈ l.live)
    (hclean : strict → CleanFree l.buddy.mem total (pageToPfn a.1) (Nat.clog 2 a.2)) :
    ∃ s' L', buddyFreePages l.buddy a.1 a.2 total = .ok s' ∧
      LedgerInv strict total M ⟨s', l.live.erase a⟩ L' := by
  obtain ⟨h1, h2, h3⟩ := h.live a ha
  have hperm : (l.live.map liveBlock).Perm (liveBlock a :: (l.live.erase a).map liveBlock) :=
    (perm_cons_erase ha).map liveBlock
  have hinv : BuddyInv strict 0 total M l.buddy L
      (liveBlock a :: (l.live.erase a).map liveBlock) [] :=
    h.inv.perm (fun b hb => hperm.mem_iff.mpr hb) hperm
  have hreg := hinv.covers_region (b := liveBlock a) (BuddyInv.mem_out (by simp)) (covers_start _ _)
  obtain ⟨s', L', hres, hinv', hco, ht, -⟩ := buddyFreePages_spec h1 hinv h3 hreg.2
    (mergeInside_whole _ _ _ _ _) hclean
  rw [← h2] at hres
  refine ⟨s', L', hres, ⟨hinv', fun c hc => ?_, hco le_rfl h.coalesced⟩⟩
  obtain ⟨h4, h5, h6⟩ := h.live c (mem_of_mem_erase hc)
  exact ⟨h4, h5, (get_of_live ht (mem_map_of_mem hc) .tag).trans h6⟩

/-- Without any condition on the frees, every run keeps the links, the blocks apart, the pages and
the coalescing; only the metadata of absorbed halves may go stale. -/
theorem buddyRun_ledgerInv {l₀ : Ledger} {L₀ : ℕ → List ℕ} (h₀ : LedgerInv False total M l₀ L₀)
    (hrun : ReflTransGen (BuddyStep total) l₀ l) : ∃ L, LedgerInv False total M l L := by
  induction hrun with
  | refl => exact ⟨L₀, h₀⟩
  | tail _ hstep ih =>
    obtain ⟨L, hL⟩ := ih
    cases hstep with
    | alloc h => exact hL.alloc h
    | free ha h =>
      obtain ⟨s', L', hres, hL'⟩ := hL.free ha False.elim
      rw [h] at hres
      cases hres
      exact ⟨L', hL'⟩

/-- **The buddy invariant over runs.** From any sound state without outstanding allocations, every
run of allocations and of frees that merge at most once and then with the buddy below ends in a
sound state with the same number of pages. -/
theorem buddyRun_sound {l₀ : Ledger} {L₀ : ℕ → List ℕ} (h₀ : BuddySound total pages l₀ L₀)
    (hl : l₀.live = []) (hrun : ReflTransGen (CleanStep total) l₀ l) :
    ∃ L, BuddySound total pages l L := by
  have h₁ : LedgerInv True total (covered (gather buddyMaxOrder L₀)) l₀ L₀ := h₀.ledgerInv hl
  have hpages : (covered (gather buddyMaxOrder L₀)).ncard = pages := by
    have hsize := h₁.inv.packed.ncard_covered
    rw [h₁.inv.cover, allBlocks, nil_append, size_append] at hsize
    exact hsize.trans h₀.conserved
  have hinv : ∃ L, LedgerInv True total (covered (gather buddyMaxOrder L₀)) l L := by
    induction hrun with
    | refl => exact ⟨L₀, h₁⟩
    | tail _ hstep ih =>
      obtain ⟨L, hL⟩ := ih
      cases hstep with
      | alloc h => exact hL.alloc h
      | free ha hclean h =>
        obtain ⟨s', L', hres, hL'⟩ := hL.free ha fun _ => hclean
        rw [h] at hres
        cases hres
        exact ⟨L', hL'⟩
  obtain ⟨L, hL⟩ := hinv
  exact ⟨L, hpages ▸ hL.sound⟩

/-! ### A free that leaves a stale page behind -/

/-- Four frames with one free block, of order `1` at frame `2`. -/
def pairState : BuddyState where
  mem := ⟨fun p => if p = 2 then 41#64 else 0#64, fun _ => none, 4⟩
  area k := if k = 1 then ⟨some 2, some 2, 1⟩ else ⟨none, none, 0⟩

/-- The lists of `pairState`. -/
def pairLists (k : ℕ) : List ℕ := if k = 1 then [2] else []

theorem pairState_sound : BuddySound 4 2 ⟨pairState, []⟩ pairLists where
  bound := by decide
  linked k hk := by
    by_cases h1 : k = 1
    · subst h1
      exact ⟨⟨rfl, rfl, ⟨rfl, rfl, trivial⟩, by decide⟩, rfl, by decide⟩
    · simp only [pairState, pairLists, if_neg h1]
      exact ⟨DoublyLinked.DList.nil, rfl, by simp⟩
  listed k hk p hp := by
    by_cases h1 : k = 1
    · subst h1
      have hp2 : p = 2 := by simpa [pairLists] using hp
      subst hp2
      decide
    · simp [pairLists, h1] at hp
  looksFree p hp hf := by
    have hp2 : p = 2 := by
      interval_cases p <;> first | rfl | exact absurd hf (by decide)
    subst hp2
    exact ⟨1, by decide, by decide⟩
  apart := by
    have hg : gather buddyMaxOrder pairLists = [(2, 1)] := by decide
    simp [hg]
  conserved := by decide
  coalesced k hk p hp hs := by
    by_cases h1 : k = 1
    · subst h1
      have hp2 : p = 2 := by simpa [pairLists] using hp
      subst hp2
      exact absurd hs (by decide)
    · simp [pairLists, h1] at hp

/-- A state in which a page off every list looks free is not sound. -/
theorem not_sound_of_stale {q : ℕ} (hq : q < total) (hf : buddyPagePfnFree l.buddy.mem q = true)
    (hempty : (l.buddy.area (buddyPageGetOrder l.buddy.mem q)).nrFree = 0) :
    ¬ BuddySound total pages l L := by
  intro h
  obtain ⟨k, hk, hqL⟩ := h.looksFree q hq hf
  have hord := (h.listed k hk q hqL).2.2.2.2.2
  rw [hord, (h.linked k hk).nrFree_eq_zero_iff] at hempty
  rw [hempty] at hqL
  cases hqL

/-- Allocating and freeing one page of a pair leaves the word of the other page of the pair
flagged free, although the page is in the inside of the block joined again. -/
theorem buddyRun_stale :
    ¬ ∀ (total pages : ℕ) (l₀ l : Ledger) (L₀ : ℕ → List ℕ), BuddySound total pages l₀ L₀ →
      l₀.live = [] → ReflTransGen (BuddyStep total) l₀ l → ∃ L, BuddySound total pages l L := by
  intro hall
  obtain ⟨s₁, hs₁, s₂, hs₂, hfree, hempty⟩ : ∃ s₁, buddyAllocPages pairState 1 = .ok (8192, s₁) ∧
      ∃ s₂, buddyFreePages s₁ 8192 1 4 = .ok s₂ ∧ buddyPagePfnFree s₂.mem 3 = true ∧
        (s₂.area (buddyPageGetOrder s₂.mem 3)).nrFree = 0 :=
    ⟨_, rfl, _, rfl, rfl, rfl⟩
  have hrun : ReflTransGen (BuddyStep 4) ⟨pairState, []⟩ ⟨s₂, []⟩ := by
    have h1 : BuddyStep 4 ⟨pairState, []⟩ ⟨s₁, [(8192, 1)]⟩ := .alloc hs₁
    have h2 : BuddyStep 4 ⟨s₁, [(8192, 1)]⟩ ⟨s₂, [(8192, 1)].erase (8192, 1)⟩ :=
      .free (by simp) hs₂
    exact (ReflTransGen.single h1).tail h2
  obtain ⟨L, hL⟩ := hall 4 2 _ _ _ pairState_sound rfl hrun
  exact not_sound_of_stale (by decide) hfree hempty hL

theorem buddyRun_ledgerInv_pair : ∃ l L,
    LedgerInv False 4 (covered (gather buddyMaxOrder pairLists)) l L ∧ l.live = [(8192, 1)] := by
  obtain ⟨s₁, hs₁⟩ : ∃ s₁, buddyAllocPages pairState 1 = .ok (8192, s₁) := ⟨_, rfl⟩
  obtain ⟨L, hL⟩ := buddyRun_ledgerInv (pairState_sound.ledgerInv rfl) (.single (.alloc hs₁))
  exact ⟨_, L, hL, rfl⟩

/-- Two pages allocated one after the other and freed upper page first, from `pairState`, meet
the hypotheses of `buddyRun_sound`. -/
theorem buddyRun_sound_pair : ∃ l L, ReflTransGen (CleanStep 4) ⟨pairState, []⟩ l ∧
    l.live = [(8192, 1)] ∧ BuddySound 4 2 l L := by
  obtain ⟨s₁, hs₁, s₂, hs₂, hclean, s₃, hs₃⟩ :
      ∃ s₁, buddyAllocPages pairState 1 = .ok (8192, s₁) ∧
      ∃ s₂, buddyAllocPages s₁ 1 = .ok (12288, s₂) ∧
      CleanFree s₂.mem 4 (pageToPfn 12288) (Nat.clog 2 1) ∧
      ∃ s₃, buddyFreePages s₂ 12288 1 4 = .ok s₃ :=
    ⟨_, rfl, _, rfl, by rw [Nat.clog_one_right]; decide, _, rfl⟩
  have h1 : CleanStep 4 ⟨pairState, []⟩ ⟨s₁, [(8192, 1)]⟩ := .alloc hs₁
  have h2 : CleanStep 4 ⟨s₁, [(8192, 1)]⟩ ⟨s₂, [(12288, 1), (8192, 1)]⟩ := .alloc hs₂
  have h3 : CleanStep 4 ⟨s₂, [(12288, 1), (8192, 1)]⟩
      ⟨s₃, [(12288, 1), (8192, 1)].erase (12288, 1)⟩ := .free (by simp) hclean hs₃
  have hrun := ((ReflTransGen.single h1).tail h2).tail h3
  obtain ⟨L, hL⟩ := buddyRun_sound pairState_sound rfl hrun
  exact ⟨_, L, hrun, rfl, hL⟩

end Charmos.Mem
