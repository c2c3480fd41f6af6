import Charmos.Mem.Domain.Conserve
import Mathlib

/-!
# Runs of the domain allocator

A run is any sequence of `domain_alloc`, `domain_free` and `domain_flush_free_queue` calls on any
cores, where clients free what they were given. In every run whose flushes have room, every managed
page stays in exactly one place (`domainRun_placedOnce`). A flush that moves on from a full
arena to another full one loses the page it holds (`domainRun_loses_page`).
-/

namespace Charmos.Mem

open DyadicBlock List Relation

/-- One call of the domain allocator. -/
inductive PageStep : DomainLedger → DomainLedger → Prop
  | alloc {l : DomainLedger} {core pages ret : ℕ} {flags : BitVec 32} {s' : Machine}
      (h : (domainAlloc core pages flags).run l.machine = .ok (ret, s')) :
      PageStep l ⟨s', if ret = 0 then l.live else (ret, pages) :: l.live⟩
  | free {l : DomainLedger} {core : ℕ} {a : ℕ × ℕ} {s' : Machine} (ha : a ∈ l.live)
      (h : (domainFree core a.1 a.2).run l.machine = .ok ((), s')) :
      PageStep l ⟨s', l.live.erase a⟩
  | flush {l : DomainLedger} {d : ℕ} {s' : Machine} (hd : d < l.machine.domainCount)
      (h : (domainFlushFreeQueue d).run l.machine = .ok ((), s')) :
      PageStep l ⟨s', l.live⟩

/-- A call whose flush, if it makes one, has room. -/
inductive RoomStep : DomainLedger → DomainLedger → Prop
  | alloc {l : DomainLedger} {core pages ret : ℕ} {flags : BitVec 32} {s' : Machine}
      (h : (domainAlloc core pages flags).run l.machine = .ok (ret, s')) :
      RoomStep l ⟨s', if ret = 0 then l.live else (ret, pages) :: l.live⟩
  | free {l : DomainLedger} {core : ℕ} {a : ℕ × ℕ} {s' : Machine} (ha : a ∈ l.live)
      (hroom : ∀ s₁, (freeToTarget core a.1 a.2).run l.machine = .ok ((), s₁) →
        FlushOk (l.machine.coreDomain core) s₁)
      (h : (domainFree core a.1 a.2).run l.machine = .ok ((), s')) :
      RoomStep l ⟨s', l.live.erase a⟩
  | flush {l : DomainLedger} {d : ℕ} {s' : Machine} (hd : d < l.machine.domainCount)
      (hroom : FlushOk d l.machine)
      (h : (domainFlushFreeQueue d).run l.machine = .ok ((), s')) :
      RoomStep l ⟨s', l.live⟩

/-- The pages of every domain are on its shelf, with what the clients hold in hands. -/
structure Conserved (y : Layout) (l : DomainLedger) : Prop where
  shelves : Shelves y (liveIn y.bound l.live) l.machine
  live : ∀ a ∈ l.live, ∃ d < y.count, pageToPfn a.1 ∈ domainFrames y.bound d

/-- Every managed page is in exactly one place: in one block of the free lists `L`, in one arena
`A a`, in one entry of the free queue `Q`, or in one allocation that a client holds. -/
def PlacedOnce (y : Layout) (l : DomainLedger) : Prop :=
  ∀ d < y.count, ∃ L A Q,
    DomainShelf (y.bound d) (y.bound (d + 1)) (y.managed d) l.machine.mem (l.machine.domain d) L A Q
      (liveIn y.bound l.live d) ∧
    ∀ q ∈ y.managed d,
      (gather buddyMaxOrder L ++ shelved A (y.cores d) Q (liveIn y.bound l.live d)).countP
        (fun b => decide (b.1 ≤ q) && decide (q < b.1 + 2 ^ b.2)) = 1

section Runs

variable {y : Layout} {l l' : DomainLedger}

theorem Conserved.placedOnce (h : Conserved y l) : PlacedOnce y l := by
  intro d hd
  obtain ⟨L, A, Q, hs⟩ := h.shelves.shelf d hd
  refine ⟨L, A, Q, hs, fun q hq => ?_⟩
  have hcount := hs.inv.packed.countP_covers (x := q) (by rwa [hs.inv.cover])
  rwa [allBlocks, nil_append, h.shelves.fits.cores d hd] at hcount

/-- One call keeps every page. -/
theorem Conserved.step (hy : y.StartsWell) (h : Conserved y l) (hstep : RoomStep l l') :
    Conserved y l' := by
  cases hstep with
  | @alloc core pages ret flags s' hres =>
    rcases domainAlloc_triple hy flags _ h.shelves ret s' hres with
      ⟨rfl, hs⟩ | ⟨hne, d, hd, hf, hs⟩
    · exact ⟨hs, h.live⟩
    rw [if_neg hne]
    refine ⟨?_, fun a ha => ?_⟩
    · rw [liveIn_cons y.mono (a := (ret, pages)) hf]
      exact hs
    · rcases mem_cons.mp ha with rfl | ha
      · exact ⟨d, hd, hf⟩
      · exact h.live a ha
  | @free core a s' ha hroom hres =>
    obtain ⟨d, hd, hf⟩ := h.live a ha
    have hhold := h.shelves.perm fun e _ => liveIn_erase y.mono ha hf e
    obtain ⟨u, s₁, hput, hrest⟩ := Triple.run_bind_eq_ok.mp hres
    have hs₁ := freeToTarget_triple hy hd _ hhold u s₁ hput
    have hcore : s₁.coreDomain = l.machine.coreDomain :=
      hs₁.fits.coreDomain.trans h.shelves.fits.coreDomain.symm
    change (domainFlushFreeQueue (s₁.coreDomain core)).run s₁ = _ at hrest
    rw [hcore] at hrest
    have hlocal : l.machine.coreDomain core < y.count := by
      rw [h.shelves.fits.coreDomain]
      exact (y.core_ok core).1
    exact ⟨domainFlushFreeQueue_spec hy hlocal hs₁ (hroom s₁ hput) hrest, fun c hc =>
      h.live c (mem_of_mem_erase hc)⟩
  | @flush d s' hd hroom hres =>
    rw [h.shelves.fits.count] at hd
    exact ⟨domainFlushFreeQueue_spec hy hd h.shelves hroom hres, h.live⟩

/-- **Conservation.** In every run whose flushes have room, on domains that start well, every
managed page is in exactly one place. -/
theorem domainRun_placedOnce (hy : y.StartsWell) {l₀ : DomainLedger} (h₀ : Conserved y l₀)
    (hrun : ReflTransGen RoomStep l₀ l) : PlacedOnce y l := by
  have h : Conserved y l := by
    induction hrun with
    | refl => exact h₀
    | tail _ hstep ih => exact ih.step hy hstep
  exact h.placedOnce

/-- The number of managed pages of a domain is the number in its free blocks, arenas, free queue
and in hands. -/
theorem DomainShelf.ncard_eq {lo hi : ℕ} {M : Set ℕ} {m : PageMem} {dom : DomainBuddy}
    {L A : ℕ → List ℕ} {Q hands : List (ℕ × ℕ)} (h : DomainShelf lo hi M m dom L A Q hands) :
    M.ncard = ((range buddyMaxOrder).map fun k => (dom.freeArea k).nrFree * 2 ^ k).sum +
      (((range dom.coreCount).map fun a => (dom.arena a).numPages).sum +
        (size (Q.map allocBlock) + size (hands.map allocBlock))) := by
  have hfree : size (gather buddyMaxOrder L) =
      ((range buddyMaxOrder).map fun k => (dom.freeArea k).nrFree * 2 ^ k).sum := by
    rw [gather, size_range_flatMap buddyMaxOrder L fun k => k]
    refine congrArg sum (map_congr_left fun k hk => ?_)
    rw [(h.inv.list k (mem_range.mp hk)).nrFree]
  have harena : size (arenaBlocks A dom.coreCount) =
      ((range dom.coreCount).map fun a => (dom.arena a).numPages).sum := by
    rw [arenaBlocks, size_range_flatMap dom.coreCount A fun _ => 0]
    refine congrArg sum (map_congr_left fun a ha => ?_)
    rw [(h.arena a (mem_range.mp ha)).2, pow_zero, mul_one]
  rw [← h.inv.cover, h.inv.packed.ncard_covered, allBlocks, nil_append, size_append,
    shelved, size_append, size_append, hfree, harena]

end Runs

/-! ### A flush that loses a page -/

theorem twoBounds_le {lastPfn mid : ℕ} (h : mid ≤ lastPfn) (a b : ℕ) (hab : a ≤ b) :
    twoBounds lastPfn mid a ≤ twoBounds lastPfn mid b := by
  simp only [twoBounds]
  split_ifs <;> omega

/-- The layout of `twoDomains`. -/
def twoLayout (lastPfn mid p k q j : ℕ) (h : mid ≤ lastPfn) : Layout where
  count := 2
  bound := twoBounds lastPfn mid
  cores d := if d = 0 then 2 else 1
  coreDomain c := if c < 2 then 0 else 1
  coreArena c := if c = 1 then 1 else 0
  managed d := if d = 0 then covered [(p, k)] else covered [(q, j)]
  mono := twoBounds_le h
  core_ok c := by
    split_ifs <;> omega

theorem RingBuffer.holds_nil {α : Type} (f : ℕ → α) : (RingBuffer.mk f 0 0 2).Holds [] :=
  ⟨Nat.two_pos, Nat.two_pos, rfl, fun _ h => absurd h (Nat.not_lt_zero _)⟩

theorem twoDomains_conserved {lastPfn mid p k q j : ℕ} (hlast : mid ≤ lastPfn ∧ lastPfn ≤ 2 ^ 52)
    (hp : GoodBlock (twoDomains lastPfn mid p k q j).mem 0 mid p k)
    (hq : GoodBlock (twoDomains lastPfn mid p k q j).mem mid lastPfn q j) :
    Conserved (twoLayout lastPfn mid p k q j hlast.1) ⟨twoDomains lastPfn mid p k q j, []⟩ := by
  have hsound := twoDomains_sound hlast hp hq
  have hcases : ∀ d < 2, d = 0 ∨ d = 1 := fun d hd => by omega
  refine ⟨⟨⟨hsound.partition, rfl, fun d hd => ?_, rfl, rfl, fun d hd => ?_⟩, fun d hd => ?_⟩,
    by simp⟩
  · rcases hcases d hd with rfl | rfl <;> rfl
  · rcases hcases d hd with rfl | rfl <;> exact fun e he => absurd he (not_mem_nil)
  have hinv := hsound.inv d hd
  refine ⟨if d = 0 then singleList p k else singleList q j, fun _ => [], [], ?_, fun a _ => ?_,
    by simp, ?_, by simp [liveIn]⟩
  · have hnil : ∀ n, shelved (fun _ => []) n [] (liveIn (twoBounds lastPfn mid) [] d) = [] := by
      intro n
      simp [shelved, arenaBlocks, liveIn]
    change BuddyInv False _ _ _ _ _ (shelved _ _ [] (liveIn (twoBounds lastPfn mid) [] d)) []
    rw [hnil]
    exact hinv
  · rcases hcases d hd with rfl | rfl <;> exact ⟨RingBuffer.holds_nil _, rfl⟩
  · rcases hcases d hd with rfl | rfl <;> exact ⟨RingBuffer.holds_nil _, rfl⟩

/-- Flags that ask for the local domain only. -/
def localOnly : BitVec 32 := 0x0E000000#32

/-- Three pages of a domain with two arenas of capacity two are taken. Two are freed locally and
fill the arenas, the third is freed from the other domain into the queue, and the queue is
flushed. -/
def lossState : ℕ → Machine
  | 0 => twoDomains 16 8 4 2 8 3
  | n + 1 =>
    if n < 3 then finalState (domainAlloc 0 1 localOnly) (lossState n)
    else if n = 3 then finalState (domainFree 0 16384 1) (lossState n)
    else if n = 4 then finalState (domainFree 0 20480 1) (lossState n)
    else if n = 5 then finalState (domainFree 2 24576 1) (lossState n)
    else finalState (domainFlushFreeQueue 0) (lossState n)

theorem lossState_alloc {n ret : ℕ} (hn : n < 3)
    (h : returns (domainAlloc 0 1 localOnly) (lossState n) ret = true) (hret : ret ≠ 0)
    (live : List (ℕ × ℕ)) : PageStep ⟨lossState n, live⟩ ⟨lossState (n + 1), (ret, 1) :: live⟩ := by
  have hstep := PageStep.alloc (l := ⟨lossState n, live⟩) (run_of_returns h)
  rw [if_neg hret] at hstep
  rwa [lossState, if_pos hn]

theorem lossState_zero_conserved :
    Conserved (twoLayout 16 8 4 2 8 3 (by decide)) ⟨lossState 0, []⟩ :=
  twoDomains_conserved (by decide) (by decide) (by decide)

theorem twoLayout_startsWell : (twoLayout 16 8 4 2 8 3 (by decide)).StartsWell := by
  intro d hd
  obtain rfl | rfl : d = 0 ∨ d = 1 := by
    have : d < 2 := hd
    omega
  · exact Or.inl rfl
  · exact Or.inr (Or.inr (by decide))

/-- A flush of one round has room if the first arena is not full. -/
theorem flushOk_of_arena {d : ℕ} {s : Machine} (hmin : computeMinElementsToFree (s.domain d) = 1)
    (harena : ¬ ((s.domain d).arena 0).pages.Full) : FlushOk d s := by
  intro _
  rw [hmin]
  refine ⟨fun a b addr pageCount r ha hfull => absurd ?_ harena, fun _ _ _ _ => trivial⟩
  obtain rfl := Option.some.inj ha
  simpa [markFreeInProgress, Machine.setFreeQueue, Machine.setDomain] using hfull

/-- Flushing the queue of a domain whose arenas are full loses a page. -/
theorem domainRun_loses_page :
    ¬ ∀ (y : Layout) (l₀ l : DomainLedger), y.StartsWell → Conserved y l₀ →
      ReflTransGen PageStep l₀ l → PlacedOnce y l := by
  intro hall
  have h₁ := lossState_alloc (n := 0) (by decide) (show returns _ _ 16384 = true by decide +kernel)
    (by decide) []
  have h₂ := lossState_alloc (n := 1) (by decide) (show returns _ _ 20480 = true by decide +kernel)
    (by decide) [(16384, 1)]
  have h₃ := lossState_alloc (n := 2) (by decide) (show returns _ _ 24576 = true by decide +kernel)
    (by decide) [(20480, 1), (16384, 1)]
  have hr₄ : (domainFree 0 16384 1).run (lossState 3) = .ok ((), lossState 4) :=
    run_of_returns (by decide +kernel)
  have hr₅ : (domainFree 0 20480 1).run (lossState 4) = .ok ((), lossState 5) :=
    run_of_returns (by decide +kernel)
  have hr₆ : (domainFree 2 24576 1).run (lossState 5) = .ok ((), lossState 6) :=
    run_of_returns (by decide +kernel)
  have hr₇ : (domainFlushFreeQueue 0).run (lossState 6) = .ok ((), lossState 7) :=
    run_of_returns (by decide +kernel)
  have h₄ : PageStep ⟨lossState 3, [(24576, 1), (20480, 1), (16384, 1)]⟩
      ⟨lossState 4, [(24576, 1), (20480, 1)]⟩ := .free (a := (16384, 1)) (by decide) hr₄
  have h₅ : PageStep ⟨lossState 4, [(24576, 1), (20480, 1)]⟩ ⟨lossState 5, [(24576, 1)]⟩ :=
    .free (a := (20480, 1)) (by decide) hr₅
  have h₆ : PageStep ⟨lossState 5, [(24576, 1)]⟩ ⟨lossState 6, []⟩ :=
    .free (a := (24576, 1)) (by decide) hr₆
  have h₇ : PageStep ⟨lossState 6, []⟩ ⟨lossState 7, []⟩ := .flush (d := 0) (by decide +kernel) hr₇
  have hrun : ReflTransGen PageStep ⟨lossState 0, []⟩ ⟨lossState 7, []⟩ :=
    ((((((ReflTransGen.single h₁).tail h₂).tail h₃).tail h₄).tail h₅).tail h₆).tail h₇
  -- Count the pages of the first domain before and after.
  obtain ⟨L, A, Q, hbefore, -⟩ := lossState_zero_conserved.placedOnce 0 (by decide)
  obtain ⟨L', A', Q', hafter, -⟩ :=
    hall _ _ _ twoLayout_startsWell lossState_zero_conserved hrun 0 (by decide)
  have hQ : Q = [] := length_eq_zero_iff.mp (hbefore.queue.2 ▸ by decide +kernel)
  have hQ' : Q' = [] := length_eq_zero_iff.mp (hafter.queue.2 ▸ by decide +kernel)
  have hsum := hbefore.ncard_eq.symm.trans hafter.ncard_eq
  rw [hQ, hQ'] at hsum
  exact absurd hsum (by decide +kernel)

/-- A page is taken and freed from the other domain into the queue. The flush puts it into an
arena. -/
theorem domainRun_placedOnce_flushed : ∃ l, ReflTransGen RoomStep ⟨lossState 0, []⟩ l ∧
    l.live = [] ∧ (l.machine.domain 0).freeQueue.numElements = 0 ∧
    ((l.machine.domain 0).arena 0).numPages = 1 ∧
    PlacedOnce (twoLayout 16 8 4 2 8 3 (by decide)) l := by
  have hr₁ : (domainAlloc 0 1 localOnly).run (lossState 0) = .ok (16384, lossState 1) :=
    run_of_returns (by decide +kernel)
  have h₁ := RoomStep.alloc (l := ⟨lossState 0, []⟩) hr₁
  have hroom : ∀ s₁, (freeToTarget 2 16384 1).run (lossState 1) = .ok ((), s₁) →
      FlushOk ((lossState 1).coreDomain 2) s₁ := by
    intro s₁ hs₁
    obtain ⟨-, rfl⟩ := Prod.mk.inj (Except.ok.inj hs₁)
    exact flushOk_of_arena (by decide +kernel) (by decide +kernel)
  obtain ⟨s₂, hr₂, hs₂⟩ : ∃ s₂, (domainFree 2 16384 1).run (lossState 1) = .ok ((), s₂) ∧
      s₂ = finalState (domainFree 2 16384 1) (lossState 1) :=
    ⟨_, run_of_returns (by decide +kernel), rfl⟩
  have h₂ := RoomStep.free (l := ⟨lossState 1, [(16384, 1)]⟩) (a := (16384, 1)) (by simp) hroom hr₂
  have hr₃ : (domainFlushFreeQueue 0).run s₂ =
      .ok ((), finalState (domainFlushFreeQueue 0) s₂) := by
    rw [hs₂]
    exact run_of_returns (by decide +kernel)
  have h₃ := RoomStep.flush (l := ⟨s₂, []⟩) (d := 0) (by rw [hs₂]; decide +kernel)
    (flushOk_of_arena (by rw [hs₂]; decide +kernel) (by rw [hs₂]; decide +kernel)) hr₃
  have hrun := ((ReflTransGen.single h₁).tail h₂).tail h₃
  refine ⟨_, hrun, rfl, ?_, ?_,
    domainRun_placedOnce twoLayout_startsWell lossState_zero_conserved hrun⟩
  · rw [hs₂]
    decide +kernel
  · rw [hs₂]
    decide +kernel

end Charmos.Mem
