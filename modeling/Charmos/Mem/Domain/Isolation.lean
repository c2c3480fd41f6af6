import Charmos.Mem.Domain.Basic
import Mathlib.Logic.Relation
import Mathlib.Tactic.IntervalCases

/-!
# Isolation of the domains at the buddy layer

All domains keep their free lists in one page array. A call on one domain should look at, and
store to, pages of that domain only. Allocation does. Freeing does as long as the frame of the
block is below the page count of the domain, which `free_from_buddy_internal` passes as the bound
on frames, and the buddies met on the way up lie inside the domain (`FreeInside`); this is
`domainRun_isolated`. Both conditions fail for domains that do not start at frame `0`
(`domainRun_not_isolated`, `free_crosses_domains`).
-/

namespace Charmos.Mem

open DyadicBlock Function List Relation

/-- The frames of domain `d`. -/
def domainFrames (bound : ℕ → ℕ) (d : ℕ) : Set ℕ := {q | bound d ≤ q ∧ q < bound (d + 1)}

/-- The buddy invariant of every domain, with `out d` the blocks taken from domain `d`. -/
def DomainsInv (bound : ℕ → ℕ) (M : ℕ → Set ℕ) (s : Machine) (L : ℕ → ℕ → List ℕ)
    (out : ℕ → List Block) : Prop :=
  ∀ d < s.domainCount, BuddyInv False (bound d) (bound (d + 1)) (M d) (s.buddy d) (L d) (out d) []

section Frame

variable {bound : ℕ → ℕ} {M : ℕ → Set ℕ} {s : Machine} {L : ℕ → ℕ → List ℕ}
  {out : ℕ → List Block} {d e : ℕ} {L' : ℕ → List ℕ} {o : List Block} {b : BuddyState}
  {s' : Machine} {used : ℕ}

theorem domainFrames_disjoint (hb : Monotone bound) (hde : d ≠ e) {q : ℕ}
    (hd : q ∈ domainFrames bound d) : q ∉ domainFrames bound e := by
  rintro ⟨h3, h4⟩
  obtain ⟨h1, h2⟩ := hd
  rcases Nat.lt_or_gt_of_ne hde with h | h
  · have := hb (show d + 1 ≤ e from h)
    omega
  · have := hb (show e + 1 ≤ d from h)
    omega

/-- A change of one domain that stores to its own pages only keeps the invariant of the others. -/
theorem DomainsInv.update (h : DomainsInv bound M s L out) (hb : Monotone bound)
    (hcount : s'.domainCount = s.domainCount)
    (hother : ∀ e ≠ d, (s'.domain e).freeArea = (s.domain e).freeArea)
    (ht : Touches s.mem s'.mem (domainFrames bound d))
    (hd : BuddyInv False (bound d) (bound (d + 1)) (M d) (s'.buddy d) L' o []) :
    DomainsInv bound M s' (update L d L') (update out d o) := by
  intro e he
  by_cases hed : e = d
  · subst hed
    simpa using hd
  · rw [update_of_ne hed, update_of_ne hed, Machine.buddy, hother e hed]
    refine (h e (hcount ▸ he)).frame ht fun q hq h1 h2 => ?_
    exact domainFrames_disjoint hb (Ne.symm hed) hq ⟨h1, h2⟩

/-- The taken blocks of each domain may be reordered. -/
theorem DomainsInv.perm (h : DomainsInv bound M s L out) {out' : ℕ → List Block}
    (hp : ∀ d < s.domainCount, (out d).Perm (out' d)) : DomainsInv bound M s L out' := fun d hd =>
  (h d hd).perm (fun _ hc => (hp d hd).mem_iff.mpr hc) (hp d hd)

theorem Scope_subset_domainFrames (o : List Block) :
    Scope (bound d) (bound (d + 1)) o ⊆ domainFrames bound d := fun _ hq => ⟨hq.1, hq.2.1⟩

theorem buddy_setBuddy (b : BuddyState) (used : ℕ) : (s.setBuddy d b used).buddy d = b := by
  simp [Machine.buddy, Machine.setBuddy]

theorem domain_setBuddy_of_ne (b : BuddyState) (used : ℕ) (hed : e ≠ d) :
    (s.setBuddy d b used).domain e = s.domain e := update_of_ne hed _ _

theorem DomainsInv.setBuddy (h : DomainsInv bound M s L out) (hb : Monotone bound) {o' : List Block}
    (ht : Touches s.mem b.mem (Scope (bound d) (bound (d + 1)) o'))
    (hd : BuddyInv False (bound d) (bound (d + 1)) (M d) b L' o []) :
    DomainsInv bound M (s.setBuddy d b used) (Function.update L d L')
      (Function.update out d o) := by
  refine h.update hb ?_ (fun e he => ?_) (ht.mono (Scope_subset_domainFrames _)) ?_
  · rfl
  · rw [domain_setBuddy_of_ne b used he]
  · rw [buddy_setBuddy]
    exact hd

/-- An allocation from one domain. -/
theorem allocFromBuddyInternal_spec (h : DomainsInv bound M s L out) (hb : Monotone bound)
    (hd : d < s.domainCount) {pages ret : ℕ}
    (hres : (allocFromBuddyInternal d pages).run s = .ok (ret, s')) :
    ∃ p L', ret = pfnToPage p ∧ 0 < p ∧ p ∈ domainFrames bound d ∧
      DomainsInv bound M s' L' (update out d ((p, Nat.clog 2 pages) :: out d)) ∧
      s'.mem.get p .tag = PageTag.none.code ∧ 0 < pages ∧
      (∃ b used, s' = s.setBuddy d b used) ∧
      Touches s.mem s'.mem (Scope (bound d) (bound (d + 1)) (out d)) := by
  obtain ⟨b, used, hbuddy, rfl⟩ := allocFromBuddyInternal_ok hres
  obtain ⟨p, L', rfl, hinv, htag, -, ht⟩ := buddyAllocPages_spec (h d hd) hbuddy
  have hmem : (p, Nat.clog 2 pages) ∈ allBlocks L' ((p, Nat.clog 2 pages) :: out d) [] :=
    BuddyInv.mem_out (by simp)
  have hpages : 0 < pages := by
    by_contra h0
    rw [buddyAllocPages, if_pos (by omega)] at hbuddy
    cases hbuddy
  exact ⟨p, _, rfl, hinv.packed.pos _ hmem, hinv.covers_region hmem (covers_start _ _),
    h.setBuddy hb ht hinv, htag, hpages, ⟨b, used, rfl⟩, ht⟩

/-- The condition under which freeing `count` pages at `addr` stays inside domain `d`: the frame
is below the page count of the domain, and so is no buddy met outside the domain. -/
def FreeInside (s : Machine) (d addr count : ℕ) : Prop :=
  pageToPfn addr < (s.domain d).totalPages ∧
    MergeInside s.mem (pageToPfn (s.domain d).start) (pageToPfn (s.domain d).stop)
      (s.domain d).totalPages (buddyMaxOrder - 1 - Nat.clog 2 count) (pageToPfn addr)
      (Nat.clog 2 count)

/-- Freeing a block to the domain it was taken from. -/
theorem freeFromBuddyInternal_spec (h : DomainsInv bound M s L out) (hp : Partition s bound)
    (hd : d < s.domainCount) {p count : ℕ} (hcount : 0 < count)
    (hout : (out d).Perm ((p, Nat.clog 2 count) :: o)) (htag : s.mem.get p .tag = PageTag.none.code)
    (hin : FreeInside s d (pfnToPage p) count) :
    ∃ s' L', (freeFromBuddyInternal d (pfnToPage p) count).run s = .ok ((), s') ∧
      DomainsInv bound M s' L' (update out d o) ∧
      (∃ b used, s' = s.setBuddy d b used) ∧
      Touches s.mem s'.mem (Scope (bound d) (bound (d + 1)) o) ∧
      ∀ r ∈ freeReads (s.buddy d) (pfnToPage p) count (s.domain d).totalPages,
        r ∈ domainFrames bound d := by
  have hspan := hp.span d hd
  simp only [spanOf, DomainSpan.mk.injEq] at hspan
  obtain ⟨hstart, hstop, -⟩ := hspan
  rw [FreeInside, hstart, hstop, pageToPfn_pfnToPage, pageToPfn_pfnToPage,
    pageToPfn_pfnToPage] at hin
  have hinv : BuddyInv False (bound d) (bound (d + 1)) (M d) (s.buddy d) (L d)
      ((p, Nat.clog 2 count) :: o) [] :=
    (h d hd).perm (fun _ hc => hout.mem_iff.mpr hc) hout
  obtain ⟨b, L', hfree, hinv', -, ht, hreads⟩ :=
    buddyFreePages_spec hcount hinv htag hin.1 hin.2 False.elim
  exact ⟨_, _, freeFromBuddyInternal_ok_iff.mpr ⟨b, hfree, rfl⟩, h.setBuddy hp.mono ht hinv',
    ⟨b, _, rfl⟩, ht, hreads⟩

theorem Partition.setBuddy (hp : Partition s bound) (hlast : b.mem.lastPfn = s.mem.lastPfn) :
    Partition (s.setBuddy d b used) bound := by
  have hkeep : ∀ e, ((s.setBuddy d b used).domain e).start = (s.domain e).start ∧
      ((s.setBuddy d b used).domain e).stop = (s.domain e).stop ∧
      ((s.setBuddy d b used).domain e).length = (s.domain e).length ∧
      ((s.setBuddy d b used).domain e).totalPages = (s.domain e).totalPages := by
    intro e
    by_cases hed : e = d
    · subst hed
      simp [Machine.setBuddy]
    · simp [domain_setBuddy_of_ne b used hed]
  refine ⟨hp.mono, hp.first, hp.last.trans hlast.symm, fun e he => ?_, fun e he => ?_⟩
  · obtain ⟨h1, h2, h3, -⟩ := hkeep e
    rw [h1, h2, h3]
    exact hp.span e he
  · obtain ⟨-, -, h3, h4⟩ := hkeep e
    rw [h3, h4]
    exact hp.total e he

end Frame

/-! ### Runs -/

/-- The machine with the allocations outstanding at the buddy layer, as pairs of address and
count. -/
structure DomainLedger where
  machine : Machine
  live : List (ℕ × ℕ)

/-- The allocations whose first frame lies in domain `d`. -/
def liveIn (bound : ℕ → ℕ) (live : List (ℕ × ℕ)) (d : ℕ) : List (ℕ × ℕ) :=
  live.filter fun a => decide (bound d ≤ pageToPfn a.1) && decide (pageToPfn a.1 < bound (d + 1))

/-- One more allocation of domain `d`. -/
def hold (hands : ℕ → List (ℕ × ℕ)) (d : ℕ) (x : ℕ × ℕ) : ℕ → List (ℕ × ℕ) :=
  update hands d (x :: hands d)

@[simp] theorem hold_self {hands : ℕ → List (ℕ × ℕ)} {d : ℕ} {x : ℕ × ℕ} :
    hold hands d x d = x :: hands d := update_self ..

/-- The block behind an allocation. -/
def allocBlock (a : ℕ × ℕ) : Block := (pageToPfn a.1, Nat.clog 2 a.2)

/-- One call of the domain layer on the buddy of a domain. A block is freed to the domain that
`domain_buddy_for_addr` finds. -/
inductive DomainStep : DomainLedger → DomainLedger → Prop
  | alloc {l : DomainLedger} {d pages addr : ℕ} {s' : Machine} (hd : d < l.machine.domainCount)
      (h : (allocFromBuddyInternal d pages).run l.machine = .ok (addr, s')) :
      DomainStep l ⟨s', if addr = 0 then l.live else (addr, pages) :: l.live⟩
  | free {l : DomainLedger} {a : ℕ × ℕ} {d : ℕ} {s' : Machine} (ha : a ∈ l.live)
      (hd : domainBuddyForAddr l.machine a.1 = some d)
      (h : (freeFromBuddyInternal d a.1 a.2).run l.machine = .ok ((), s')) :
      DomainStep l ⟨s', l.live.erase a⟩

/-- A call whose free, if it is one, meets `FreeInside`. -/
inductive InsideStep : DomainLedger → DomainLedger → Prop
  | alloc {l : DomainLedger} {d pages addr : ℕ} {s' : Machine} (hd : d < l.machine.domainCount)
      (h : (allocFromBuddyInternal d pages).run l.machine = .ok (addr, s')) :
      InsideStep l ⟨s', if addr = 0 then l.live else (addr, pages) :: l.live⟩
  | free {l : DomainLedger} {a : ℕ × ℕ} {d : ℕ} {s' : Machine} (ha : a ∈ l.live)
      (hd : domainBuddyForAddr l.machine a.1 = some d) (hin : FreeInside l.machine d a.1 a.2)
      (h : (freeFromBuddyInternal d a.1 a.2).run l.machine = .ok ((), s')) :
      InsideStep l ⟨s', l.live.erase a⟩

/-- What holds between calls: the domains partition the frames, every domain meets the buddy
invariant on its own frames, so that its free lists hold blocks inside the domain only, and
outstanding blocks are page aligned, untagged and inside a domain. -/
structure DomainsSound (bound : ℕ → ℕ) (M : ℕ → Set ℕ) (l : DomainLedger) (L : ℕ → ℕ → List ℕ) :
    Prop where
  partition : Partition l.machine bound
  inv : DomainsInv bound M l.machine L fun d => (liveIn bound l.live d).map allocBlock
  live : ∀ a ∈ l.live, 0 < a.2 ∧ a.1 = pfnToPage (pageToPfn a.1) ∧
    l.machine.mem.get (pageToPfn a.1) .tag = PageTag.none.code ∧
    ∃ d < l.machine.domainCount, pageToPfn a.1 ∈ domainFrames bound d

/-- Freeing `a` to domain `d` returns, looks only at page structs of the domain, stores only to
page structs of the domain and leaves the data of the other domains alone. -/
def FreeIsolated (bound : ℕ → ℕ) (s : Machine) (d : ℕ) (a : ℕ × ℕ) : Prop :=
  (∀ r ∈ freeReads (s.buddy d) a.1 a.2 (s.domain d).totalPages, r ∈ domainFrames bound d) ∧
    ∃ s', (freeFromBuddyInternal d a.1 a.2).run s = .ok ((), s') ∧
      Touches s.mem s'.mem (domainFrames bound d) ∧ ∀ e ≠ d, s'.domain e = s.domain e

section Runs

variable {bound : ℕ → ℕ} {M : ℕ → Set ℕ} {l l' : DomainLedger} {L : ℕ → ℕ → List ℕ} {d : ℕ}
  {a : ℕ × ℕ} {live : List (ℕ × ℕ)} {s' : Machine}

theorem mem_liveIn : a ∈ liveIn bound live d ↔ a ∈ live ∧ pageToPfn a.1 ∈ domainFrames bound d := by
  simp [liveIn, domainFrames]

/-- An allocation counts for the one domain that it lies in. -/
theorem liveIn_cons (hb : Monotone bound) (ha : pageToPfn a.1 ∈ domainFrames bound d) :
    liveIn bound (a :: live) = hold (liveIn bound live) d a := by
  funext e
  by_cases hed : e = d
  · subst hed
    have hmem : bound e ≤ pageToPfn a.1 ∧ pageToPfn a.1 < bound (e + 1) := ha
    simp [liveIn, hold, hmem]
  · have hmem : ¬ (bound e ≤ pageToPfn a.1 ∧ pageToPfn a.1 < bound (e + 1)) :=
      domainFrames_disjoint hb (Ne.symm hed) ha
    rw [hold, update_of_ne hed, liveIn, filter_cons_of_neg (by simpa using hmem), liveIn]

theorem liveIn_erase (hb : Monotone bound) (ha : a ∈ live)
    (hf : pageToPfn a.1 ∈ domainFrames bound d) (e : ℕ) :
    (liveIn bound live e).Perm (hold (liveIn bound (live.erase a)) d a e) := by
  rw [← liveIn_cons hb hf]
  exact (perm_cons_erase ha).filter _

theorem map_hold (hands : ℕ → List (ℕ × ℕ)) :
    (fun e => (hold hands d a e).map allocBlock) =
      update (fun e => (hands e).map allocBlock) d
        (allocBlock a :: (hands d).map allocBlock) := by
  funext e
  by_cases hed : e = d
  · subst hed
    simp [hold]
  · simp [hold, hed]

/-- `domain_buddy_for_addr` finds the domain that the frame of a page aligned address lies in. -/
theorem Partition.domainBuddyForAddr_eq {s : Machine} (hp : Partition s bound) {p : ℕ} :
    domainBuddyForAddr s (pfnToPage p) = some d ↔
      d < s.domainCount ∧ p ∈ domainFrames bound d := by
  have hin : ∀ e < s.domainCount, ((s.domain e).start ≤ pfnToPage p ∧
      pfnToPage p < (s.domain e).stop ↔ p ∈ domainFrames bound e) := by
    intro e he
    have hspan := hp.span e he
    simp only [spanOf, DomainSpan.mk.injEq] at hspan
    rw [hspan.1, hspan.2.1, domainFrames, Set.mem_ofPred_eq, pfnToPage, pfnToPage, pfnToPage,
      pageSize]
    omega
  rw [domainBuddyForAddr, List.find?_range_eq_some]
  constructor
  · rintro ⟨h1, h2, -⟩
    have hd : d < s.domainCount := mem_range.mp h2
    simp only [Bool.and_eq_true, decide_eq_true_eq] at h1
    exact ⟨hd, (hin d hd).mp h1⟩
  · rintro ⟨hd, hf⟩
    refine ⟨by simpa using (hin d hd).mpr hf, mem_range.mpr hd, fun e he => ?_⟩
    have hne : p ∉ domainFrames bound e := domainFrames_disjoint hp.mono (by omega) hf
    have hno := mt (hin e (by omega)).mp hne
    simp only [Bool.not_eq_eq_eq_not, Bool.not_true, Bool.and_eq_false_iff, decide_eq_false_iff_not]
    omega

/-- Words of outstanding blocks are outside the scope of every call. -/
theorem DomainsSound.tag_eq (h : DomainsSound bound M l L)
    {o : List (ℕ × ℕ)} (ht : Touches l.machine.mem s'.mem
      (Scope (bound d) (bound (d + 1)) (o.map allocBlock))) (ha : a ∈ l.live)
    (ho : pageToPfn a.1 ∈ domainFrames bound d → a ∈ o) :
    s'.mem.get (pageToPfn a.1) .tag = PageTag.none.code := by
  obtain ⟨-, -, htag, -⟩ := h.live a ha
  rw [← htag]
  refine ht.get_eq (fun hs => ?_) _
  have hao := ho (Scope_subset_domainFrames _ hs)
  exact hs.2.2 (allocBlock a) (mem_map_of_mem hao) (covers_start _ _)

theorem DomainsSound.alloc (h : DomainsSound bound M l L) {pages addr : ℕ}
    (hd : d < l.machine.domainCount)
    (hres : (allocFromBuddyInternal d pages).run l.machine = .ok (addr, s')) :
    ∃ L', DomainsSound bound M ⟨s', if addr = 0 then l.live else (addr, pages) :: l.live⟩ L' := by
  obtain ⟨p, L', rfl, hpos, hp, hinv, htag, hpages, ⟨b, used, hs'⟩, ht⟩ :=
    allocFromBuddyInternal_spec h.inv h.partition.mono hd hres
  have haddr : pfnToPage p ≠ 0 := by
    rw [pfnToPage, pageSize]
    omega
  have hcount : s'.domainCount = l.machine.domainCount := by rw [hs']; rfl
  rw [if_neg haddr]
  refine ⟨L', ⟨?_, ?_, fun a ha => ?_⟩⟩
  · have hlast : b.mem.lastPfn = l.machine.mem.lastPfn := by
      have := ht.lastPfn
      rwa [hs'] at this
    rw [hs']
    exact h.partition.setBuddy hlast
  · have hf : pageToPfn (pfnToPage p, pages).1 ∈ domainFrames bound d := by simpa using hp
    have hblock : allocBlock (pfnToPage p, pages) = (p, Nat.clog 2 pages) := by
      rw [allocBlock, pageToPfn_pfnToPage]
    rw [liveIn_cons h.partition.mono hf, map_hold, hblock]
    exact hinv
  · rcases mem_cons.mp ha with rfl | ha
    · refine ⟨hpages, by simp, by simpa using htag, d, hcount ▸ hd, by simpa using hp⟩
    · obtain ⟨h1, h2, -, e, he, hf⟩ := h.live a ha
      exact ⟨h1, h2, h.tag_eq ht ha fun hdf => mem_liveIn.mpr ⟨ha, hdf⟩, e, hcount ▸ he, hf⟩

/-- A free that stays inside its domain returns, is isolated and keeps the invariant. -/
theorem DomainsSound.free (h : DomainsSound bound M l L) (ha : a ∈ l.live)
    (hd : domainBuddyForAddr l.machine a.1 = some d) (hin : FreeInside l.machine d a.1 a.2) :
    FreeIsolated bound l.machine d a ∧
      ∀ s', (freeFromBuddyInternal d a.1 a.2).run l.machine = .ok ((), s') →
        ∃ L', DomainsSound bound M ⟨s', l.live.erase a⟩ L' := by
  obtain ⟨hpos, haddr, htag, -⟩ := h.live a ha
  rw [haddr, h.partition.domainBuddyForAddr_eq] at hd
  obtain ⟨hd, hf⟩ := hd
  have herase := liveIn_erase h.partition.mono ha hf
  rw [haddr] at hin
  obtain ⟨s', L', hres, hinv, ⟨b, used, hs'⟩, ht, hreads⟩ := freeFromBuddyInternal_spec h.inv
    h.partition hd hpos ((hold_self ▸ herase d).map allocBlock) htag hin
  rw [← haddr] at hres hreads
  refine ⟨⟨hreads, s', hres, ht.mono (Scope_subset_domainFrames _), fun e he => ?_⟩,
    fun s'' hres' => ?_⟩
  · rw [hs', domain_setBuddy_of_ne b used he]
  rw [hres] at hres'
  obtain ⟨-, rfl⟩ := Prod.mk.inj (Except.ok.inj hres')
  have hcount : s'.domainCount = l.machine.domainCount := by rw [hs']; rfl
  refine ⟨L', ⟨?_, ?_, fun c hc => ?_⟩⟩
  · have hlast : b.mem.lastPfn = l.machine.mem.lastPfn := by
      have := ht.lastPfn
      rwa [hs'] at this
    rw [hs']
    exact h.partition.setBuddy hlast
  · refine hinv.perm fun e he => ?_
    by_cases hed : e = d
    · subst hed
      rw [update_self]
    rw [update_of_ne hed]
    have hp := herase e
    rw [hold, update_of_ne hed] at hp
    exact hp.map allocBlock
  · have hc' := mem_of_mem_erase hc
    obtain ⟨h1, h2, -, e, he, hfe⟩ := h.live c hc'
    exact ⟨h1, h2, h.tag_eq ht hc' fun hdf => mem_liveIn.mpr ⟨hc, hdf⟩, e, hcount ▸ he, hfe⟩

/-- **Isolation.** In every run whose frees all meet `FreeInside`, the blocks on the free lists of
a domain lie inside the domain, and every free of an outstanding block that meets `FreeInside`
again returns and touches no page of another domain. -/
theorem domainRun_isolated {l₀ : DomainLedger} {L₀ : ℕ → ℕ → List ℕ}
    (h₀ : DomainsSound bound M l₀ L₀) (hrun : ReflTransGen InsideStep l₀ l) :
    (∃ L, DomainsSound bound M l L ∧ ∀ d < l.machine.domainCount, ∀ k < buddyMaxOrder,
      ∀ p ∈ L d k, bound d ≤ p ∧ p + 2 ^ k ≤ bound (d + 1)) ∧
    ∀ a ∈ l.live, ∀ d, domainBuddyForAddr l.machine a.1 = some d →
      FreeInside l.machine d a.1 a.2 → FreeIsolated bound l.machine d a := by
  have hinv : ∃ L, DomainsSound bound M l L := by
    induction hrun with
    | refl => exact ⟨L₀, h₀⟩
    | tail _ hstep ih =>
      obtain ⟨L, hL⟩ := ih
      cases hstep with
      | alloc hd h => exact hL.alloc hd h
      | free ha hd hin h => exact (hL.free ha hd hin).2 _ h
  obtain ⟨L, hL⟩ := hinv
  refine ⟨⟨L, hL, fun d hd k hk p hp => ?_⟩, fun a ha d hd hin => (hL.free ha hd hin).1⟩
  have hmem : (p, k) ∈ allBlocks (L d) ((liveIn bound l.live d).map allocBlock) [] :=
    BuddyInv.mem_list hk hp
  exact ⟨(hL.inv d hd).packed.le _ hmem, (hL.inv d hd).packed.end_le _ hmem⟩

end Runs

/-! ### Two domains that are not isolated -/

/-- A domain over the frames `lo, …, hi - 1` whose only free block is the one of order `k` at `p`,
with empty arenas and an empty free queue of capacity two. -/
def singleDomain (cores lo hi p k : ℕ) : DomainBuddy where
  zonelist := []
  freeArea := singleArea p k
  arena _ := ⟨⟨fun _ => 0, 0, 0, 2⟩, 0⟩
  coreCount := cores
  freeQueue := ⟨⟨fun _ => (0, 0), 0, 0, 2⟩, 0, false⟩
  start := pfnToPage lo
  stop := pfnToPage hi
  length := pfnToPage (hi - lo)
  pagesUsed := 0
  totalPages := hi - lo

/-- Two domains of one free block each, divided at frame `mid`. The cores `0` and `1` are on the
first domain. -/
def twoDomains (lastPfn mid p k q j : ℕ) : Machine where
  mem := ⟨fun r => if r = p then BitVec.ofNat 64 (9 + 32 * k) else
    if r = q then BitVec.ofNat 64 (9 + 32 * j) else 0, fun _ => none, lastPfn⟩
  domain d := if d = 0 then singleDomain 2 0 mid p k else singleDomain 1 mid lastPfn q j
  domainCount := 2
  numaNodeCount := 1
  coreDomain c := if c < 2 then 0 else 1
  coreArena c := if c = 1 then 1 else 0
  rrCurrentDomain _ := 0

/-- The bounds of `twoDomains`. -/
def twoBounds (lastPfn mid d : ℕ) : ℕ := if d = 0 then 0 else if d = 1 then mid else lastPfn

/-- A frame and order that make a free block of the domain over `lo, …, hi - 1`, with the word of
the frame marked as such. -/
def GoodBlock (m : PageMem) (lo hi p k : ℕ) : Prop :=
  k < buddyMaxOrder ∧ (0 < p ∧ lo ≤ p ∧ p + 2 ^ k ≤ hi ∧ Aligned p k) ∧
    (buddyPageGetNext m p = none ∧ buddyPageGetPrev m p = none) ∧
    (m.get p .tag = PageTag.buddy.code ∧ m.get p .isFree = 1 ∧ m.get p .order = k)

instance (m : PageMem) (lo hi p k : ℕ) : Decidable (GoodBlock m lo hi p k) :=
  inferInstanceAs (Decidable (_ ∧ _))

section TwoDomains

variable {lastPfn mid p k q j : ℕ}

theorem eq_of_isFree_twoDomains {r : ℕ}
    (h : buddyPageIsFree (twoDomains lastPfn mid p k q j).mem r = true) : r = p ∨ r = q := by
  by_contra hne
  push Not at hne
  have hword : (twoDomains lastPfn mid p k q j).mem.word r = 0 := by
    simp [twoDomains, hne]
  rw [buddyPageIsFree_iff, PageMem.get, hword] at h
  exact absurd h.1 (by decide)

theorem twoDomains_sound (hlast : mid ≤ lastPfn ∧ lastPfn ≤ 2 ^ 52)
    (hp : GoodBlock (twoDomains lastPfn mid p k q j).mem 0 mid p k)
    (hq : GoodBlock (twoDomains lastPfn mid p k q j).mem mid lastPfn q j) :
    DomainsSound (twoBounds lastPfn mid)
      (fun d => if d = 0 then covered [(p, k)] else covered [(q, j)])
      ⟨twoDomains lastPfn mid p k q j, []⟩
      (fun d => if d = 0 then singleList p k else singleList q j) := by
  have hcases : ∀ d < 2, d = 0 ∨ d = 1 := fun d hd => by omega
  refine ⟨⟨?_, rfl, rfl, fun d hd => ?_, fun d hd => ?_⟩, fun d hd => ?_, by simp⟩
  · intro a b hab
    simp only [twoBounds]
    split_ifs <;> omega
  · rcases hcases d hd with rfl | rfl <;> rfl
  · rcases hcases d hd with rfl | rfl
    all_goals exact (Nat.mul_div_cancel _ (by decide)).symm
  obtain ⟨hk, hp1, hp2, hp3⟩ := hp
  obtain ⟨hj, hq1, hq2, hq3⟩ := hq
  rcases hcases d hd with rfl | rfl
  · refine BuddyInv.single hk hlast hp1 hp2 hp3 fun r _ hr hf => ?_
    rcases eq_of_isFree_twoDomains hf with rfl | rfl
    · rfl
    · have : r < mid := hr
      omega
  · refine BuddyInv.single hj ⟨le_rfl, hlast.2⟩ hq1 hq2 hq3 fun r hr _ hf => ?_
    rcases eq_of_isFree_twoDomains hf with rfl | rfl
    · have hr' : mid ≤ r := hr
      have hpos : 0 < 2 ^ k := by positivity
      omega
    · rfl

end TwoDomains

/-- Eight frames in two domains of four. A page taken from the second domain cannot be given
back: its frame is checked against the page count of the domain. -/
theorem domainRun_not_isolated :
    ¬ ∀ (bound : ℕ → ℕ) (M : ℕ → Set ℕ) (l₀ l : DomainLedger) (L₀ : ℕ → ℕ → List ℕ),
      DomainsSound bound M l₀ L₀ → ReflTransGen DomainStep l₀ l →
      ∀ a ∈ l.live, ∀ d, domainBuddyForAddr l.machine a.1 = some d →
        FreeIsolated bound l.machine d a := by
  intro hall
  obtain ⟨s₁, hs₁, hd, hfail⟩ : ∃ s₁,
      (allocFromBuddyInternal 1 1).run (twoDomains 8 4 2 1 4 2) = .ok (16384, s₁) ∧
      domainBuddyForAddr s₁ 16384 = some 1 ∧
      (freeFromBuddyInternal 1 16384 1).run s₁ = .error (.enforce "pfn < total_pages") :=
    ⟨_, rfl, rfl, rfl⟩
  have hstep := DomainStep.alloc (l := ⟨twoDomains 8 4 2 1 4 2, []⟩) Nat.one_lt_two hs₁
  obtain ⟨-, s', hs', -⟩ := hall _ _ _ _ _ (twoDomains_sound (by decide) (by decide) (by decide))
    (ReflTransGen.single hstep) (16384, 1) (by simp) 1 hd
  rw [hfail] at hs'
  cases hs'

/-- Sixteen frames divided at frame `3`. A page of the second domain passes the check, and is
merged with the free page below it, of the first domain. -/
theorem free_crosses_domains : ∃ s s' L M,
    DomainsSound (twoBounds 16 3) M ⟨s, [(12288, 1)]⟩ L ∧ domainBuddyForAddr s 12288 = some 1 ∧
      (freeFromBuddyInternal 1 12288 1).run s = .ok ((), s') ∧
      2 ∈ freeReads (s.buddy 1) 12288 1 (s.domain 1).totalPages ∧
      2 ∉ domainFrames (twoBounds 16 3) 1 ∧ ((s'.domain 1).freeArea 1).head = some 2 := by
  obtain ⟨s, hs, s', hd, hs', hreads, hhead⟩ : ∃ s,
      (allocFromBuddyInternal 1 1).run (twoDomains 16 3 2 0 3 0) = .ok (12288, s) ∧ ∃ s',
      domainBuddyForAddr s 12288 = some 1 ∧
      (freeFromBuddyInternal 1 12288 1).run s = .ok ((), s') ∧
      2 ∈ freeReads (s.buddy 1) 12288 1 (s.domain 1).totalPages ∧
      ((s'.domain 1).freeArea 1).head = some 2 :=
    ⟨_, rfl, _, rfl, rfl, by decide, rfl⟩
  obtain ⟨L, hL⟩ := (twoDomains_sound (by decide) (by decide) (by decide)).alloc (by decide) hs
  exact ⟨s, s', L, _, hL, hd, hs', hreads, fun h => absurd h.1 (by decide), hhead⟩

/-- A page of the first domain of eight frames may be taken and given back. -/
theorem domainRun_isolated_first : ∃ l L M, ReflTransGen InsideStep ⟨twoDomains 8 4 2 1 4 2, []⟩ l ∧
    l.live = [(8192, 1)] ∧ DomainsSound (twoBounds 8 4) M l L ∧
      FreeIsolated (twoBounds 8 4) l.machine 0 (8192, 1) := by
  obtain ⟨s₁, hs₁, hd, hin⟩ : ∃ s₁,
      (allocFromBuddyInternal 0 1).run (twoDomains 8 4 2 1 4 2) = .ok (8192, s₁) ∧
      domainBuddyForAddr s₁ 8192 = some 0 ∧ FreeInside s₁ 0 8192 1 :=
    ⟨_, rfl, rfl, by rw [FreeInside, Nat.clog_one_right]; decide⟩
  have hstep := InsideStep.alloc (l := ⟨twoDomains 8 4 2 1 4 2, []⟩) Nat.two_pos hs₁
  have hrun := ReflTransGen.single hstep
  obtain ⟨⟨L, hL, -⟩, hfree⟩ := domainRun_isolated
    (twoDomains_sound (by decide) (by decide) (by decide)) hrun
  exact ⟨_, L, _, hrun, rfl, hL, hfree (8192, 1) (by simp) 0 hd hin⟩

end Charmos.Mem
