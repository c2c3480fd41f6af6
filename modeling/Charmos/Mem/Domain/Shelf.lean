import Charmos.Mem.Domain.Arena
import Charmos.Mem.Domain.Isolation

/-!
# Where the pages of a domain are

The pages that a domain manages are in blocks of its buddy, in its arenas, in its free queue, or
in some *hands*: those of a client, or of a call that is moving them. `DomainShelf` says what
each place holds, and that together they hold every managed page once: the blocks are packed and
cover exactly the managed frames, which is part of the buddy invariant with all the other places
counted as taken. A page in an arena is tagged `ARENA`, one in the queue or in hands is untagged.

The lemmas of `DomainShelf` move pages between the places. `Shelves` is the statement for all
domains of a machine, and the triples at the end say what the primitives do to it.
-/

namespace Charmos.Mem

open BuddyInv DyadicBlock Function List

/-- An allocation in the queue or in hands: not empty, page aligned and untagged. -/
def Owned (m : PageMem) (x : ℕ × ℕ) : Prop :=
  0 < x.2 ∧ x.1 = pfnToPage (pageToPfn x.1) ∧ m.get (pageToPfn x.1) .tag = PageTag.none.code

/-- The single pages in `n` arenas. -/
def arenaBlocks (A : ℕ → List ℕ) (n : ℕ) : List Block :=
  (List.range n).flatMap fun a => (A a).map fun p => (p, 0)

/-- The blocks outside the buddy: in the arenas, in the queue, in hands. -/
def shelved (A : ℕ → List ℕ) (n : ℕ) (Q hands : List (ℕ × ℕ)) : List Block :=
  arenaBlocks A n ++ (Q.map allocBlock ++ hands.map allocBlock)

/-- What the places of a domain over the frames `lo, …, hi - 1` hold: `L k` the starts of the free
blocks of order `k`, `A a` the pages of arena `a`, `Q` the free queue, and `hands` the rest. -/
structure DomainShelf (lo hi : ℕ) (M : Set ℕ) (m : PageMem) (dom : DomainBuddy) (L A : ℕ → List ℕ)
    (Q hands : List (ℕ × ℕ)) : Prop where
  inv : BuddyInv False lo hi M ⟨m, dom.freeArea⟩ L (shelved A dom.coreCount Q hands) []
  arena : ∀ a < dom.coreCount, (dom.arena a).pages.Holds (A a) ∧
    (dom.arena a).numPages = (A a).length
  arenaTag : ∀ a < dom.coreCount, ∀ p ∈ A a, m.get p .tag = PageTag.arena.code
  queue : dom.freeQueue.queue.Holds Q ∧ dom.freeQueue.numElements = Q.length
  owned : ∀ x ∈ Q ++ hands, Owned m x

variable {A : ℕ → List ℕ}

theorem mem_arenaBlocks {n : ℕ} {b : Block} :
    b ∈ arenaBlocks A n ↔ ∃ a < n, ∃ p ∈ A a, (p, 0) = b := by
  simp [arenaBlocks]

theorem arenaBlocks_perm {n a p : ℕ} {l : List ℕ} (ha : a < n) (h : (A a).Perm (p :: l)) :
    (arenaBlocks A n).Perm ((p, 0) :: arenaBlocks (update A a l) n) :=
  range_flatMap_perm ha (fun _ q => (q, 0)) A h

section Moves

variable {lo hi : ℕ} {M : Set ℕ} {m m' : PageMem} {dom : DomainBuddy} {L A : ℕ → List ℕ}
  {Q hands : List (ℕ × ℕ)} {x : ℕ × ℕ} {a p : ℕ} {n : ℕ}

/-- Taken blocks at different positions of the list start at different frames. -/
theorem BuddyInv.start_ne {strict : Prop} {s : BuddyState} {out o : List Block} {b c : Block}
    (h : BuddyInv strict lo hi M s L out []) (hp : out.Perm (b :: o)) (hc : c ∈ o) : c.1 ≠ b.1 := by
  intro he
  have hb : b ∈ out := hp.mem_iff.mpr (by simp)
  have hc' : c ∈ out := hp.mem_iff.mpr (mem_cons_of_mem _ hc)
  obtain rfl := h.packed.start_inj (mem_out hc') (mem_out hb) he
  have hnd := h.packed.nodup
  rw [allBlocks, nil_append, nodup_append] at hnd
  exact (nodup_cons.mp (hp.nodup_iff.mp hnd.2.1)).1 hc

private theorem shelved_hands (x : ℕ × ℕ) (n : ℕ) :
    (shelved A n Q (x :: hands)).Perm (allocBlock x :: shelved A n Q hands) := by
  exact (perm_middle.append_left _).trans perm_middle

private theorem shelved_queue (x : ℕ × ℕ) (n : ℕ) :
    (shelved A n (x :: Q) hands).Perm (shelved A n Q (x :: hands)) := by
  exact perm_middle.symm.append_left _

private theorem shelved_arena {l : List ℕ} (ha : a < n) (h : (A a).Perm (p :: l)) :
    (shelved A n Q hands).Perm ((p, 0) :: shelved (update A a l) n Q hands) :=
  (arenaBlocks_perm ha h).append_right _

theorem mem_shelved_of_owned (hx : x ∈ Q ++ hands) : allocBlock x ∈ shelved A n Q hands := by
  refine mem_append_right _ ?_
  rw [← map_append]
  exact mem_map_of_mem hx

theorem mem_shelved_of_arena (ha : a < n) (hp : p ∈ A a) : (p, 0) ∈ shelved A n Q hands :=
  mem_append_left _ (mem_arenaBlocks.mpr ⟨a, ha, p, hp, rfl⟩)

theorem allocBlock_single (hx : 0 < x.2) (h1 : ¬ 1 < x.2) : allocBlock x = (pageToPfn x.1, 0) := by
  rw [allocBlock, show x.2 = 1 by omega, Nat.clog_one_right]

namespace DomainShelf

variable {hands' : List (ℕ × ℕ)}

section

variable (h : DomainShelf lo hi M m dom L A Q hands)
include h

/-- A new buddy, with stores that keep the words of the blocks that stay on the shelf. -/
theorem rebuddy {b : BuddyState} {L' : ℕ → List ℕ}
    {o : List Block} (used : ℕ)
    (hinv : BuddyInv False lo hi M b L' (shelved A dom.coreCount Q hands') [])
    (ht : Touches m b.mem (Scope lo hi o)) (ho : ∀ c ∈ shelved A dom.coreCount Q [], c ∈ o)
    (hown : ∀ x ∈ hands', Owned b.mem x ∨ x ∈ hands ∧ allocBlock x ∈ o) :
    DomainShelf lo hi M b.mem { dom with freeArea := b.area, pagesUsed := used } L' A Q
      hands' := by
  have hkeep : ∀ c ∈ o, b.mem.get c.1 .tag = m.get c.1 .tag := fun c hc =>
    ht.get_eq (fun hs => hs.2.2 c hc (covers_start _ _)) _
  refine ⟨hinv, h.arena, fun c hc p hp => ?_, h.queue, fun x hx => ?_⟩
  · rw [← h.arenaTag c hc p hp]
    exact hkeep _ (ho _ (mem_shelved_of_arena hc hp))
  have hold : x ∈ Q ++ hands → allocBlock x ∈ o → Owned b.mem x := fun hx hxo => by
    obtain ⟨h1, h2, h3⟩ := h.owned x hx
    exact ⟨h1, h2, h3 ▸ hkeep _ hxo⟩
  rcases mem_append.mp hx with hxQ | hxh
  · exact hold (mem_append_left _ hxQ) (ho _ (mem_shelved_of_owned (by simpa using hxQ)))
  · rcases hown x hxh with hx' | ⟨hx', hxo⟩
    · exact hx'
    · exact hold (mem_append_right _ hx') hxo

/-- Stores outside the domain. -/
theorem frame {S : Set ℕ} (ht : Touches m m' S)
    (hS : ∀ q ∈ S, lo ≤ q → ¬ q < hi) : DomainShelf lo hi M m' dom L A Q hands where
  inv := h.inv.frame ht hS
  arena := h.arena
  arenaTag b hb p hp := by
    rw [← h.arenaTag b hb p hp]
    have hreg := h.inv.covers_region (mem_out (mem_shelved_of_arena hb hp))
      (covers_start _ _)
    exact ht.get_eq (fun hs => hS p hs hreg.1 hreg.2) _
  queue := h.queue
  owned y hy := by
    obtain ⟨h1, h2, h3⟩ := h.owned y hy
    have hreg := h.inv.covers_region (mem_out (mem_shelved_of_owned hy))
      (covers_start _ _)
    exact ⟨h1, h2, h3 ▸ ht.get_eq (fun hs => hS _ hs hreg.1 hreg.2) _⟩

/-- The hands may be reordered. -/
theorem perm (hp : hands.Perm hands') :
    DomainShelf lo hi M m dom L A Q hands' where
  inv := by
    have hperm : (shelved A dom.coreCount Q hands).Perm (shelved A dom.coreCount Q hands') :=
      ((hp.map allocBlock).append_left _).append_left _
    exact h.inv.perm (fun b hb => hperm.mem_iff.mpr hb) hperm
  arena := h.arena
  arenaTag := h.arenaTag
  queue := h.queue
  owned y hy := h.owned y ((hp.append_left Q).mem_iff.mpr hy)

end

/-- A page goes from hands into an arena. -/
theorem push (h : DomainShelf lo hi M m dom L A Q (x :: hands)) (ha : a < dom.coreCount)
    (hx : ¬ 1 < x.2) {r : RingBuffer ℕ}
    (hr : (dom.arena a).pages.push (pageToPfn x.1) = some r) :
    DomainShelf lo hi M (pageSetTag m (pageToPfn x.1) .arena)
      { dom with arena := update dom.arena a ⟨r, (dom.arena a).numPages + 1⟩ } L
      (update A a (A a ++ [pageToPfn x.1])) Q hands := by
  obtain ⟨hpos, -, htag⟩ := h.owned x (by simp)
  have hperm : (shelved A dom.coreCount Q (x :: hands)).Perm
      (allocBlock x :: shelved A dom.coreCount Q hands) := shelved_hands x _
  have hblock : allocBlock x = (pageToPfn x.1, 0) := allocBlock_single hpos hx
  have hnew : (shelved A dom.coreCount Q (x :: hands)).Perm
      (shelved (update A a (A a ++ [pageToPfn x.1])) dom.coreCount Q hands) := by
    have hp : (shelved (update A a (A a ++ [pageToPfn x.1])) dom.coreCount Q hands).Perm
        ((pageToPfn x.1, 0) :: shelved (update (update A a
          (A a ++ [pageToPfn x.1])) a (A a)) dom.coreCount Q hands) :=
      shelved_arena ha (by
        rw [update_self]
        exact perm_append_singleton _ _)
    rw [update_idem, update_eq_self] at hp
    exact hperm.trans (hblock ▸ hp.symm)
  have hne : ∀ c ∈ shelved A dom.coreCount Q hands, c.1 ≠ pageToPfn x.1 := fun c hc =>
    h.inv.start_ne hperm hc
  refine ⟨?_, fun b hb => ?_, fun b hb p hp => ?_, h.queue, fun y hy => ?_⟩
  · have hret := h.inv.retag (b := allocBlock x) (t := .arena) (hperm.mem_iff.mpr (by simp))
      (by decide)
    exact hret.perm (fun c hc => hnew.mem_iff.mpr hc) hnew
  · by_cases hba : b = a
    · subst hba
      obtain ⟨h1, h2⟩ := h.arena b hb
      simp only [update_self]
      exact ⟨h1.push hr, by simp [h2]⟩
    · simp only [update_of_ne hba]
      exact h.arena b hb
  · by_cases hpx : p = pageToPfn x.1
    · subst hpx
      simp [pageSetTag, PageTag.code, MetaField.bits]
    have hpA : p ∈ A b := by
      by_cases hba : b = a
      · subst hba
        simpa [hpx] using hp
      · rwa [update_of_ne hba] at hp
    simpa [pageSetTag, hpx] using h.arenaTag b hb p hpA
  · obtain ⟨h1, h2, h3⟩ := h.owned y (by
      rcases mem_append.mp hy with hy | hy <;> simp [hy])
    have hyx := hne _ (mem_shelved_of_owned hy)
    refine ⟨h1, h2, ?_⟩
    simp only [allocBlock] at hyx
    simpa [pageSetTag, hyx] using h3

/-- A page goes from an arena into hands. -/
theorem pop (h : DomainShelf lo hi M m dom L A Q hands) (ha : a < dom.coreCount)
    {r : RingBuffer ℕ} (hr : (dom.arena a).pages.pop = some (p, r)) :
    m.get p .tag = PageTag.arena.code ∧ 0 < p ∧ (lo ≤ p ∧ p < hi) ∧ ∃ A',
    DomainShelf lo hi M (pageSetTag m p .none)
      { dom with arena := update dom.arena a ⟨r, (dom.arena a).numPages - 1⟩ } L A' Q
      ((pfnToPage p, 1) :: hands) := by
  obtain ⟨l, hl, hholds⟩ := (h.arena a ha).1.pop hr
  have hpA : p ∈ A a := by simp [hl]
  have hmem : (p, 0) ∈ allBlocks L (shelved A dom.coreCount Q hands) [] :=
    mem_out (mem_shelved_of_arena ha hpA)
  have hperm : (shelved A dom.coreCount Q hands).Perm
      ((p, 0) :: shelved (update A a l) dom.coreCount Q hands) :=
    shelved_arena ha (List.Perm.of_eq hl)
  have hblock : allocBlock (pfnToPage p, 1) = (p, 0) := by
    rw [allocBlock, pageToPfn_pfnToPage, Nat.clog_one_right]
  have hnew := hperm.trans (hblock ▸ (shelved_hands (pfnToPage p, 1) dom.coreCount).symm)
  have hne : ∀ c ∈ shelved (update A a l) dom.coreCount Q hands, c.1 ≠ p := fun c hc =>
    h.inv.start_ne hperm hc
  refine ⟨h.arenaTag a ha p hpA, h.inv.packed.pos _ hmem,
    h.inv.covers_region hmem (covers_start _ _), update A a l,
    ?_, fun b hb => ?_, fun b hb q hq => ?_, h.queue, fun y hy => ?_⟩
  · have hret := h.inv.retag (b := (p, 0)) (t := .none) (hperm.mem_iff.mpr (by simp)) (by decide)
    exact hret.perm (fun c hc => hnew.mem_iff.mpr hc) hnew
  · by_cases hba : b = a
    · subst hba
      simp only [update_self]
      exact ⟨hholds, by simp [(h.arena b hb).2, hl]⟩
    · simp only [update_of_ne hba]
      exact h.arena b hb
  · have hqp : q ≠ p := hne _ (mem_shelved_of_arena hb hq)
    have hqA : q ∈ A b := by
      by_cases hba : b = a
      · subst hba
        rw [update_self] at hq
        simp [hl, hq]
      · rwa [update_of_ne hba] at hq
    simpa [pageSetTag, hqp] using h.arenaTag b hb q hqA
  · by_cases hyp : y = (pfnToPage p, 1)
    · subst hyp
      exact ⟨Nat.one_pos, by simp, by simp [pageSetTag, PageTag.code]⟩
    have hy' : y ∈ Q ++ hands := by simpa [hyp] using hy
    obtain ⟨h1, h2, h3⟩ := h.owned y hy'
    have hyx := hne _ (mem_shelved_of_owned hy')
    refine ⟨h1, h2, ?_⟩
    simp only [allocBlock] at hyx
    simpa [pageSetTag, hyx] using h3

variable {r : RingBuffer (ℕ × ℕ)}

/-- A block goes from hands into the queue. -/
theorem enqueue (h : DomainShelf lo hi M m dom L A Q (x :: hands))
    (hr : dom.freeQueue.queue.push x = some r) (b : Bool) :
    DomainShelf lo hi M m
      { dom with freeQueue := ⟨r, dom.freeQueue.numElements + 1, b⟩ } L A (Q ++ [x]) hands := by
  have hperm : (shelved A dom.coreCount Q (x :: hands)).Perm
      (shelved A dom.coreCount (Q ++ [x]) hands) := by
    simp only [shelved, map_append, map_cons, map_nil, append_assoc,
      singleton_append]
    exact List.Perm.refl _
  refine ⟨h.inv.perm (fun c hc => hperm.mem_iff.mpr hc) hperm, h.arena, h.arenaTag,
    ⟨h.queue.1.push hr, by simp [h.queue.2]⟩, fun y hy => h.owned y (by simpa using hy)⟩

/-- A block goes from the queue into hands. -/
theorem dequeue (h : DomainShelf lo hi M m dom L A Q hands)
    (hr : dom.freeQueue.queue.pop = some (x, r)) (b : Bool) :
    ∃ Q', DomainShelf lo hi M m
      { dom with freeQueue := ⟨r, dom.freeQueue.numElements - 1, b⟩ } L A Q' (x :: hands) := by
  obtain ⟨Q', rfl, hholds⟩ := h.queue.1.pop hr
  have hperm : (shelved A dom.coreCount (x :: Q') hands).Perm
      (shelved A dom.coreCount Q' (x :: hands)) := shelved_queue x _
  refine ⟨Q', h.inv.perm (fun c hc => hperm.mem_iff.mpr hc) hperm, h.arena, h.arenaTag,
    ⟨hholds, by simp [h.queue.2]⟩, fun y hy => h.owned y ?_⟩
  simp only [mem_append, mem_cons] at hy ⊢
  tauto

end DomainShelf

end Moves

/-! ### All domains of a machine -/

/-- What stays fixed during a run: the domains and their bounds, the cores and their arenas, and
the frames that each domain manages. -/
structure Layout where
  count : ℕ
  bound : ℕ → ℕ
  cores : ℕ → ℕ
  coreDomain : ℕ → ℕ
  coreArena : ℕ → ℕ
  managed : ℕ → Set ℕ
  mono : Monotone bound
  core_ok : ∀ c, coreDomain c < count ∧ coreArena c < cores (coreDomain c)

/-- The machine is laid out as `y` says. -/
structure Layout.Fits (y : Layout) (s : Machine) : Prop where
  partition : Partition s y.bound
  count : s.domainCount = y.count
  cores : ∀ d < y.count, (s.domain d).coreCount = y.cores d
  coreDomain : s.coreDomain = y.coreDomain
  coreArena : s.coreArena = y.coreArena
  zonelist : ∀ d < y.count, ∀ e ∈ (s.domain d).zonelist, e.domain < y.count

/-- Every domain has its pages on its shelf, `hands d` being the allocations of domain `d` in
hands. -/
structure Shelves (y : Layout) (hands : ℕ → List (ℕ × ℕ)) (s : Machine) : Prop where
  fits : y.Fits s
  shelf : ∀ d < y.count, ∃ L A Q, DomainShelf (y.bound d) (y.bound (d + 1)) (y.managed d) s.mem
    (s.domain d) L A Q (hands d)

/-- The data of a domain that no call changes. -/
def SameShape (dom dom' : DomainBuddy) : Prop :=
  dom'.start = dom.start ∧ dom'.stop = dom.stop ∧ dom'.length = dom.length ∧
    dom'.totalPages = dom.totalPages ∧ dom'.coreCount = dom.coreCount ∧ dom'.zonelist = dom.zonelist

section Machine

variable {y : Layout} {hands : ℕ → List (ℕ × ℕ)} {s s' : Machine} {d a : ℕ} {x : ℕ × ℕ}
  {m' : PageMem} {dom' : DomainBuddy} {page : Option ℕ}

theorem update_hold (l : List (ℕ × ℕ)) :
    update (hold hands d x) d l = update hands d l := update_idem ..

theorem Layout.Fits.step (h : y.Fits s) (hlast : m'.lastPfn = s.mem.lastPfn)
    (hshape : SameShape (s.domain d) dom') :
    y.Fits { s with mem := m', domain := update s.domain d dom' } := by
  have hsame : ∀ e, SameShape (s.domain e) (update s.domain d dom' e) := by
    intro e
    by_cases hed : e = d
    · subst hed
      rwa [update_self]
    · rw [update_of_ne hed]
      exact ⟨rfl, rfl, rfl, rfl, rfl, rfl⟩
  refine ⟨⟨h.partition.mono, h.partition.first, h.partition.last.trans hlast.symm, fun e he => ?_,
    fun e he => ?_⟩, h.count, fun e he => ?_, h.coreDomain, h.coreArena, fun e he z hz => ?_⟩
  · obtain ⟨h1, h2, h3, -⟩ := hsame e
    simp only [h1, h2, h3]
    exact h.partition.span e he
  · obtain ⟨-, -, h3, h4, -⟩ := hsame e
    simp only [h3, h4]
    exact h.partition.total e he
  · exact (hsame e).2.2.2.2.1.trans (h.cores e he)
  · simp only [(hsame e).2.2.2.2.2] at hz
    exact h.zonelist e he z hz

/-- A step on one domain, storing to its own pages only. -/
theorem Shelves.step (h : Shelves y hands s) {L A : ℕ → List ℕ} {Q l : List (ℕ × ℕ)}
    (hd : DomainShelf (y.bound d) (y.bound (d + 1)) (y.managed d) m' dom' L A Q l)
    (ht : Touches s.mem m' (domainFrames y.bound d)) (hshape : SameShape (s.domain d) dom') :
    Shelves y (update hands d l)
      { s with mem := m', domain := update s.domain d dom' } := by
  refine ⟨h.fits.step ht.lastPfn hshape, fun e he => ?_⟩
  by_cases hed : e = d
  · subst hed
    exact ⟨L, A, Q, by simpa using hd⟩
  obtain ⟨L, A, Q, hs⟩ := h.shelf e he
  refine ⟨L, A, Q, ?_⟩
  simp only [update_of_ne hed]
  exact hs.frame ht fun q hq h1 h2 =>
    domainFrames_disjoint y.mono (Ne.symm hed) hq ⟨h1, h2⟩

theorem Shelves.perm (h : Shelves y hands s) {hands' : ℕ → List (ℕ × ℕ)}
    (hp : ∀ d < y.count, (hands d).Perm (hands' d)) : Shelves y hands' s :=
  ⟨h.fits, fun d hd => by
    obtain ⟨L, A, Q, hs⟩ := h.shelf d hd
    exact ⟨L, A, Q, hs.perm (hp d hd)⟩⟩

/-! ### What the primitives do -/

theorem domainArenaPush_ok {ok : Bool} (h : (domainArenaPush d a page).run s = .ok (ok, s')) :
    ∃ q, page = some q ∧
      ((ok = false ∧ ((s.domain d).arena a).pages.Full ∧ s' = s) ∨
        (ok = true ∧ ∃ r, ((s.domain d).arena a).pages.push q = some r ∧
          s' = (s.setTag q .arena).setArena d a
            ⟨r, ((s.domain d).arena a).numPages + 1⟩)) := by
  simp only [StateT.run, domainArenaPush] at h
  cases page with
  | none => cases h
  | some q =>
    refine ⟨q, rfl, ?_⟩
    simp only [derefPage, bind, Except.bind] at h
    cases htag : pageAssertTag s.mem q .none with
    | error e => rw [htag] at h; cases h
    | ok u =>
      rw [htag] at h
      cases hr : ((s.domain d).arena a).pages.push q with
      | none =>
        rw [hr] at h
        obtain ⟨⟩ := h
        exact Or.inl ⟨rfl, RingBuffer.Holds.push_none hr, rfl⟩
      | some r =>
        rw [hr] at h
        obtain ⟨⟩ := h
        exact Or.inr ⟨rfl, r, rfl, rfl⟩

/-- A push moves the page from hands into the arena, or fails and changes nothing. -/
theorem domainArenaPush_triple (hd : d < y.count) (ha : a < y.cores d) (hx : ¬ 1 < x.2)
    (hpage : ∀ q, page = some q → q = pageToPfn x.1) :
    Triple (Shelves y (hold hands d x)) (domainArenaPush d a page)
      (fun ok => Shelves y (if ok then hands else hold hands d x)) := by
  intro s h ok s' hres
  obtain ⟨q, hq, ⟨rfl, -, rfl⟩ | ⟨rfl, r, hr, rfl⟩⟩ := domainArenaPush_ok hres
  · exact h
  obtain rfl := hpage q hq
  obtain ⟨L, A, Q, hs⟩ := h.shelf d hd
  rw [hold_self] at hs
  have ha' : a < (s.domain d).coreCount := by rwa [h.fits.cores d hd]
  have hreg := hs.inv.covers_region (mem_out (mem_shelved_of_owned (x := x) (by simp)))
    (covers_start _ _)
  have hstep := h.step (hs.push ha' hx hr) (Touches.set _ hreg _ _) ⟨rfl, rfl, rfl, rfl, rfl, rfl⟩
  rw [update_hold, update_eq_self] at hstep
  exact hstep

theorem domainArenaPop_triple (hd : d < y.count) (ha : a < y.cores d) :
    Triple (Shelves y hands) (domainArenaPop d a) fun ret s =>
      match ret with
      | none => Shelves y hands s
      | some p => 0 < p ∧ p ∈ domainFrames y.bound d ∧
          Shelves y (hold hands d (pfnToPage p, 1)) s := by
  intro s h ret s' hres
  simp only [StateT.run, domainArenaPop] at hres
  obtain ⟨L, A, Q, hs⟩ := h.shelf d hd
  have ha' : a < (s.domain d).coreCount := by rwa [h.fits.cores d hd]
  cases hr : ((s.domain d).arena a).pages.pop with
  | none =>
    rw [hr] at hres
    obtain ⟨⟩ := hres
    exact h
  | some pr =>
    obtain ⟨p, r⟩ := pr
    obtain ⟨htag, hpos, hreg, A', hs'⟩ := hs.pop ha' hr
    rw [hr] at hres
    simp only [pageAssertTag_ok htag, bind, Except.bind, pure, Except.pure] at hres
    obtain ⟨⟩ := hres
    exact ⟨hpos, hreg, h.step hs' (Touches.set _ hreg _ _) ⟨rfl, rfl, rfl, rfl, rfl, rfl⟩⟩

theorem domainFreeQueueEnqueue_triple (hd : d < y.count) :
    Triple (Shelves y (hold hands d x)) (domainFreeQueueEnqueue d x.1 x.2)
      (fun ok => Shelves y (if ok then hands else hold hands d x)) := by
  intro s h ok s' hres
  simp only [StateT.run, domainFreeQueueEnqueue] at hres
  obtain ⟨L, A, Q, hs⟩ := h.shelf d hd
  rw [hold_self] at hs
  cases hr : (s.domain d).freeQueue.queue.push (x.1, x.2) with
  | none =>
    rw [hr] at hres
    obtain ⟨⟩ := hres
    exact h
  | some r =>
    rw [hr] at hres
    obtain ⟨⟩ := hres
    have hstep := h.step (hs.enqueue hr (s.domain d).freeQueue.freeInProgress) (Touches.refl _ _)
      ⟨rfl, rfl, rfl, rfl, rfl, rfl⟩
    rw [update_hold, update_eq_self] at hstep
    exact hstep

theorem domainFreeQueueDequeue_ok {ret : Option (ℕ × ℕ)}
    (h : (domainFreeQueueDequeue d).run s = .ok (ret, s')) :
    (ret = none ∧ s' = s) ∨ ∃ x r, ret = some x ∧ (s.domain d).freeQueue.queue.pop = some (x, r) ∧
      s' = s.setFreeQueue d ⟨r, (s.domain d).freeQueue.numElements - 1,
        (s.domain d).freeQueue.freeInProgress⟩ := by
  simp only [StateT.run, domainFreeQueueDequeue] at h
  cases hr : (s.domain d).freeQueue.queue.pop with
  | none =>
    rw [hr] at h
    obtain ⟨⟩ := h
    exact Or.inl ⟨rfl, rfl⟩
  | some xr =>
    rw [hr] at h
    obtain ⟨⟩ := h
    exact Or.inr ⟨xr.1, xr.2, rfl, rfl, rfl⟩

theorem domainFreeQueueDequeue_triple (hd : d < y.count) :
    Triple (Shelves y hands) (domainFreeQueueDequeue d) fun ret s =>
      match ret with
      | none => Shelves y hands s
      | some x => x.1 ≠ 0 ∧ Shelves y (hold hands d x) s := by
  intro s h ret s' hres
  obtain ⟨rfl, rfl⟩ | ⟨x, r, rfl, hr, rfl⟩ := domainFreeQueueDequeue_ok hres
  · exact h
  obtain ⟨L, A, Q, hs⟩ := h.shelf d hd
  obtain ⟨Q', hs'⟩ := hs.dequeue hr (s.domain d).freeQueue.freeInProgress
  refine ⟨?_, h.step hs' (Touches.refl _ _) ⟨rfl, rfl, rfl, rfl, rfl, rfl⟩⟩
  have hpos := hs'.inv.packed.pos _ (mem_out (mem_shelved_of_owned (x := x) (by simp)))
  rw [(hs'.owned x (by simp)).2.1, pfnToPage, pageSize]
  simp only [allocBlock] at hpos
  omega

theorem allocFromBuddyInternal_triple (hd : d < y.count) {pages : ℕ} :
    Triple (Shelves y hands) (allocFromBuddyInternal d pages) fun ret s =>
      ret ≠ 0 ∧ pageToPfn ret ∈ domainFrames y.bound d ∧ Shelves y (hold hands d (ret, pages)) s :=
        by
  intro s h ret s' hres
  obtain ⟨L, A, Q, hs⟩ := h.shelf d hd
  obtain ⟨b, used, hbuddy, rfl⟩ := allocFromBuddyInternal_ok hres
  obtain ⟨p, L', rfl, hinv, htag, -, ht⟩ := buddyAllocPages_spec hs.inv hbuddy
  have hmem : (p, Nat.clog 2 pages) ∈ allBlocks L'
      ((p, Nat.clog 2 pages) :: shelved A (s.domain d).coreCount Q (hands d)) [] :=
    mem_out (by simp)
  have hreg := hinv.covers_region hmem (covers_start _ _)
  have hpos : 0 < p := hinv.packed.pos _ hmem
  have hpages : 0 < pages := by
    by_contra h0
    rw [buddyAllocPages, if_pos (by omega)] at hbuddy
    cases hbuddy
  have hperm : ((p, Nat.clog 2 pages) :: shelved A (s.domain d).coreCount Q (hands d)).Perm
      (shelved A (s.domain d).coreCount Q ((pfnToPage p, pages) :: hands d)) := by
    have hblock : allocBlock (pfnToPage p, pages) = (p, Nat.clog 2 pages) := by
      rw [allocBlock, pageToPfn_pfnToPage]
    rw [← hblock]
    exact (shelved_hands _ _).symm
  refine ⟨?_, by rw [pageToPfn_pfnToPage]; exact hreg, ?_⟩
  · rw [pfnToPage, pageSize]
    omega
  have hnew := hs.rebuddy used (hinv.perm (fun c hc => hperm.mem_iff.mpr hc) hperm) ht
    (fun c hc => ?_) fun x hx => ?_
  · exact h.step hnew (ht.mono (Scope_subset_domainFrames _)) ⟨rfl, rfl, rfl, rfl, rfl, rfl⟩
  · rcases mem_append.mp hc with hc | hc
    · exact mem_append_left _ hc
    · exact mem_append_right _ (mem_append_left _ (by simpa using hc))
  · rcases mem_cons.mp hx with rfl | hx
    · exact Or.inl ⟨hpages, by simp, by simpa using htag⟩
    · exact Or.inr ⟨hx, mem_shelved_of_owned (mem_append_right _ hx)⟩

/-- The buddies of a block of order below `n` lie in the same aligned run of `2 ^ n` frames. -/
theorem sibling_div {p k n : ℕ} (hk : k < n) : sibling p k / 2 ^ n = p / 2 ^ n := by
  rw [sibling, Nat.xor_div_two_pow, Nat.div_eq_of_lt (Nat.pow_lt_pow_right (by omega) hk),
    Nat.xor_zero]

/-- No buddy of a frame of the domain lies below the domain: it starts at frame `0`, or at a
multiple of the largest block, or has no frame below its own page count. -/
def StartsWell (lo hi : ℕ) : Prop := lo = 0 ∨ 2 ^ (buddyMaxOrder - 1) ∣ lo ∨ hi - lo ≤ lo

theorem mergeInside_of_startsWell {lo hi : ℕ} (h : StartsWell lo hi) (m : PageMem)
    {fuel p k : ℕ} (hfuel : fuel + k ≤ buddyMaxOrder - 1) (hlo : lo ≤ p) (hp : p < hi - lo) :
    MergeInside m lo hi (hi - lo) fuel p k := by
  induction fuel generalizing p k with
  | zero => trivial
  | succ fuel ih =>
    intro hlt
    have hge : lo ≤ sibling p k := by
      rcases h with rfl | hdvd | hle
      · exact Nat.zero_le _
      · obtain ⟨c, rfl⟩ := hdvd
        have hc : c ≤ sibling p k / 2 ^ (buddyMaxOrder - 1) := by
          rw [sibling_div (by omega)]
          exact (Nat.le_div_iff_mul_le (by positivity)).mpr (by rwa [mul_comm])
        rw [mul_comm]
        exact (Nat.le_div_iff_mul_le (by positivity)).mp hc
      · omega
    exact ⟨⟨hge, by omega⟩, fun _ _ => ih (by omega) (le_min hlo hge) (by omega)⟩

/-- Every domain starts well. -/
def Layout.StartsWell (y : Layout) : Prop :=
  ∀ d < y.count, Mem.StartsWell (y.bound d) (y.bound (d + 1))

theorem buddyFreePages_lt {b b' : BuddyState} {addr count total : ℕ} (ha : addr ≠ 0)
    (hc : count ≠ 0) (h : buddyFreePages b addr count total = .ok b') : pageToPfn addr < total := by
  rw [buddyFreePages, if_neg (by omega)] at h
  by_contra hge
  simp only [enforce, hge, decide_false, Bool.false_eq_true, ↓reduceIte, bind, Except.bind] at h
  cases h

/-- A free to the buddy that returns takes the block from hands. -/
theorem freeFromBuddyInternal_triple (hy : y.StartsWell) (hd : d < y.count) :
    Triple (Shelves y (hold hands d x)) (freeFromBuddyInternal d x.1 x.2)
      (fun _ => Shelves y hands) := by
  intro s h u s' hres
  obtain ⟨L, A, Q, hs⟩ := h.shelf d hd
  rw [hold_self] at hs
  obtain ⟨b, hfree, rfl⟩ := freeFromBuddyInternal_ok_iff.mp hres
  generalize ((s.domain d).pagesUsed + 2 ^ 64 - x.2 % 2 ^ 64) % 2 ^ 64 = used
  obtain ⟨hpos, haddr, htag⟩ := hs.owned x (by simp)
  have hspan := h.fits.partition.span d (h.fits.count ▸ hd)
  have htotal := h.fits.partition.total d (h.fits.count ▸ hd)
  simp only [spanOf, DomainSpan.mk.injEq] at hspan
  rw [hspan.2.2] at htotal
  have htotal' : (s.domain d).totalPages = y.bound (d + 1) - y.bound d :=
    htotal.trans (pageToPfn_pfnToPage _)
  have hperm : (shelved A (s.domain d).coreCount Q (x :: hands d)).Perm
      (allocBlock x :: shelved A (s.domain d).coreCount Q (hands d)) := shelved_hands x _
  have hinv : BuddyInv False (y.bound d) (y.bound (d + 1)) (y.managed d) (s.buddy d) L
      (allocBlock x :: shelved A (s.domain d).coreCount Q (hands d)) [] :=
    hs.inv.perm (fun c hc => hperm.mem_iff.mpr hc) hperm
  have hmem : allocBlock x ∈ allBlocks L
      (allocBlock x :: shelved A (s.domain d).coreCount Q (hands d)) [] :=
    mem_out (by simp)
  have hreg : y.bound d ≤ pageToPfn x.1 ∧ pageToPfn x.1 < y.bound (d + 1) :=
    hinv.covers_region hmem (covers_start _ _)
  have hx0 : x.1 ≠ 0 := by
    have hp : 0 < pageToPfn x.1 := hinv.packed.pos _ hmem
    rw [haddr, pfnToPage, pageSize]
    omega
  have hord : Nat.clog 2 x.2 < buddyMaxOrder := hinv.packed.order_lt _ hmem
  have hlt := buddyFreePages_lt hx0 (by omega) hfree
  rw [htotal'] at hlt hfree
  have hin := mergeInside_of_startsWell (hy d hd) s.mem (k := Nat.clog 2 x.2)
    (show buddyMaxOrder - 1 - Nat.clog 2 x.2 + Nat.clog 2 x.2 ≤ buddyMaxOrder - 1 by omega)
    hreg.1 hlt
  obtain ⟨b', L', hfree', hinv', -, ht, -⟩ := buddyFreePages_spec hpos hinv htag hlt hin False.elim
  rw [← haddr, hfree] at hfree'
  obtain ⟨⟩ := hfree'
  have hnew := hs.rebuddy used hinv' ht (fun c hc => ?_) fun z hz => Or.inr
    ⟨mem_cons_of_mem _ hz, mem_shelved_of_owned (mem_append_right _ hz)⟩
  · have hstep := h.step hnew (ht.mono (Scope_subset_domainFrames _)) ⟨rfl, rfl, rfl, rfl, rfl, rfl⟩
    rw [update_hold, update_eq_self] at hstep
    exact hstep
  · rcases mem_append.mp hc with hc | hc
    · exact mem_append_left _ hc
    · exact mem_append_right _ (mem_append_left _ (by simpa using hc))

end Machine

end Charmos.Mem
