import Charmos.Mem.Domain.Shelf

/-!
# Conservation of pages

Every call of the domain layer moves blocks between hands, arenas, free queues and buddies. The
triples of this file say, function by function, that a call which returns has lost none. The only
exception is `flush_free_queue_internal`, which moves on to the next arena when the current one is
full, and does not check that the push to the new one succeeded: `find_non_full_arena` compares
`num_pages` with `capacity`, but a ring of `capacity` slots holds one page less, so it takes a
full arena for one with room. `RoundRoom` says that this does not happen in a round of the flush.
-/

namespace Charmos.Mem

open DyadicBlock Except List Option Relation Triple Prod

/-- What an allocation leaves behind: nothing new in hands if it returns `0`, and otherwise the
allocation, from the domain its address lies in. -/
def Served (y : Layout) (hands : ℕ → List (ℕ × ℕ)) (pages ret : ℕ) (s : Machine) : Prop :=
  (ret = 0 ∧ Shelves y hands s) ∨ (ret ≠ 0 ∧ ∃ d < y.count,
    pageToPfn ret ∈ domainFrames y.bound d ∧ Shelves y (hold hands d (ret, pages)) s)

section Triples

variable {y : Layout} {hands : ℕ → List (ℕ × ℕ)} {s s' : Machine} {d a core pages : ℕ} {x : ℕ × ℕ}
  {entries : List DomainZonelistEntry} {idx : ℕ} {current : Option ℕ} {arenas : List ℕ} {u : Unit}
  {dom : DomainBuddy}

/-! ### Freeing -/

theorem buddyPageForAddr_triple (P : Machine → Prop) (addr : ℕ) :
    Triple P (buddyPageForAddr addr)
      (fun page s => P s ∧ ∀ q, page = some q → q = pageToPfn addr) := by
  intro s hs page s' hres
  obtain ⟨⟩ := hres
  refine ⟨hs, fun q hq => ?_⟩
  rw [pageForPfn] at hq
  split_ifs at hq
  exact (some.inj hq).symm

theorem tryPushPageOntoArena_triple (hd : d < y.count) (ha : a < y.cores d) (hx : ¬ 1 < x.2) :
    Triple (Shelves y (hold hands d x)) (tryPushPageOntoArena d a x.1)
      (fun ok => Shelves y (if ok then hands else hold hands d x)) :=
  (buddyPageForAddr_triple _ _).bind fun _ =>
    of_fact fun hpage => domainArenaPush_triple hd ha hx hpage

theorem pushOntoArenas_triple (hd : d < y.count) (hx : ¬ 1 < x.2) {page : Option ℕ}
    (hpage : ∀ q, page = some q → q = pageToPfn x.1) (ha : ∀ a ∈ arenas, a < y.cores d) :
    Triple (Shelves y (hold hands d x)) (pushOntoArenas d page arenas)
      (fun ok => Shelves y (if ok then hands else hold hands d x)) := by
  induction arenas with
  | nil => exact pure fun _ h => h
  | cons a arenas ih =>
    refine (domainArenaPush_triple hd (ha a (by simp)) hx hpage).bind fun ok => ?_
    cases ok with
    | true => exact pure fun _ h => h
    | false => exact ih fun b hb => ha b (mem_cons_of_mem _ hb)

theorem tryPushPageOntoDomainArenas_triple (hd : d < y.count) (hx : ¬ 1 < x.2) :
    Triple (Shelves y (hold hands d x)) (tryPushPageOntoDomainArenas d x.1)
      (fun ok => Shelves y (if ok then hands else hold hands d x)) := by
  refine (buddyPageForAddr_triple _ _).bind fun page => of_fact fun hpage => ?_
  refine get_bind fun s₀ h₀ => pushOntoArenas_triple hd hx hpage fun a ha => ?_
  rw [← h₀.fits.cores d hd]
  exact mem_range.mp ha

theorem freeFromLocalDomainBuddy_triple (hy : y.StartsWell) (hd : d < y.count)
    (hcore : y.coreDomain core = d) :
    Triple (Shelves y (hold hands d x)) (freeFromLocalDomainBuddy core d x.1 x.2)
      (fun _ => Shelves y hands) := by
  refine ite (fun _ => freeFromBuddyInternal_triple hy hd) fun hx => ?_
  refine get_bind fun s₀ h₀ => ?_
  have ha : y.coreArena core < y.cores d := hcore ▸ (y.core_ok core).2
  rw [h₀.fits.coreDomain, h₀.fits.coreArena, hcore]
  refine (tryPushPageOntoArena_triple hd ha hx).bind fun ok => ?_
  cases ok with
  | true => exact pure fun _ h => h
  | false =>
    refine (tryPushPageOntoDomainArenas_triple hd hx).bind fun ok => ?_
    cases ok with
    | true => exact pure fun _ h => h
    | false => exact freeFromBuddyInternal_triple hy hd

theorem freeFromRemoteDomainBuddy_triple (hy : y.StartsWell) (hd : d < y.count) :
    Triple (Shelves y (hold hands d x)) (freeFromRemoteDomainBuddy d x.1 x.2)
      (fun _ => Shelves y hands) := by
  refine (domainFreeQueueEnqueue_triple hd).bind fun ok => ?_
  cases ok with
  | true => exact pure fun _ h => h
  | false =>
    change Triple (Shelves y (hold hands d x)) (if 1 < x.2 then _ else _) _
    refine ite (fun _ => freeFromBuddyInternal_triple hy hd) fun hx => ?_
    refine (tryPushPageOntoDomainArenas_triple hd hx).bind fun ok => ?_
    cases ok with
    | true => exact pure fun _ h => h
    | false => exact freeFromBuddyInternal_triple hy hd

/-- `domain_buddy_for_addr` finds the domain that a block in hands was taken from. -/
theorem Shelves.target_eq (h : Shelves y (hold hands d x) s) (hd : d < y.count) {e : ℕ}
    (he : domainBuddyForAddr s x.1 = some e) : e = d := by
  obtain ⟨L, A, Q, hs⟩ := h.shelf d hd
  have hreg : pageToPfn x.1 ∈ domainFrames y.bound d :=
    hs.inv.covers_region (BuddyInv.mem_out (mem_shelved_of_owned (x := x) (by simp)))
      (covers_start _ _)
  rw [(hs.owned x (by simp)).2.1, h.fits.partition.domainBuddyForAddr_eq] at he
  by_contra hne
  exact domainFrames_disjoint y.mono hne he.2 hreg

/-- The first part of `domain_free` puts the block away. -/
theorem freeToTarget_triple (hy : y.StartsWell) (hd : d < y.count) :
    Triple (Shelves y (hold hands d x)) (freeToTarget core x.1 x.2)
      (fun _ => Shelves y hands) := by
  refine get_bind fun s₀ h₀ => ?_
  cases he : domainBuddyForAddr s₀ x.1 with
  | none => exact fail _
  | some e =>
    obtain rfl := h₀.target_eq hd he
    refine ite (fun hcore => ?_) fun _ => freeFromRemoteDomainBuddy_triple hy hd
    rw [h₀.fits.coreDomain] at hcore
    exact freeFromLocalDomainBuddy_triple hy hd hcore

/-! ### Allocating -/

theorem flushFreequeueIntoLocalArena_triple (hy : y.StartsWell) (hd : d < y.count)
    (ha : a < y.cores d) (quota : ℕ) :
    Triple (Shelves y hands) (flushFreequeueIntoLocalArena d a quota)
      (fun _ => Shelves y hands) := by
  induction quota with
  | zero => exact pure fun _ h => h
  | succ quota ih =>
    refine (domainFreeQueueDequeue_triple hd).bind fun ret => ?_
    cases ret with
    | none => exact pure fun _ h => h
    | some x =>
      refine pre ?_ fun _ h => h.2
      refine ite (fun _ => (freeFromBuddyInternal_triple hy hd).bind fun _ => ih) fun hx => ?_
      refine (tryPushPageOntoArena_triple hd ha hx).bind fun ok => ?_
      cases ok with
      | true => exact ih
      | false => exact (freeFromBuddyInternal_triple hy hd).bind fun _ => ih

theorem served_page {p : ℕ} (hd : d < y.count) (hpages : pages = 1) (hp : 0 < p)
    (hf : p ∈ domainFrames y.bound d) (h : Shelves y (hold hands d (pfnToPage p, 1)) s) :
    Served y hands pages (pfnToPage p) s := by
  refine .inr ⟨?_, d, hd, by rwa [pageToPfn_pfnToPage], hpages ▸ h⟩
  rw [pfnToPage, pageSize]
  omega

/-- Try one source, and the next if it has nothing. -/
theorem served_orElse {f g : MachineM ℕ} (hf : Triple (Shelves y hands) f (Served y hands pages))
    (hg : Triple (Shelves y hands) g (Served y hands pages)) :
    Triple (Shelves y hands) (f >>= fun ret => if ret ≠ 0 then pure ret else g)
      (Served y hands pages) := by
  refine hf.bind fun ret => ite (fun _ => pure fun _ h => h) fun h0 => ?_
  refine hg.pre fun s h => ?_
  rcases h with ⟨-, h⟩ | ⟨hne, -⟩
  · exact h
  · exact absurd hne h0

theorem popFromArenas_triple (hd : d < y.count) (hpages : pages = 1)
    (ha : ∀ a ∈ arenas, a < y.cores d) :
    Triple (Shelves y hands) (popFromArenas d arenas) (Served y hands pages) := by
  induction arenas with
  | nil => exact pure fun _ h => .inl ⟨rfl, h⟩
  | cons a arenas ih =>
    refine (domainArenaPop_triple hd (ha a (by simp))).bind fun ret => ?_
    cases ret with
    | none => exact ih fun b hb => ha b (mem_cons_of_mem _ hb)
    | some p => exact pure fun _ h => served_page hd hpages h.1 h.2.1 h.2.2

theorem tryAllocFromRemoteArenas_triple (hd : d < y.count) (hpages : 0 < pages) :
    Triple (Shelves y hands) (tryAllocFromRemoteArenas d pages) (Served y hands pages) := by
  refine ite (fun _ => pure fun _ h => .inl ⟨rfl, h⟩) fun h1 => ?_
  refine get_bind fun s₀ h₀ => popFromArenas_triple hd (by omega) fun a ha => ?_
  rw [← h₀.fits.cores d hd]
  exact mem_range.mp ha

theorem allocFromBuddyInternal_served (hd : d < y.count) :
    Triple (Shelves y hands) (allocFromBuddyInternal d pages) (Served y hands pages) :=
  (allocFromBuddyInternal_triple hd).post fun _ _ h => .inr ⟨h.1, d, hd, h.2.1, h.2.2⟩

theorem allocFromRemoteDomain_triple (hd : d < y.count) (hpages : 0 < pages) :
    Triple (Shelves y hands) (allocFromRemoteDomain d pages) (Served y hands pages) :=
  served_orElse (tryAllocFromRemoteArenas_triple hd hpages) (allocFromBuddyInternal_served hd)

theorem tryAllocFromFreeQueue_triple (hy : y.StartsWell) (hd : d < y.count) (ha : a < y.cores d)
    (hpages : pages = 1) :
    Triple (Shelves y hands) (tryAllocFromFreeQueue d a) (Served y hands pages) := by
  refine get_bind fun s₀ _ => ite (fun _ => ?_) fun _ =>
    pure fun _ h => .inl ⟨rfl, h⟩
  refine (flushFreequeueIntoLocalArena_triple hy hd ha _).bind fun _ => ?_
  refine (domainArenaPop_triple hd ha).bind fun ret => ?_
  cases ret with
  | none => exact pure fun _ h => .inl ⟨rfl, h⟩
  | some p => exact pure fun _ h => served_page hd hpages h.1 h.2.1 h.2.2

theorem tryAllocFromArenas_triple (hy : y.StartsWell) (hpages : 0 < pages) :
    Triple (Shelves y hands) (tryAllocFromArenas core pages) (Served y hands pages) := by
  refine ite (fun _ => pure fun _ h => .inl ⟨rfl, h⟩) fun h1 => ?_
  refine get_bind fun s₀ h₀ => ?_
  obtain ⟨hd, ha⟩ := y.core_ok core
  rw [h₀.fits.coreDomain, h₀.fits.coreArena]
  refine (domainArenaPop_triple hd ha).bind fun ret => ?_
  cases ret with
  | none =>
    exact served_orElse (tryAllocFromFreeQueue_triple hy hd ha (by omega))
      (tryAllocFromRemoteArenas_triple hd hpages)
  | some p => exact pure fun _ h => served_page hd (by omega) h.1 h.2.1 h.2.2

theorem doAllocInterleaved_triple (hy : y.StartsWell) (hd : d < y.count) (hpages : 0 < pages) :
    Triple (Shelves y hands) (doAllocInterleaved core d pages) (Served y hands pages) := by
  refine get_bind fun s₀ _ => ite (fun _ => ?_) fun _ =>
    allocFromRemoteDomain_triple hd hpages
  exact served_orElse (tryAllocFromArenas_triple hy hpages) (allocFromBuddyInternal_served hd)

theorem Shelves.setRr (h : Shelves y hands s) (rr : ℕ → ℕ) :
    Shelves y hands { s with rrCurrentDomain := rr } :=
  ⟨⟨{ h.fits.partition with }, h.fits.count, h.fits.cores, h.fits.coreDomain, h.fits.coreArena,
    h.fits.zonelist⟩, h.shelf⟩

theorem allocInterleaved_triple (hy : y.StartsWell) (hpages : 0 < pages) :
    Triple (Shelves y hands) (allocInterleaved core pages) (Served y hands pages) := by
  refine get_bind fun s₀ h₀ => ?_
  have hzl := h₀.fits.zonelist _ (y.core_ok core).1
  rw [← h₀.fits.coreDomain] at hzl
  set zl := (s₀.domain (s₀.coreDomain core)).zonelist
  simp only
  cases hentry : zl[s₀.rrCurrentDomain core % zl.length]? with
  | none => exact fail _
  | some entry =>
    have hd := hzl entry (mem_of_getElem? hentry)
    have htry : Triple (Shelves y hands) (tryInterleaved core entry.domain pages)
        (Served y hands pages) :=
      get_bind fun _ _ => ite (fun _ => doAllocInterleaved_triple hy hd hpages)
        fun _ => pure fun _ h => .inl ⟨rfl, h⟩
    refine htry.bind fun ret => ?_
    refine bind (Q := fun _ => Served y hands pages ret) (modify fun s h => ?_)
      fun _ => pure fun _ h => h
    rcases h with ⟨h0, h⟩ | ⟨h0, d, hd, hf, h⟩
    · exact .inl ⟨h0, h.setRr _⟩
    · exact .inr ⟨h0, d, hd, hf, h.setRr _⟩

theorem zonelistAllocFallback_triple (hpages : 0 < pages) (best : ℕ)
    (he : ∀ e ∈ entries, e.domain < y.count) :
    Triple (Shelves y hands) (zonelistAllocFallback best pages entries)
      (Served y hands pages) := by
  induction entries with
  | nil => exact pure fun _ h => .inl ⟨rfl, h⟩
  | cons e entries ih =>
    have ih' := ih fun z hz => he z (mem_cons_of_mem _ hz)
    exact ite (fun _ => ih') fun _ =>
      served_orElse (allocFromRemoteDomain_triple (he e (by simp)) hpages) ih'

/-- The domain chosen is that of an entry scanned. -/
theorem pickBestDomain_mem {flexible : Bool} {best : ℕ}
    (h : pickBestDomain s pages flexible entries = some best) : ∃ e ∈ entries, e.domain = best := by
  rw [pickBestDomain] at h
  generalize hstep : (fun (best : Option (ℕ × ℤ)) (entry : DomainZonelistEntry) => _) = step at h
  have hfold : ∀ (es : List DomainZonelistEntry) (b : Option (ℕ × ℤ)) (c : ℕ × ℤ),
      es.foldl step b = some c → b = some c ∨ ∃ e ∈ es, e.domain = c.1 := by
    intro es
    induction es with
    | nil => exact fun b c hc => .inl hc
    | cons e es ih =>
      intro b c hc
      rcases ih (step b e) c hc with hb | ⟨z, hz, hzc⟩
      · rw [← hstep] at hb
        simp only at hb
        split_ifs at hb with hfree
        · exact .inl hb
        cases b with
        | none =>
          obtain ⟨⟩ := hb
          exact .inr ⟨e, by simp, rfl⟩
        | some bb =>
          simp only at hb
          split_ifs at hb with hlt
          · obtain ⟨⟩ := hb
            exact .inr ⟨e, by simp, rfl⟩
          · exact .inl hb
      · exact .inr ⟨z, mem_cons_of_mem _ hz, hzc⟩
  obtain ⟨c, hc, rfl⟩ := map_eq_some_iff.mp h
  rcases hfold entries none c hc with hn | he
  · cases hn
  · exact he

theorem allocWithLocality_triple (hpages : 0 < pages) (flexible : Bool) (degree : ℕ) :
    Triple (Shelves y hands) (allocWithLocality core pages flexible degree)
      (Served y hands pages) := by
  refine get_bind fun s₀ h₀ => ?_
  have hzl := h₀.fits.zonelist _ (y.core_ok core).1
  rw [← h₀.fits.coreDomain] at hzl
  set zl := (s₀.domain (s₀.coreDomain core)).zonelist
  simp only
  generalize (if flexible = true then zl.length else
    deriveMaxScanFromZonelist zl.length degree) = maxScan
  have hscan : ∀ e ∈ zl.take maxScan, e.domain < y.count := fun e he =>
    hzl e (mem_of_mem_take he)
  cases hbest : pickBestDomain s₀ pages flexible (zl.take maxScan) with
  | none => exact fail _
  | some best =>
    obtain ⟨e, he, rfl⟩ := pickBestDomain_mem hbest
    refine served_orElse (allocFromRemoteDomain_triple (hscan e he) hpages) ?_
    exact ite (fun _ => zonelistAllocFallback_triple hpages _ hscan) fun _ =>
      pure fun _ h => .inl ⟨rfl, h⟩

/-- `domain_alloc` hands out a block of one domain, or nothing. -/
theorem domainAlloc_triple (hy : y.StartsWell) (flags : BitVec 32) :
    Triple (Shelves y hands) (domainAlloc core pages flags) (Served y hands pages) := by
  refine ite (fun _ => fail _) fun h0 => ?_
  have hpages : 0 < pages := by omega
  refine ite (fun _ => allocInterleaved_triple hy hpages) fun _ => ?_
  refine served_orElse (tryAllocFromArenas_triple hy hpages) (get_bind fun s₀ h₀ => ?_)
  refine ite (fun _ => ?_) fun _ => allocWithLocality_triple hpages _ _
  rw [h₀.fits.coreDomain]
  exact allocFromBuddyInternal_served (y.core_ok core).1

/-! ### Flushing -/

/-- A round of the flush that takes a single page while its current arena is full does not move
on to an arena that is full as well. -/
def RoundRoom (d : ℕ) (current : Option ℕ) (idx : ℕ) (s : Machine) : Prop :=
  ∀ a b addr pageCount r, current = some a → ((s.domain d).arena a).pages.Full →
    (s.domain d).freeQueue.queue.pop = some ((addr, pageCount), r) → pageCount ≤ 1 →
    (findNonFullArena (s.domain d) (s.domain d).coreCount idx).1 = some b →
    ¬ ((s.domain d).arena b).pages.Full

/-- Every round of the flush, for the given number of rounds, meets `RoundRoom` in its turn. -/
def FlushRoom (d : ℕ) : ℕ → Option ℕ → ℕ → Machine → Prop
  | 0, _, _, _ => True
  | n + 1, current, idx, s => RoundRoom d current idx s ∧
    ∀ current' idx' s', (flushRound d current idx).run s = .ok (some (current', idx'), s') →
      FlushRoom d n current' idx' s'

/-- A call of `domain_flush_free_queue` that meets `FlushRoom`. -/
def FlushOk (d : ℕ) (s : Machine) : Prop :=
  (s.domain d).freeQueue.freeInProgress = false →
    FlushRoom d (computeMinElementsToFree (s.domain d)) (some 0) 0 (markFreeInProgress s d true)

theorem findNonFullArena_lt {fuel b : ℕ} (h : (findNonFullArena dom fuel idx).1 = some b) :
    b < dom.coreCount := by
  induction fuel generalizing idx with
  | zero => cases h
  | succ fuel ih =>
    rw [findNonFullArena] at h
    split_ifs at h with h1 h2
    · obtain ⟨⟩ := h
      exact h1
    · exact ih h

theorem findNonFullArena_congr {dom' : DomainBuddy} (hc : dom'.coreCount = dom.coreCount)
    (ha : dom'.arena = dom.arena) (fuel idx : ℕ) :
    findNonFullArena dom' fuel idx = findNonFullArena dom fuel idx := by
  induction fuel generalizing idx with
  | zero => rfl
  | succ fuel ih => rw [findNonFullArena, findNonFullArena, hc, ha, ih]

/-- A single page finds a place, provided that the arena moved on to is not full. -/
theorem flushPage_spec (hy : y.StartsWell) (hd : d < y.count) (ha : a < y.cores d)
    (hx : ¬ 1 < x.2) (h : Shelves y (hold hands d x) s)
    (hroom : ∀ b, ((s.domain d).arena a).pages.Full →
      (findNonFullArena (s.domain d) (s.domain d).coreCount idx).1 = some b →
      ¬ ((s.domain d).arena b).pages.Full) {next : Option ℕ × ℕ}
    (hres : (flushPage d a idx x.1 x.2).run s = .ok (next, s')) :
    Shelves y hands s' ∧ ∀ b, next.1 = some b → b < y.cores d := by
  obtain ⟨page, s₁, hpage, hres⟩ := run_bind_eq_ok.mp hres
  obtain ⟨h₁, hpage'⟩ := buddyPageForAddr_triple _ x.1 s h page s₁ hpage
  obtain ⟨-, rfl⟩ := mk.inj (ok.inj hpage)
  obtain ⟨ok, s₂, hpush, hrest⟩ := run_bind_eq_ok.mp hres
  have h₂ := domainArenaPush_triple hd ha hx hpage' s h₁ ok s₂ hpush
  cases ok with
  | true =>
    obtain ⟨⟩ := hrest
    refine ⟨h₂, fun b hb => ?_⟩
    obtain ⟨⟩ := hb
    exact ha
  | false =>
    obtain ⟨q, hq, ⟨-, hfull, rfl⟩ | ⟨hcontra, -⟩⟩ := domainArenaPush_ok hpush
    swap
    · cases hcontra
    obtain ⟨dom, s₃, hdom, hrest⟩ := run_bind_eq_ok.mp hrest
    obtain ⟨⟩ := hdom
    rcases hfind : findNonFullArena (s₂.domain d) (s₂.domain d).coreCount idx with ⟨_ | b, idx'⟩
    · rw [hfind] at hrest
      obtain ⟨u, s₃, hfree, hrest⟩ := run_bind_eq_ok.mp hrest
      obtain ⟨⟩ := hrest
      exact ⟨freeFromBuddyInternal_triple hy hd s₂ h₂ u _ hfree, fun b hb => by cases hb⟩
    rw [hfind] at hrest
    have hb : b < y.cores d := by
      rw [← h.fits.cores d hd]
      exact findNonFullArena_lt (by rw [hfind])
    obtain ⟨ok, s₃, hpush', hrest⟩ := run_bind_eq_ok.mp hrest
    obtain ⟨⟩ := hrest
    have h₃ := domainArenaPush_triple hd hb hx hpage' s₂ h₂ ok _ hpush'
    refine ⟨?_, fun c hc => by obtain rfl := some.inj hc; exact hb⟩
    -- The second push succeeds: its arena has room.
    obtain ⟨-, -, ⟨-, hfull', -⟩ | ⟨rfl, -⟩⟩ := domainArenaPush_ok hpush'
    · exact absurd hfull' (hroom b hfull (by rw [hfind]))
    · exact h₃

/-- A round of the flush with room keeps every page, and its arena is one of the domain. -/
theorem flushRound_spec (hy : y.StartsWell) (hd : d < y.count)
    (hcur : ∀ a, current = some a → a < y.cores d) (h : Shelves y hands s)
    (hroom : RoundRoom d current idx s) {ret : Option (Option ℕ × ℕ)}
    (hres : (flushRound d current idx).run s = .ok (ret, s')) :
    Shelves y hands s' ∧ ∀ next, ret = some next → ∀ a, next.1 = some a → a < y.cores d := by
  obtain ⟨deq, s₁, hdeq, hrest⟩ := run_bind_eq_ok.mp hres
  have h₁ := domainFreeQueueDequeue_triple hd s h deq s₁ hdeq
  obtain ⟨rfl, rfl⟩ | ⟨x, r, rfl, hpop, hs₁⟩ := domainFreeQueueDequeue_ok hdeq
  · obtain ⟨⟩ := hrest
    exact ⟨h₁, fun _ hc => by cases hc⟩
  obtain ⟨hx0, h₁⟩ := h₁
  simp only [if_neg hx0] at hrest
  cases current with
  | none =>
    obtain ⟨u, s₂, hfree, hrest⟩ := run_bind_eq_ok.mp hrest
    obtain ⟨⟩ := hrest
    refine ⟨freeFromBuddyInternal_triple hy hd s₁ h₁ u _ hfree, fun next hn a ha => ?_⟩
    obtain ⟨⟩ := hn
    cases ha
  | some a =>
    split_ifs at hrest with hx1
    · obtain ⟨u, s₂, hfree, hrest⟩ := run_bind_eq_ok.mp hrest
      obtain ⟨⟩ := hrest
      refine ⟨freeFromBuddyInternal_triple hy hd s₁ h₁ u _ hfree, fun next hn b hb => ?_⟩
      obtain ⟨⟩ := hn
      exact hcur b hb
    · obtain ⟨next, s₂, hflush, hrest⟩ := run_bind_eq_ok.mp hrest
      obtain ⟨⟩ := hrest
      -- Taking from the queue leaves the arenas as they were.
      have hdom : (s₁.domain d).coreCount = (s.domain d).coreCount ∧
          (s₁.domain d).arena = (s.domain d).arena := by
        rw [hs₁]
        simp [Machine.setFreeQueue, Machine.setDomain]
      obtain ⟨h₂, hnext⟩ := flushPage_spec hy hd (hcur a rfl) hx1 h₁ (fun b hfull hfind => by
        rw [findNonFullArena_congr hdom.1 hdom.2, hdom.1] at hfind
        rw [hdom.2] at hfull ⊢
        exact hroom a b x.1 x.2 r rfl hfull hpop (by omega) hfind) hflush
      exact ⟨h₂, fun n hn b hb => hnext b (by obtain rfl := some.inj hn; exact hb)⟩

/-- A flush whose rounds all have room keeps every page. -/
theorem flushFreeQueueInternal_spec (hy : y.StartsWell) (hd : d < y.count) {n : ℕ}
    (hcur : ∀ a, current = some a → a < y.cores d) (h : Shelves y hands s)
    (hroom : FlushRoom d n current idx s)
    (hres : (flushFreeQueueInternal d n current idx).run s = .ok (u, s')) : Shelves y hands s' := by
  induction n generalizing s current idx with
  | zero =>
    obtain ⟨-, rfl⟩ := mk.inj (ok.inj hres)
    exact h
  | succ n ih =>
    obtain ⟨ret, s₁, hround, hrest⟩ := run_bind_eq_ok.mp hres
    obtain ⟨h₁, hnext⟩ := flushRound_spec hy hd hcur h hroom.1 hround
    cases ret with
    | none =>
      obtain ⟨-, rfl⟩ := mk.inj (ok.inj hrest)
      exact h₁
    | some next => exact ih (hnext next rfl) h₁ (hroom.2 _ _ _ hround) hrest

theorem Shelves.markFreeInProgress (h : Shelves y hands s) (hd : d < y.count) (b : Bool) :
    Shelves y hands (markFreeInProgress s d b) := by
  obtain ⟨L, A, Q, hs⟩ := h.shelf d hd
  have hs' : DomainShelf (y.bound d) (y.bound (d + 1)) (y.managed d) s.mem
      { s.domain d with freeQueue := { (s.domain d).freeQueue with freeInProgress := b } } L A Q
      (hands d) := { hs with }
  have hstep := h.step hs' (Touches.refl _ _) ⟨rfl, rfl, rfl, rfl, rfl, rfl⟩
  rw [Function.update_eq_self] at hstep
  exact hstep

/-- `domain_flush_free_queue` keeps every page if all its rounds have room. -/
theorem domainFlushFreeQueue_spec (hy : y.StartsWell) (hd : d < y.count) (h : Shelves y hands s)
    (hroom : FlushOk d s) (hres : (domainFlushFreeQueue d).run s = .ok (u, s')) :
    Shelves y hands s' := by
  change ((if (s.domain d).freeQueue.freeInProgress = true then _ else
    if (s.domain d).coreCount = 0 then _ else _ : MachineM Unit)).run s = _ at hres
  split_ifs at hres with hprog hcores
  · obtain ⟨-, rfl⟩ := mk.inj (ok.inj hres)
    exact h
  · cases hres
  obtain ⟨_, s₁, hset, hrest⟩ := run_bind_eq_ok.mp hres
  obtain ⟨-, rfl⟩ := mk.inj (ok.inj hset)
  obtain ⟨_, s₂, hflush, hrest⟩ := run_bind_eq_ok.mp hrest
  obtain ⟨-, rfl⟩ := mk.inj (ok.inj hrest)
  rw [h.fits.cores d hd] at hcores
  refine Shelves.markFreeInProgress ?_ hd false
  refine flushFreeQueueInternal_spec hy hd (fun a ha => ?_) (h.markFreeInProgress hd true)
    (hroom (by simpa using hprog)) hflush
  obtain ⟨⟩ := ha
  omega

end Triples

end Charmos.Mem
