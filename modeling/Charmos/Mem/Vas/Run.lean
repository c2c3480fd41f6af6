import Charmos.Mem.Vas.CallSpec

/-!
# Runs of the address space allocator

A run is any sequence of `vas_alloc`, `vas_free` and `vas_reclaim` calls on any CPUs, with
metadata allocations that fail at arbitrary points, where clients free what they hold. In every
state reached the arenas tile the space and the extents handed out are apart, and the next
allocation is apart from all of them (`vasRun_sound`).
-/

namespace Charmos.Vas

open List Relation Segment Tiling

/-- A space and the extents that clients hold. -/
structure VasLedger where
  vas : Space
  live : List Extent

/-- One call of the allocator. -/
inductive VasStep : VasLedger → VasLedger → Prop
  | alloc {l : VasLedger} {cpu size align : ℕ} {enabled : Bool} {tags : List Bool}
      {r : AllocResult} (hcpu : cpu < l.vas.cpuCount) (hsize : size < 2 ^ 64)
      (halign : align < 2 ^ 64)
      (h : vasAlloc { l.vas with tags := tags } cpu enabled size align = .ok r) :
      VasStep l ⟨r.vas, if r.addr = 0 then l.live else ⟨r.addr, size⟩ :: l.live⟩
  | free {l : VasLedger} {cpu : ℕ} {enabled : Bool} {e : Extent} {w : Space}
      (hcpu : cpu < l.vas.cpuCount) (he : e ∈ l.live)
      (h : vasFree l.vas cpu enabled e.start e.length = .ok w) : VasStep l ⟨w, l.live.erase e⟩
  | reclaim {l : VasLedger} {w : Space} (h : vasReclaim l.vas = .ok w) : VasStep l ⟨w, l.live⟩

/-- The arenas of the space tile `[base, limit)`, their counts of free bytes are right, and the
extents that clients hold lie in the space and are apart. -/
structure VasSound (base limit : ℕ) (l : VasLedger) : Prop where
  global : Tiles (Set.Ico base limit) (l.vas.global.allSegs.map extent)
  chunk : ∀ g ∈ l.vas.global.allSegs, g.type = .imported → ∃ cpu < l.vas.cpuCount,
    l.vas.chunkOwner (ownerIndex l.vas g.start) = some cpu ∧
      Tiles g.extent.toSet (((l.vas.locals cpu).allSegs.filter
        fun s => decide (s.spanStart = g.start)).map extent)
  spanned : ∀ cpu < l.vas.cpuCount, ∀ s ∈ (l.vas.locals cpu).allSegs,
    ∃ g ∈ l.vas.global.allSegs, g.type = .imported ∧ s.spanStart = g.start
  globalFree : l.vas.global.totalFree = ((freeOf l.vas.global.allSegs).map Segment.length).sum
  localFree : ∀ cpu < l.vas.cpuCount, (l.vas.locals cpu).totalFree =
    ((freeOf (l.vas.locals cpu).allSegs).map Segment.length).sum
  liveApart : l.live.Pairwise Extent.Apart
  liveIn : ∀ e ∈ l.live, 0 < e.length ∧ e.toSet ⊆ Set.Ico base limit

/-! ### The busy extents of a space -/

section Sound

variable {v : Space} {Span : ℕ → Set ℕ} {e : Extent} {R : Set ℕ} {A : Arena}

/-- The start of the chunk that an address lies in. -/
theorem chunk_start_unique {a b x : ℕ} (ha : chunkSize ∣ a) (hb : chunkSize ∣ b)
    (hxa : x ∈ Extent.toSet ⟨a, chunkSize⟩) (hxb : x ∈ Extent.toSet ⟨b, chunkSize⟩) : a = b := by
  obtain ⟨i, rfl⟩ := ha
  obtain ⟨j, rfl⟩ := hb
  have hi : x / chunkSize = i :=
    Nat.div_eq_of_lt_le (by rw [mul_comm]; exact hxa.1)
      (by rw [Nat.succ_mul, mul_comm]; exact hxa.2)
  have hj : x / chunkSize = j :=
    Nat.div_eq_of_lt_le (by rw [mul_comm]; exact hxb.1)
      (by rw [Nat.succ_mul, mul_comm]; exact hxb.2)
  rw [← hi, ← hj]

/-- A busy extent of an arena over `R` is not empty and lies in `R`. -/
theorem busyIn_subset (h : ArenaInv Span R A) (he : e ∈ busyIn A) : 0 < e.length ∧ e.toSet ⊆ R := by
  obtain ⟨s, hs, rfl⟩ := mem_map.mp he
  have hmem := (mem_held.mp (mem_of_mem_filter hs)).1
  exact ⟨h.pos hmem, h.subset hmem⟩

theorem busyIn_apart (h : ArenaInv Span R A) : (busyIn A).Pairwise Extent.Apart := by
  have hsub : (busyIn A).Sublist (A.allSegs.map extent) :=
    (filter_sublist.trans filter_sublist).map _
  exact (h.tiles.ordered.sublist hsub).imp Or.inl

/-- A busy segment of the global arena and the chunks of a CPU share no address. -/
theorem SpaceInv.busy_disjoint (h : SpaceInv v) (he : e ∈ busyIn v.global) (c : ℕ) :
    Disjoint e.toSet (regionOf v c) := by
  obtain ⟨s, hs, rfl⟩ := mem_map.mp he
  obtain ⟨hsh, hbusy⟩ := mem_filter.mp hs
  rw [Set.disjoint_left]
  rintro x hxs ⟨i, hi, hx⟩
  obtain ⟨-, p, hp, hpt, hpe⟩ := h.owned i c hi
  have hsp := h.global.eq_of_mem (mem_held.mp hsh).1 (mem_held.mp hp).1 hxs (hpe ▸ hx)
  rw [hsp, hpt] at hbusy
  cases of_decide_eq_true hbusy

theorem regionOf_disjoint {c d : ℕ} (hcd : c ≠ d) : Disjoint (regionOf v c) (regionOf v d) := by
  rw [Set.disjoint_left]
  rintro x ⟨i, hi, hxi⟩ ⟨j, hj, hxj⟩
  have hij : i ≠ j := by
    rintro rfl
    exact hcd (Option.some.inj (hi.symm.trans hj))
  exact Set.disjoint_left.mp (chunkAt_disjoint hij) hxi hxj

/-- The busy extents of all arenas are not empty and lie in the space. -/
theorem SpaceInv.busyAll_subset (h : SpaceInv v) (he : e ∈ busyAll v) :
    0 < e.length ∧ e.toSet ⊆ Set.Ico v.base v.limit := by
  rcases mem_append.mp he with he | he
  · exact busyIn_subset h.global he
  · obtain ⟨c, hc, hec⟩ := mem_flatMap.mp he
    obtain ⟨hpos, hsub⟩ := busyIn_subset (h.locals c (mem_range.mp hc)).arena hec
    exact ⟨hpos, hsub.trans (h.regionOf_subset c)⟩

/-- The busy extents of all arenas are apart. -/
theorem SpaceInv.busyAll_apart (h : SpaceInv v) : (busyAll v).Pairwise Extent.Apart := by
  have hlocal : ∀ c ∈ List.range v.cpuCount, ∀ e ∈ busyIn (v.locals c),
      0 < e.length ∧ e.toSet ⊆ regionOf v c := fun c hc e he =>
    busyIn_subset (h.locals c (mem_range.mp hc)).arena he
  rw [busyAll, pairwise_append]
  refine ⟨busyIn_apart h.global, ?_, ?_⟩
  · rw [pairwise_flatMap]
    refine ⟨fun c hc => busyIn_apart (h.locals c (mem_range.mp hc)).arena, ?_⟩
    refine (List.Pairwise.and_mem.mp nodup_range).imp ?_
    rintro c d ⟨hc, hd, hne⟩ e he f hf
    exact Extent.apart_of_disjoint (hlocal c hc e he).1 (hlocal d hd f hf).1
      ((regionOf_disjoint hne).mono (hlocal c hc e he).2 (hlocal d hd f hf).2)
  · intro e he f hf
    obtain ⟨c, hc, hfc⟩ := mem_flatMap.mp hf
    exact Extent.apart_of_disjoint (busyIn_subset h.global he).1 (hlocal c hc f hfc).1
      ((h.busy_disjoint he c).mono_right (hlocal c hc f hfc).2)

/-- The segments of a CPU's arena with the span of an imported chunk tile the chunk. -/
theorem SpaceInv.chunk_tiles (h : SpaceInv v) {g : Segment} (hg : g ∈ v.global.allSegs)
    (htype : g.type = .imported) :
    ∃ cpu < v.cpuCount, v.chunkOwner (ownerIndex v g.start) = some cpu ∧
      Tiles g.extent.toSet (((v.locals cpu).allSegs.filter
        fun s => decide (s.spanStart = g.start)).map extent) := by
  obtain ⟨i, cpu, hi, hext⟩ := h.imported g (mem_held.mpr ⟨hg, by rw [htype]; decide⟩) htype
  have hcpu := (h.owned i cpu hi).1
  have hinv := (h.locals cpu hcpu).arena
  have hstart : g.start ∈ (chunkAt v i).toSet := hext ▸ Extent.start_mem (h.global.pos hg)
  have hchunk : g.extent = ⟨g.start, chunkSize⟩ := by
    rw [extent, show g.length = chunkSize from congrArg Extent.length hext]
  have hdvd : chunkSize ∣ g.start := by
    rw [show g.start = (chunkAt v i).start from congrArg Extent.start hext]
    exact h.dvd_chunkAt i
  refine ⟨cpu, hcpu, by rw [ownerIndex_of_mem hstart]; exact hi, ?_⟩
  refine hinv.tiles.filter (fun x hx => ⟨i, hi, hext ▸ hx⟩) ?_ ?_
  · intro s hs hspan x hx
    have := (hinv.spans s hs hx).2
    rwa [of_decide_eq_true hspan, ← hchunk] at this
  · intro s hs hspan
    rw [Set.disjoint_left]
    intro x hxs hxg
    obtain ⟨hsd, hxc⟩ := hinv.spans s hs hxs
    exact of_decide_eq_false hspan (chunk_start_unique hsd hdvd hxc (hchunk ▸ hxg))

/-- Every segment of a CPU's arena has the span of an imported chunk. -/
theorem SpaceInv.spanned (h : SpaceInv v) {cpu : ℕ} (hcpu : cpu < v.cpuCount) {s : Segment}
    (hs : s ∈ (v.locals cpu).allSegs) :
    ∃ g ∈ v.global.allSegs, g.type = .imported ∧ s.spanStart = g.start := by
  have hinv := (h.locals cpu hcpu).arena
  obtain ⟨i, hi, hx⟩ := hinv.start_mem hs
  obtain ⟨-, g, hg, htype, hext⟩ := h.owned i cpu hi
  obtain ⟨hsd, hxs⟩ := hinv.spans s hs (Extent.start_mem (hinv.pos hs))
  refine ⟨g, (mem_held.mp hg).1, htype, ?_⟩
  rw [show g.start = (chunkAt v i).start from congrArg Extent.start hext]
  exact chunk_start_unique hsd (h.dvd_chunkAt i) hxs hx

end Sound

/-! ### Runs -/

/-- The ledger lists exactly the busy extents of a space over `[base, limit)`. -/
structure LedgerInv (base limit : ℕ) (l : VasLedger) : Prop where
  space : SpaceInv l.vas
  base : l.vas.base = base
  limit : l.vas.limit = limit
  live : l.live.Perm (busyAll l.vas)

variable {l : VasLedger}

theorem LedgerInv.sound {base limit : ℕ} (h : LedgerInv base limit l) : VasSound base limit l := by
  obtain ⟨hs, rfl, rfl, hlive⟩ := h
  refine ⟨hs.global.tiles, fun g hg ht => hs.chunk_tiles hg ht,
    fun cpu hcpu s hsm => hs.spanned hcpu hsm, hs.global.total,
    fun cpu hcpu => (hs.locals cpu hcpu).arena.total, ?_, fun e he =>
    hs.busyAll_subset (hlive.mem_iff.mp he)⟩
  exact (hlive.pairwise_iff fun hab => Extent.Apart.symm hab).mpr hs.busyAll_apart

variable {v : Space}

/-- The outcomes of metadata allocations are no part of the invariant. -/
theorem SpaceInv.setTags (h : SpaceInv v) (tags : List Bool) :
    SpaceInv { v with tags := tags } :=
  ⟨{ h.bounds with }, h.global,
    h.globalHeld, h.imported, h.owned, h.locals⟩

theorem LedgerInv.step {base limit : ℕ} {l' : VasLedger} (h : LedgerInv base limit l)
    (hstep : VasStep l l') : LedgerInv base limit l' := by
  obtain ⟨hs, rfl, rfl, hlive⟩ := h
  cases hstep with
  | @alloc cpu size align enabled tags r hcpu hsize halign hr =>
    obtain ⟨r', hr', hserved⟩ := vasAlloc_spec (hs.setTags tags) hcpu enabled size halign
    obtain rfl := Except.ok.inj (hr.symm.trans hr')
    refine ⟨hserved.inv, hserved.shape.base, hserved.shape.limit, ?_⟩
    refine List.Perm.trans ?_ hserved.busy.symm
    by_cases h0 : r.addr = 0
    · rw [if_pos h0, if_pos h0]
      exact hlive
    · rw [if_neg h0, if_neg h0]
      exact hlive.cons _
  | @free cpu enabled e w hcpu he hw =>
    obtain ⟨w', hw', hfreed⟩ := vasFree_spec hs hcpu enabled (hlive.mem_iff.mp he)
    obtain rfl := Except.ok.inj (hw.symm.trans hw')
    refine ⟨hfreed.inv, hfreed.shape.base, hfreed.shape.limit, ?_⟩
    simpa using (hlive.trans hfreed.busy).erase e
  | reclaim hw =>
    obtain ⟨w', hw', hserved, -⟩ := reclaimLocked_spec 0 0 hs
    obtain rfl := Except.ok.inj (Eq.trans (Eq.symm hw) hw')
    exact ⟨hserved.inv, hserved.shape.base, hserved.shape.limit,
      hlive.trans (by simpa using hserved.busy.symm)⟩

theorem arenaInit_inv (Span : ℕ → Set ℕ) : ArenaInv Span ∅ arenaInit :=
  ⟨Set.empty_subset _, Tiles.nil, by simp [arenaInit], by simp [arenaInit],
    ⟨fun k => by simp [arenaInit, freeOf], fun k _ => by simp [arenaInit]⟩, rfl⟩

theorem regionOf_eq_empty (h : ∀ i, v.chunkOwner i = none) (c : ℕ) : regionOf v c = ∅ := by
  refine Set.eq_empty_iff_forall_notMem.mpr ?_
  rintro x ⟨i, hi, -⟩
  rw [h i] at hi
  cases hi

variable {tags : List Bool}

/-- A new space satisfies the invariant, and clients hold nothing. -/
theorem spaceCreate_inv {base limit cpuCount : ℕ} {storage : Bool} (hlimit : limit < 2 ^ 64)
    (hc : spaceCreate base limit cpuCount storage tags = some v) :
    LedgerInv base limit ⟨v, []⟩ := by
  rw [spaceCreate] at hc
  split at hc
  · cases hc
  rename_i hok
  simp only [not_or, not_le] at hok
  split at hc
  · cases hc
  obtain ⟨⟩ := hc
  set seg : Segment := ⟨base, limit - base, 0, .free, none⟩ with hseg
  have hset : seg.extent.toSet = Set.Ico base limit := by
    ext x
    simp only [hseg, extent, Extent.mem_toSet, Set.mem_Ico]
    omega
  obtain ⟨hinv, hheld, -⟩ := insertFree_spec (s := seg) (arenaInit_inv globalSpan)
    (by simp only [hseg]; omega) rfl rfl (by
      rw [hset]
      exact fun x hx => ⟨by have := hx.1; omega, hx.2.trans hlimit⟩)
    (fun x _ => rfl) (Set.empty_disjoint _)
  rw [Set.empty_union, hset] at hinv
  have hnone : held (insertFree arenaInit seg).allSegs = [] := hheld
  refine ⟨⟨⟨by simp only; omega, hok.2.1, hlimit, rfl⟩, hinv, ?_, ?_, ?_, ?_⟩, rfl, rfl, ?_⟩
  · rw [hnone]
    simp
  · rw [hnone]
    simp
  · intro i c hi
    cases hi
  · intro c _
    rw [regionOf_eq_empty fun _ => rfl]
    exact ⟨arenaInit_inv chunkSpan, ⟨by simp [arenaInit, held], by simp [arenaInit],
      by simp [arenaInit, held]⟩, by simp [arenaInit, held]⟩
  · rw [busyAll, busyIn, hnone]
    simp [busyIn, busyOf, arenaInit, held]

theorem vasRun_ledgerInv {base limit cpuCount : ℕ} {storage : Bool} (hlimit : limit < 2 ^ 64)
    (hc : spaceCreate base limit cpuCount storage tags = some v)
    (hrun : ReflTransGen VasStep ⟨v, []⟩ l) : LedgerInv base limit l := by
  induction hrun with
  | refl => exact spaceCreate_inv hlimit hc
  | tail _ hstep ih => exact ih.step hstep

/-- In every state that a run reaches, the arenas tile the space and the extents handed out are
apart. An allocation made there returns, and the address it returns is aligned and its extent lies
in the space, apart from all extents handed out. -/
theorem vasRun_sound {base limit cpuCount : ℕ} {storage : Bool} {tags : List Bool} {v : Space}
    {l : VasLedger} (hlimit : limit < 2 ^ 64)
    (hc : spaceCreate base limit cpuCount storage tags = some v)
    (hrun : ReflTransGen VasStep ⟨v, []⟩ l) :
    VasSound base limit l ∧
      ∀ cpu < l.vas.cpuCount, ∀ (enabled : Bool) (size align : ℕ) (outcomes : List Bool),
        align < 2 ^ 64 → ∃ r,
          vasAlloc { l.vas with tags := outcomes } cpu enabled size align = .ok r ∧
          (r.addr ≠ 0 → align ∣ r.addr ∧ Extent.toSet ⟨r.addr, size⟩ ⊆ Set.Ico base limit ∧
            ∀ e ∈ l.live, Extent.Apart ⟨r.addr, size⟩ e) := by
  have h := vasRun_ledgerInv hlimit hc hrun
  refine ⟨h.sound, fun cpu hcpu enabled size align outcomes halign => ?_⟩
  obtain ⟨r, hr, hserved⟩ := vasAlloc_spec (h.space.setTags outcomes) hcpu enabled size halign
  refine ⟨r, hr, fun h0 => ⟨hserved.dvd h0, ?_⟩⟩
  have hbusy := hserved.busy
  rw [if_neg h0] at hbusy
  have hmem : (⟨r.addr, size⟩ : Extent) ∈ busyAll r.vas := hbusy.mem_iff.mpr (by simp)
  have hsub := (hserved.inv.busyAll_subset hmem).2
  have hapart := (hbusy.pairwise_iff fun hab => Extent.Apart.symm hab).mp hserved.inv.busyAll_apart
  refine ⟨?_, fun e he => (pairwise_cons.mp hapart).1 e (h.live.mem_iff.mp he)⟩
  rw [← h.base, ← h.limit]
  rwa [hserved.shape.base, hserved.shape.limit] at hsub

/-- A space of one chunk, the one with number `k`, for one CPU. -/
def chunkSpace (k : ℕ) : Space where
  global := insertFree arenaInit ⟨k * chunkSize, chunkSize, 0, .free, none⟩
  base := k * chunkSize
  limit := k * chunkSize + chunkSize
  mapBase := k * chunkSize
  cpuCount := 1
  locals := fun _ => arenaInit
  chunkOwner := fun _ => none
  magReservedBytes := 0
  tags := []

theorem spaceCreate_chunkSpace {k : ℕ} (hk : 0 < k) :
    spaceCreate (k * chunkSize) (k * chunkSize + chunkSize) 1 true [] = some (chunkSpace k) := by
  have hpos : 0 < k * chunkSize := Nat.mul_pos hk chunkSize_pos
  rw [spaceCreate, if_neg (by have := chunkSize_pos; simp; omega)]
  simp only [segmentAlloc, chunkSpace, Nat.add_sub_cancel_left, Nat.mul_div_cancel _ chunkSize_pos]

/-- The call returns this address, without a missing descriptor. -/
def allocates (v : Space) (cpu : ℕ) (enabled : Bool) (size align addr : ℕ) : Bool :=
  match vasAlloc v cpu enabled size align with
  | .ok r => decide (r.addr = addr) && !r.metadataFailed
  | .error _ => false

/-- The space that the call leaves. -/
def afterAlloc (v : Space) (cpu : ℕ) (enabled : Bool) (size align : ℕ) : Space :=
  match vasAlloc v cpu enabled size align with
  | .ok r => r.vas
  | .error _ => v

theorem vasAlloc_of_allocates {cpu size align addr : ℕ} {enabled : Bool}
    (h : allocates v cpu enabled size align addr = true) :
    vasAlloc v cpu enabled size align =
      .ok ⟨addr, false, afterAlloc v cpu enabled size align⟩ := by
  rw [allocates] at h
  rw [afterAlloc]
  split at h
  · rename_i r hr
    obtain ⟨addr', failed, w⟩ := r
    rw [Bool.and_eq_true, decide_eq_true_eq, Bool.not_eq_true'] at h
    obtain ⟨rfl, rfl⟩ := h
    rw [hr]
  · cases h

/-- A run that allocates one page in a space of one chunk. -/
theorem vasRun_sound_page : ∃ l : VasLedger, ReflTransGen VasStep ⟨chunkSpace 1, []⟩ l ∧
    l.live = [⟨chunkSize, pageSize⟩] ∧ VasSound (1 * chunkSize) (1 * chunkSize + chunkSize) l := by
  have hr := vasAlloc_of_allocates
    (show allocates (chunkSpace 1) 0 true pageSize pageSize chunkSize = true by decide +kernel)
  have hstep : VasStep ⟨chunkSpace 1, []⟩
      ⟨afterAlloc (chunkSpace 1) 0 true pageSize pageSize, [⟨chunkSize, pageSize⟩]⟩ :=
    VasStep.alloc (show 0 < 1 by decide) (by decide) (by decide) hr
  have hrun := ReflTransGen.single hstep
  have hcreate := spaceCreate_chunkSpace (show 0 < 1 by decide)
  exact ⟨_, hrun, rfl, (vasRun_sound (by decide) hcreate hrun).1⟩

end Charmos.Vas
