import Charmos.Mem.Vas.Run

/-!
# When the allocator gives up

A request that `vas_alloc` turns down without a missing descriptor finds no room in the global
arena afterwards, and a request for the CPU's own arena found none there either
(`vasAlloc_complete`). A request whose size or alignment exceeds a chunk never looks at the CPU's
arena, which may hold a free segment that fits (`vasAlloc_skips_local`).
-/

namespace Charmos.Vas

open List Relation Tiling

/-- The segment contains `size` bytes at a multiple of `align`. -/
def CanHold (size align : ℕ) (s : Segment) : Prop :=
  ∃ p, align ∣ p ∧ s.start ≤ p ∧ p + size ≤ s.start + s.length

/-- No free segment of the arena can hold `size` bytes at `align`. -/
def NoRoom (A : Arena) (size align : ℕ) : Prop :=
  ∀ s ∈ A.allSegs, s.type = .free → ¬ CanHold size align s

section Room

variable {Span : ℕ → Set ℕ} {R : Set ℕ} {A : Arena} {s : Segment} {size align : ℕ}

/-- The test of `arena_alloc` is whether the segment can hold the request. -/
theorem fits_iff_canHold (h : ArenaInv Span R A) (hs : s ∈ A.allSegs) (ha : isPow2 align = true)
    (hlt : align < 2 ^ 64) : Fits size align s ↔ CanHold size align s := by
  obtain ⟨h0, h64⟩ := h.start_range hs
  have hd := dvd_add_alignPad ha hlt h0 h64
  constructor
  · intro hf
    have := hf.le
    exact ⟨s.start + alignPad s.start align, hd, by omega, by omega⟩
  rintro ⟨p, hp, hsp, hpe⟩
  -- the padding leads to the first multiple from the start on
  have hpad : alignPad s.start align < align := by
    obtain ⟨k, rfl⟩ := isPow2_iff.mp ha
    rw [alignPad_eq h0 h64]
    exact Nat.mod_lt _ (Nat.two_pow_pos k)
  have hle : s.start + alignPad s.start align ≤ p := by
    by_contra hc
    have hsub := Nat.dvd_sub hd hp
    have := Nat.le_of_dvd (by omega) hsub
    omega
  exact ⟨by omega, by omega⟩

theorem NoFit.noRoom (h : ArenaInv Span R A) (ha : isPow2 align = true) (hlt : align < 2 ^ 64)
    (hno : NoFit A size align) : NoRoom A size align :=
  fun s hs hf hc => hno s hs hf ((fits_iff_canHold h hs ha hlt).mpr hc)

/-- Without a segment that fits, `arena_alloc` fails for want of space. -/
theorem arenaAlloc_of_noFit (h : ArenaInv Span R A) (hno : NoFit A size align) (tags : List Bool) :
    arenaAlloc A tags size align = ⟨none, false, A, tags⟩ := by
  have hf : firstFit A size align = none := by
    cases hf : firstFit A size align with
    | none => rfl
    | some s =>
      obtain ⟨hs, hfree, hfits⟩ := firstFit_some h hf
      exact absurd hfits (hno s hs hfree)
  rw [arenaAlloc, hf]

end Room

/-! ### A space with nothing to reclaim -/

section Settled

variable {v : Space} {cpu : ℕ} {R : Set ℕ}

theorem LocalInv.tokenState_ne {A : Arena} (h : LocalInv R A) (hs : Settled A) {cls i : ℕ}
    (hcls : cls < magClasses) (hi : i < magCap cls) :
    tokenState (A.slot cls i).token ≠ MagState.cached.code := by
  intro hstate
  have hne : (A.slot cls i).token ≠ 0 := fun h0 => by
    rw [h0] at hstate
    exact absurd hstate (by decide)
  obtain ⟨s, H, hH, -, he⟩ := h.slot_segment hcls hi hne
  obtain ⟨st, -, htype, htoken⟩ := he.state
  rw [show (A.slot cls i).token = tokenMake s.start st from htoken,
    tokenState_tokenMake (four_dvd_of_page he.page)] at hstate
  obtain rfl := MagState.code_inj hstate
  exact (hs s (LocalInv.mem_of_perm hH).1).1 htype

theorem magazineDrain_settled (h : LocalInv R (v.locals cpu)) (hs : Settled (v.locals cpu)) :
    magazineDrain v cpu = v := by
  have hall : ∀ slot ∈ magSlots, drainSlot cpu v slot = v := by
    intro slot hslot
    obtain ⟨hcls, hi⟩ := mem_magSlots.mp hslot
    rw [drainSlot, if_pos (h.tokenState_ne hs hcls hi)]
  rw [magazineDrain]
  generalize magSlots = slots at hall
  induction slots with
  | nil => rfl
  | cons slot rest ih =>
    rw [foldl_cons, hall slot (by simp)]
    exact ih fun sl hsl => hall sl (mem_cons_of_mem _ hsl)

theorem reclaimCpu_settled (h : LocalInv R (v.locals cpu)) (hs : Settled (v.locals cpu)) :
    reclaimCpu v cpu = .ok v := by
  have hall : ∀ seg ∈ (v.locals cpu).allSegs, reclaimSeg cpu v seg = .ok v := by
    intro seg hseg
    have hnot := (hs seg hseg).2
    rw [reclaimSeg, if_pos]
    by_contra hc
    simp only [not_or, ne_eq, not_not] at hc
    exact hnot hc
  rw [reclaimCpu, magazineDrain_settled h hs]
  generalize (v.locals cpu).allSegs = segs at hall
  induction segs with
  | nil => rfl
  | cons seg rest ih =>
    rw [foldlM_cons, hall seg (by simp)]
    exact ih fun t ht => hall t (mem_cons_of_mem _ ht)

/-- Reclaiming a settled space changes nothing. -/
theorem reclaimLocked_settled (h : SpaceInv v) (hs : ∀ c < v.cpuCount, Settled (v.locals c)) :
    reclaimLocked v = .ok v := by
  have hall : ∀ c ∈ range v.cpuCount, reclaimCpu v c = .ok v := fun c hc =>
    reclaimCpu_settled (h.locals c (mem_range.mp hc)) (hs c (mem_range.mp hc))
  rw [reclaimLocked]
  generalize range v.cpuCount = cpus at hall
  induction cpus with
  | nil => rfl
  | cons c rest ih =>
    rw [foldlM_cons, hall c (by simp)]
    exact ih fun d hd => hall d (mem_cons_of_mem _ hd)

end Settled

/-! ### Requests that only the global arena serves -/

section Global

variable {v : Space} {cpu size align : ℕ}

/-- Such a request only asks the global arena. -/
theorem globalAttempt_eq (hglobal : localRequest size align = false) (v : Space) (cpu : ℕ)
    (enabled : Bool) : globalAttempt v cpu enabled size align =
      ⟨(allocIn v none size align).1.getD 0, (allocIn v none size align).2.1,
        (allocIn v none size align).2.2⟩ := by
  simp only [globalAttempt, hglobal, Bool.false_eq_true, if_false, and_self, if_true]
  generalize allocIn v none size align = r
  obtain ⟨_ | addr, failed, w⟩ := r <;> rfl

variable (hsize : 0 < size) (ha : isPow2 align = true) (hlt : align < 2 ^ 64)
  (hglobal : localRequest size align = false)

include hsize ha hlt hglobal

/-- A request for the global arena that was turned down leaves nothing to reclaim. -/
theorem vasAlloc_settled (h : SpaceInv v) (hcpu : cpu < v.cpuCount)
    (hfit : size ≤ v.limit - v.base) {enabled : Bool} {r : AllocResult}
    (hr : vasAlloc v cpu enabled size align = .ok r) (h0 : r.addr = 0)
    (hm : r.metadataFailed = false) : ∀ c < v.cpuCount, Settled (r.vas.locals c) := by
  rw [vasAlloc, if_neg (by simp [ha]; omega)] at hr
  obtain ⟨-, hsame⟩ := magazineStage_spec h hcpu ha enabled size
  generalize magazineStage v cpu enabled size align = q at hr hsame
  obtain ⟨addr, u⟩ := q
  simp only [hglobal] at hr hsame
  by_cases haddr : addr = 0
  swap
  · rw [if_pos haddr] at hr
    obtain ⟨⟩ := hr
    exact absurd h0 haddr
  obtain rfl := hsame haddr
  rw [if_neg (not_not.mpr haddr), if_neg (by simp), if_neg (by simp), globalStage] at hr
  obtain ⟨hserved, -⟩ := globalAttempt_spec hsize ha hlt h hcpu enabled
  generalize globalAttempt u cpu enabled size align = q at hr hserved
  obtain ⟨addr₁, failed₁, u₁⟩ := q
  by_cases hc : addr₁ ≠ 0 ∨ failed₁ = true
  · rw [if_pos hc] at hr
    obtain ⟨⟩ := hr
    simp only at h0 hm
    simp [h0, hm] at hc
  rw [if_neg hc] at hr
  simp only [not_or, ne_eq, not_not] at hc
  obtain ⟨rfl, -⟩ := hc
  obtain ⟨w, hw, -, hsettled⟩ := reclaimLocked_spec size align hserved.inv
  rw [hw] at hr
  obtain ⟨⟩ := hr
  rw [globalAttempt_eq hglobal, ← hserved.shape.cpuCount]
  exact hsettled

omit hsize hlt in
/-- In a settled space whose global arena has no room such a request is turned down. -/
theorem vasAlloc_fails (h : SpaceInv v) (hcpu : cpu < v.cpuCount)
    (hs : ∀ c < v.cpuCount, Settled (v.locals c)) (hno : NoFit v.global size align)
    (enabled : Bool) : vasAlloc v cpu enabled size align = .ok ⟨0, false, v⟩ := by
  rw [vasAlloc]
  split
  · rfl
  have hmag : magazineStage v cpu enabled size align = (0, v) := by
    rw [magazineStage]
    split
    · rename_i hc
      rcases magazineAlloc_spec (h.locals cpu hcpu) hc.1 ha with hno | ⟨s, -, htype, -, -, hsw⟩
      · rw [hno]
        simp only [setArena_self]
      · exact absurd htype (hs cpu hcpu s (mem_held.mp hsw.mem).1).1
    · rfl
  have hattempt : globalAttempt v cpu enabled size align = ⟨0, false, v⟩ := by
    rw [globalAttempt_eq hglobal]
    simp only [allocIn, Space.arena, Space.setArena, arenaAlloc_of_noFit h.global hno]
    rfl
  simp only [hmag, hglobal, Bool.false_eq_true, if_false, ne_eq, not_true_eq_false, or_self,
    globalStage, hattempt]
  rw [reclaimLocked_settled h hs]
  exact congrArg Except.ok hattempt

end Global

/-- In every state that a run reaches, a valid request that is turned down without a missing
descriptor finds no room in the global arena afterwards. If the CPU's own arena serves such
requests, that arena had no room, and a free segment of it that can hold the request afterwards
contains a segment that one of its magazines held. If it does not, the same request is turned down
again. -/
theorem vasAlloc_complete {base limit cpuCount : ℕ} {storage : Bool} {tags : List Bool} {v : Space}
    {l : VasLedger} (hlimit : limit < 2 ^ 64)
    (hc : spaceCreate base limit cpuCount storage tags = some v)
    (hrun : ReflTransGen VasStep ⟨v, []⟩ l) {cpu : ℕ} (hcpu : cpu < l.vas.cpuCount)
    {enabled : Bool} {size align : ℕ} {outcomes : List Bool} {r : AllocResult} (hsize : 0 < size)
    (ha : isPow2 align = true) (hlt : align < 2 ^ 64) (hfit : size ≤ limit - base)
    (hr : vasAlloc { l.vas with tags := outcomes } cpu enabled size align = .ok r)
    (h0 : r.addr = 0) (hm : r.metadataFailed = false) :
    NoRoom r.vas.global size align ∧
    (localRequest size align = true → NoRoom (l.vas.locals cpu) size align ∧
      ∀ t ∈ (r.vas.locals cpu).allSegs, t.type = .free → CanHold size align t →
        ∃ c ∈ (l.vas.locals cpu).allSegs, c.type = .cached ∧
          c.extent.toSet ⊆ t.extent.toSet) ∧
    (localRequest size align = false → ∀ outcomes' : List Bool, ∃ r',
      vasAlloc { r.vas with tags := outcomes' } cpu enabled size align = .ok r' ∧
        r'.addr = 0) := by
  have hinv := vasRun_ledgerInv hlimit hc hrun
  have hspace := hinv.space.setTags outcomes
  have hfit' : size ≤ l.vas.limit - l.vas.base := by
    rw [hinv.base, hinv.limit]
    exact hfit
  obtain ⟨r', hr', hserved, hno⟩ := vasAlloc_valid hsize ha hlt hspace hcpu hfit' enabled
  obtain rfl := Except.ok.inj (hr'.symm.trans hr)
  obtain ⟨hglobal, hlocal⟩ := hno h0 hm
  have hcpu' : cpu < r'.vas.cpuCount := hserved.shape.cpuCount.symm ▸ hcpu
  refine ⟨hglobal.noRoom hserved.inv.global ha hlt, fun hreq => ?_, fun hreq outcomes' => ?_⟩
  · have hroom := (hlocal hreq).noRoom (hspace.locals cpu hcpu).arena ha hlt
    refine ⟨hroom, fun t ht htf hcan => ?_⟩
    rcases (hserved.recycles h0 cpu hcpu).free t ht htf with htl | hcached
    · exact absurd hcan (hroom t htl htf)
    · exact hcached
  · have hsettled := vasAlloc_settled hsize ha hlt hreq hspace hcpu hfit' hr h0 hm
    rw [← hserved.shape.cpuCount] at hsettled
    exact ⟨_, vasAlloc_fails ha hreq (hserved.inv.setTags outcomes') hcpu' hsettled hglobal enabled,
      rfl⟩

/-- A page is asked for in a space whose one chunk is taken. -/
theorem vasAlloc_complete_page : ∃ l r, ReflTransGen VasStep ⟨chunkSpace 1, []⟩ l ∧
    vasAlloc l.vas 0 true pageSize pageSize = .ok r ∧ r.addr = 0 ∧
    NoRoom r.vas.global pageSize pageSize ∧ NoRoom (l.vas.locals 0) pageSize pageSize := by
  have hr₁ := vasAlloc_of_allocates
    (show allocates (chunkSpace 1) 0 true chunkSize 1 chunkSize = true by decide +kernel)
  have hstep : VasStep ⟨chunkSpace 1, []⟩
      ⟨afterAlloc (chunkSpace 1) 0 true chunkSize 1, [⟨chunkSize, chunkSize⟩]⟩ :=
    VasStep.alloc (show 0 < 1 by decide) (by decide) (by decide) hr₁
  have hrun := ReflTransGen.single hstep
  have hr₂ := vasAlloc_of_allocates (show allocates
    { afterAlloc (chunkSpace 1) 0 true chunkSize 1 with tags := [] } 0 true pageSize pageSize 0 =
      true by decide +kernel)
  have hcomplete := vasAlloc_complete (by decide) (spaceCreate_chunkSpace (show 0 < 1 by decide))
    hrun (show 0 < (afterAlloc (chunkSpace 1) 0 true chunkSize 1).cpuCount by decide +kernel)
    (by decide) (by decide) (by decide) (by decide) hr₂ rfl rfl
  exact ⟨_, _, hrun, hr₂, rfl, hcomplete.1, (hcomplete.2.1 (by decide)).1⟩

/-! ### A request above the chunk size -/

/-- The space that `vas_free` leaves. -/
def afterFree (v : Space) (cpu : ℕ) (enabled : Bool) (e : Extent) : Space :=
  match vasFree v cpu enabled e.start e.length with
  | .ok w => w
  | .error _ => v

theorem vasFree_of_isOk {v : Space} {cpu : ℕ} {enabled : Bool} {e : Extent}
    (h : (vasFree v cpu enabled e.start e.length).isOk = true) :
    vasFree v cpu enabled e.start e.length = .ok (afterFree v cpu enabled e) := by
  rw [afterFree]
  cases hv : vasFree v cpu enabled e.start e.length with
  | ok w => rfl
  | error _ =>
    rw [hv] at h
    cases h

/-- The extent of three pages from page `k` of the chunk on. -/
def gapExtent (k : ℕ) : Extent := ⟨2 * chunkSize + k * pageSize, 3 * pageSize⟩

/-- Two extents of three pages are allocated in a space of one chunk. -/
def gapPrefix : ℕ → Space
  | 0 => chunkSpace 2
  | n + 1 => afterAlloc (gapPrefix n) 0 true (3 * pageSize) pageSize

/-- Then the first is freed, which leaves a free segment at the start of the chunk. -/
def gapSpace : Space := afterFree (gapPrefix 2) 0 true (gapExtent 0)

theorem gapSpace_run : ReflTransGen VasStep ⟨chunkSpace 2, []⟩ ⟨gapSpace, [gapExtent 3]⟩ := by
  have hr₀ := vasAlloc_of_allocates
    (show allocates (gapPrefix 0) 0 true (3 * pageSize) pageSize (2 * chunkSize) = true by
      decide +kernel)
  have hr₁ := vasAlloc_of_allocates
    (show allocates (gapPrefix 1) 0 true (3 * pageSize) pageSize
      (2 * chunkSize + 3 * pageSize) = true by decide +kernel)
  have hr₂ := vasFree_of_isOk
    (show (vasFree (gapPrefix 2) 0 true (gapExtent 0).start (gapExtent 0).length).isOk = true by
      decide +kernel)
  have h₀ : VasStep ⟨chunkSpace 2, []⟩ ⟨gapPrefix 1, [gapExtent 0]⟩ :=
    VasStep.alloc (show 0 < 1 by decide) (by decide) (by decide) hr₀
  have h₁ : VasStep ⟨gapPrefix 1, [gapExtent 0]⟩ ⟨gapPrefix 2, [gapExtent 3, gapExtent 0]⟩ :=
    VasStep.alloc (show 0 < (gapPrefix 1).cpuCount by decide +kernel) (by decide) (by decide) hr₁
  have hmem : gapExtent 0 ∈ [gapExtent 3, gapExtent 0] := by decide
  have h₂ : VasStep ⟨gapPrefix 2, [gapExtent 3, gapExtent 0]⟩
      ⟨gapSpace, [gapExtent 3, gapExtent 0].erase (gapExtent 0)⟩ :=
    VasStep.free (show 0 < (gapPrefix 2).cpuCount by decide +kernel) hmem hr₂
  rw [show [gapExtent 3, gapExtent 0].erase (gapExtent 0) = [gapExtent 3] by decide] at h₂
  exact ((ReflTransGen.single h₀).tail h₁).tail h₂

/-- A request for three pages at twice the chunk size is turned down although the CPU's arena holds
a free segment for it. -/
theorem vasAlloc_skips_local : ∃ l r, ReflTransGen VasStep ⟨chunkSpace 2, []⟩ l ∧
    0 < l.vas.cpuCount ∧ isPow2 (2 * chunkSize) = true ∧
    3 * pageSize ≤ l.vas.limit - l.vas.base ∧
    vasAlloc l.vas 0 true (3 * pageSize) (2 * chunkSize) = .ok r ∧ r.addr = 0 ∧
    r.metadataFailed = false ∧ ∃ s ∈ (r.vas.locals 0).allSegs, s.type = .free ∧
      CanHold (3 * pageSize) (2 * chunkSize) s := by
  have hr := vasAlloc_of_allocates
    (show allocates gapSpace 0 true (3 * pageSize) (2 * chunkSize) 0 = true by decide +kernel)
  have hseg : ((afterAlloc gapSpace 0 true (3 * pageSize) (2 * chunkSize)).locals 0).allSegs.find?
      (fun s => decide (s.type = .free)) =
        some ⟨2 * chunkSize, 3 * pageSize, 2 * chunkSize, .free, none⟩ := by decide +kernel
  have hmem := mem_of_find?_eq_some hseg
  have hcpu : 0 < gapSpace.cpuCount := by decide +kernel
  have hfit : 3 * pageSize ≤ gapSpace.limit - gapSpace.base := by decide +kernel
  have hcan : CanHold (3 * pageSize) (2 * chunkSize)
      ⟨2 * chunkSize, 3 * pageSize, 2 * chunkSize, .free, none⟩ :=
    ⟨2 * chunkSize, dvd_rfl, by decide, by decide⟩
  generalize afterAlloc gapSpace 0 true (3 * pageSize) (2 * chunkSize) = w at hr hmem
  exact ⟨_, _, gapSpace_run, hcpu, by decide, hfit, hr, rfl, rfl, _, hmem, rfl, hcan⟩

end Charmos.Vas
