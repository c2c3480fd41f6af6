import Charmos.Mem.Vas.MagazineSpec

/-!
# What the operations on one CPU's arena keep

The operations that work under the lock of a CPU's arena change that arena, the count of reserved
bytes and the outcomes of metadata allocations, and nothing else of the space (`LocalStep`).
Refilling and draining the magazines also keep the busy extents (`LocalKeeps`).
-/

namespace Charmos.Vas

open Function List Option Tiling Or

/-- `v'` differs from `v` at most in the arena of `cpu`, the reserved bytes and the outcomes. -/
structure LocalStep (cpu : ℕ) (v v' : Space) : Prop where
  global : v'.global = v.global
  base : v'.base = v.base
  limit : v'.limit = v.limit
  mapBase : v'.mapBase = v.mapBase
  cpuCount : v'.cpuCount = v.cpuCount
  chunkOwner : v'.chunkOwner = v.chunkOwner
  others : ∀ c ≠ cpu, v'.locals c = v.locals c

theorem LocalStep.refl (cpu : ℕ) (v : Space) : LocalStep cpu v v :=
  ⟨rfl, rfl, rfl, rfl, rfl, rfl, fun _ _ => rfl⟩

theorem LocalStep.trans {cpu : ℕ} {u v w : Space} (h : LocalStep cpu u v) (h' : LocalStep cpu v w) :
    LocalStep cpu u w where
  global := h'.global.trans h.global
  base := h'.base.trans h.base
  limit := h'.limit.trans h.limit
  mapBase := h'.mapBase.trans h.mapBase
  cpuCount := h'.cpuCount.trans h.cpuCount
  chunkOwner := h'.chunkOwner.trans h.chunkOwner
  others c hc := (h'.others c hc).trans (h.others c hc)

/-- Overwriting the arena of `cpu` is such a step. -/
theorem LocalStep.set (cpu : ℕ) (v : Space) (A : Arena) (bytes : ℕ) (tags : List Bool) :
    LocalStep cpu v { v.setArena A (some cpu) with magReservedBytes := bytes, tags := tags } :=
  ⟨rfl, rfl, rfl, rfl, rfl, rfl, fun _ hc => update_of_ne hc ..⟩

@[simp] theorem locals_setArena (v : Space) (A : Arena) (cpu : ℕ) :
    (v.setArena A (some cpu)).locals cpu = A := update_self ..

theorem ArenaInv.setSlot {Span : ℕ → Set ℕ} {R : Set ℕ} {A : Arena} (h : ArenaInv Span R A)
    (cls i : ℕ) (x : MagSlot) : ArenaInv Span R (A.setSlot cls i x) :=
  ⟨h.range, h.tiles, h.spans, h.freeSlot, h.bins.congr rfl rfl, h.total⟩

/-! ### Allocation -/

section Alloc

variable {R : Set ℕ} {A A' : Arena} {m : Segment} {cpu size align : ℕ} {v : Space}

/-- A CPU's arena with one more busy segment. -/
theorem Allocated.localInv (ha : Allocated chunkSpan R size align A A' m) (h : LocalInv R A) :
    LocalInv R A' := by
  refine ⟨ha.inv, ?_, ?_⟩
  · rw [ha.magazines]
    refine (SlotsOk.cons h.slots ha.slot ?_).perm ha.held.symm
    rw [ha.type]
    decide
  · intro t ht
    rcases mem_cons.mp (ha.held.mem_iff.mp ht) with rfl | ht
    · rw [ha.type]
      decide
    · exact h.types t ht

/-- `arena_alloc` on a CPU's arena. -/
theorem allocIn_local (h : LocalInv R (v.locals cpu)) (hsize : 0 < size) (ha : isPow2 align = true)
    (hlt : align < 2 ^ 64) :
    LocalStep cpu v (allocIn v (some cpu) size align).2.2 ∧
    (((allocIn v (some cpu) size align).1 = none ∧
      (allocIn v (some cpu) size align).2.2.locals cpu = v.locals cpu ∧
      ((allocIn v (some cpu) size align).2.1 = false → NoFit (v.locals cpu) size align)) ∨
    ∃ m, (allocIn v (some cpu) size align).1 = some m.start ∧
      (allocIn v (some cpu) size align).2.1 = false ∧
      LocalInv R ((allocIn v (some cpu) size align).2.2.locals cpu) ∧
      Allocated chunkSpan R size align (v.locals cpu)
        ((allocIn v (some cpu) size align).2.2.locals cpu) m) := by
  refine ⟨LocalStep.set .., ?_⟩
  have hloc : (allocIn v (some cpu) size align).2.2.locals cpu =
      (arenaAlloc (v.locals cpu) v.tags size align).arena := update_self ..
  rw [hloc]
  rcases arenaAlloc_spec h.arena hsize ha hlt v.tags with hn | ⟨m, h₁, h₂, h₃⟩
  · exact inl hn
  · exact inr ⟨m, h₁, h₂, h₃.localInv h, h₃⟩

end Alloc

/-! ### Enrolling and releasing -/

section Enroll

variable {R : Set ℕ} {v : Space} {cpu cls : ℕ} {m : Segment} {H : List Segment} {align : ℕ}

/-- `magazine_enroll` changes nothing, or enrolls the busy segment in an empty slot. -/
theorem magazineEnroll_spec (h : LocalInv R (v.locals cpu))
    (hH : (held (v.locals cpu).allSegs).Perm (m :: H)) (hslot : m.magSlot = none)
    (hcls : cls < magClasses) (hlen : m.length = magSize cls) (st : MagState)
    (hst : st ≠ .claimed) :
    magazineEnroll v cpu m.start cls st = (false, v) ∨
      (magazineEnroll v cpu m.start cls st).1 = true ∧
      LocalStep cpu v (magazineEnroll v cpu m.start cls st).2 ∧
      LocalInv R ((magazineEnroll v cpu m.start cls st).2.locals cpu) ∧
      ∃ i, (held ((magazineEnroll v cpu m.start cls st).2.locals cpu).allSegs).Perm
        ({ m with magSlot := some (cls, i), type := st.segmentType } :: H) := by
  rw [magazineEnroll]
  by_cases hp : isAligned m.start pageSize = true
  swap
  · rw [if_neg hp]
    exact inl rfl
  rw [if_pos hp]
  cases hf : (range (magCap cls)).find? fun i =>
      decide (((v.locals cpu).slot cls i).token = 0) with
  | none => exact inl rfl
  | some i =>
    have hi : i < magCap cls := mem_range.mp (mem_of_find?_eq_some hf)
    have htok : ((v.locals cpu).slot cls i).token = 0 := by simpa using find?_some hf
    simp only
    split
    · exact inl rfl
    refine inr ⟨rfl, LocalStep.set .., ?_⟩
    simp only [locals_setArena]
    obtain ⟨hm, hheld⟩ := LocalInv.mem_of_perm hH
    -- the slot is written first, then the type and the token
    obtain ⟨hinv₁, hperm₁, -⟩ := modifySeg_spec
      (f := fun s => { s with magSlot := some (cls, i) }) h.arena hm hheld rfl rfl hheld
    have hH₁ := hperm₁ H hH
    set A₁ := modifySeg (v.locals cpu) m.start fun s => { s with magSlot := some (cls, i) }
    set A₂ := A₁.setSlot cls i { A₁.slot cls i with segment := some m.start } with hA₂
    have hseg : (A₂.slot cls i).segment = some m.start := by
      simp [hA₂, Arena.slot, setMag_self]
    have hm₁ : ({ m with magSlot := some (cls, i) } : Segment) ∈ A₂.allSegs :=
      (mem_held.mp (hH₁.mem_iff.mpr (by simp))).1
    obtain ⟨hinv₂, hperm₂, -⟩ := modifySeg_spec
      (f := fun s => { s with type := st.segmentType }) (hinv₁.setSlot cls i _) hm₁ hheld rfl rfl
      (segmentType_ne st).1
    have hH₂ := hperm₂ H hH₁
    have hpub : magazinePublish A₂ cls i st = (modifySeg A₂ m.start fun s =>
        { s with type := st.segmentType }).setSlot cls i ⟨tokenMake m.start st, some m.start⟩ :=
        by
      rw [magazinePublish]
      simp only [hseg]
      congr 2
    rw [hpub]
    have hmags : (modifySeg A₂ m.start fun s => { s with type := st.segmentType }).magazines =
        setMag (v.locals cpu).magazines cls i
          { A₁.slot cls i with segment := some m.start } := rfl
    refine ⟨⟨hinv₂.setSlot .., ?_, ?_⟩, i, hH₂⟩
    · refine SlotsOk.perm ?_ hH₂.symm
      rw [setSlot_magazines, hmags, setMag_setMag]
      refine SlotsOk.set (h.slots.perm hH) ?_ (inl hslot) rfl ?_
      · -- the slot was empty, so it belonged to no segment
        intro t ht htc
        have he := h.enrolled (hH.mem_iff.mpr (by simp [ht])) htc
        obtain ⟨st', -, -, htoken⟩ := he.state
        exact tokenMake_ne_zero (four_dvd_of_page he.page) st' (htoken.symm.trans htok)
      · refine ⟨hcls, hi, hlen, isAligned_page.mp hp, ?_, st, hst, rfl, ?_⟩
        · rw [setMag_self]
        · rw [setMag_self]
    · intro t ht
      rcases mem_cons.mp (hH₂.mem_iff.mp ht) with rfl | ht
      · exact (segmentType_ne st).2
      · exact h.types t (hH.mem_iff.mpr (by simp [ht]))

/-- Releasing a held segment outside the magazines keeps a CPU's arena. -/
theorem arenaRelease_local {A : Arena} (h : LocalInv R A) (hH : (held A.allSegs).Perm (m :: H))
    (hslot : m.magSlot = none) :
    LocalInv R (arenaRelease A m.start) ∧ (held (arenaRelease A m.start).allSegs).Perm H := by
  obtain ⟨hm, hheld⟩ := LocalInv.mem_of_perm hH
  obtain ⟨hinv, hperm, hmags, -⟩ := arenaRelease_spec h.arena hm hheld hslot
  have hH' : (held (arenaRelease A m.start).allSegs).Perm H := (hperm.symm.trans hH).cons_inv
  refine ⟨⟨hinv, ?_, ?_⟩, hH'⟩
  · rw [hmags]
    exact ((h.slots.perm hH).tail hslot).perm hH'.symm
  · intro t ht
    exact h.types t (hH.mem_iff.mpr (by simp [hH'.mem_iff.mp ht]))

/-- The arena of `cpu` keeps its invariant and its busy extents, the rest of the space is the
same. -/
structure LocalKeeps (R : Set ℕ) (cpu : ℕ) (v v' : Space) : Prop where
  step : LocalStep cpu v v'
  inv : LocalInv R (v'.locals cpu)
  busy : (busyIn (v'.locals cpu)).Perm (busyIn (v.locals cpu))

theorem LocalKeeps.refl (h : LocalInv R (v.locals cpu)) : LocalKeeps R cpu v v :=
  ⟨LocalStep.refl cpu v, h, Perm.refl _⟩

theorem LocalKeeps.trans {u w : Space} (h : LocalKeeps R cpu u v) (h' : LocalKeeps R cpu v w) :
    LocalKeeps R cpu u w :=
  ⟨h.step.trans h'.step, h'.inv, h'.busy.trans h.busy⟩

theorem magSize_pos (hcls : cls < magClasses) : 0 < magSize cls := by
  have : ∀ c < magClasses, 0 < magSize c := by decide
  exact this cls hcls

/-- The loop of `magazine_refill` only adds cached segments. -/
theorem refillLoop_keeps (h : LocalInv R (v.locals cpu)) (hcls : cls < magClasses)
    (ha : isPow2 align = true) (hlt : align < 2 ^ 64) (n : ℕ) :
    LocalKeeps R cpu v (refillLoop cpu cls align n v) := by
  induction n generalizing v with
  | zero => exact LocalKeeps.refl h
  | succ n ih =>
    rw [refillLoop]
    obtain ⟨hstep, hcase⟩ := allocIn_local h (magSize_pos hcls) ha hlt
    generalize allocIn v (some cpu) (magSize cls) align = r at hstep hcase
    obtain ⟨seg, failed, v₁⟩ := r
    rcases hcase with ⟨rfl, hsame, -⟩ | ⟨m, rfl, -, hinv, halloc⟩
    · exact ⟨hstep, hsame.symm ▸ h, by rw [hsame]⟩
    simp only
    have henroll := magazineEnroll_spec hinv halloc.held halloc.slot hcls halloc.length .cached
      (by decide)
    generalize magazineEnroll v₁ cpu m.start cls .cached = r at henroll
    obtain ⟨ok, v₂⟩ := r
    rcases henroll with hno | ⟨htrue, hstep₂, hinv₂, i, hperm⟩
    · obtain ⟨⟩ := hno
      obtain ⟨hinv₃, hperm₃⟩ := arenaRelease_local hinv halloc.held halloc.slot
      refine ⟨hstep.trans (LocalStep.set ..), ?_, ?_⟩
      · simpa using hinv₃
      · simpa [busyIn] using busyOf_perm hperm₃
    · subst htrue
      refine LocalKeeps.trans ⟨hstep.trans hstep₂, hinv₂, ?_⟩ (ih hinv₂)
      have hb := busyOf_perm hperm
      rwa [busyOf_cons_other (by simp [MagState.segmentType])] at hb

theorem magClass_length {n : ℕ} (h : magClass n < magClasses) : n = magSize (magClass n) := by
  have hm : n ∈ magSizes := idxOf_lt_length_iff.mp h
  rw [magSize, magClass, getD_eq_getElem _ _ (idxOf_lt_length_iff.mpr hm),
    getElem_idxOf]

/-- `magazine_refill` keeps the busy extents: the segment just allocated stays busy. -/
theorem magazineRefill_keeps (h : LocalInv R (v.locals cpu))
    (hH : (held (v.locals cpu).allSegs).Perm (m :: H)) (hslot : m.magSlot = none)
    (htype : m.type = .busy) (ha : isPow2 align = true) (hlt : align < 2 ^ 64) (enabled : Bool) :
    LocalKeeps R cpu v (magazineRefill v cpu enabled m.start align) := by
  have hat : segmentAt (v.locals cpu) m.start = some m :=
    h.arena.segmentAt_eq (LocalInv.mem_of_perm hH).1
  simp only [magazineRefill, hat, map_some, getD_some]
  split
  · exact LocalKeeps.refl h
  rename_i hc
  rw [not_or] at hc
  have hcls : magClass m.length < magClasses :=
    lt_of_le_of_ne (by rw [magClass]; exact idxOf_le_length) hc.2
  have henroll := magazineEnroll_spec h hH hslot hcls (magClass_length hcls) .live (by decide)
  generalize magazineEnroll v cpu m.start (magClass m.length) .live = r at henroll
  obtain ⟨ok, v₂⟩ := r
  rcases henroll with hno | ⟨htrue, hstep₂, hinv₂, i, hperm⟩
  · obtain ⟨⟩ := hno
    exact LocalKeeps.refl h
  subst htrue
  refine LocalKeeps.trans ⟨hstep₂, hinv₂, ?_⟩ (refillLoop_keeps hinv₂ hcls ha hlt _)
  have hb := busyOf_perm hperm
  have hb' := busyOf_perm hH
  rw [busyOf_cons_busy htype] at hb'
  exact hb.trans hb'.symm

end Enroll

/-! ### Releasing an enrolled segment -/

section Release

variable {R : Set ℕ} {v : Space} {cpu cls i : ℕ} {s : Segment} {H : List Segment} {slot : ℕ × ℕ}
  {B : Arena}

/-- `magazine_release` after a successful claim takes the enrolled segment out of the arena. -/
theorem magazineRelease_spec (h : LocalInv R (v.locals cpu))
    (hH : (held (v.locals cpu).allSegs).Perm (s :: H)) (hslot : s.magSlot = some (cls, i))
    {token : ℕ} (hc : magazineClaim (v.locals cpu) cls i token = some B) :
    LocalStep cpu v (magazineRelease (v.setArena B (some cpu)) (some cpu) cls i) ∧
    LocalInv R ((magazineRelease (v.setArena B (some cpu)) (some cpu) cls i).locals cpu) ∧
    (held ((magazineRelease (v.setArena B (some cpu)) (some cpu) cls i).locals cpu).allSegs).Perm
      H ∧
    ∀ t ∈ ((magazineRelease (v.setArena B (some cpu)) (some cpu) cls i).locals cpu).allSegs,
      t.type = .free → t ∈ (v.locals cpu).allSegs ∨ s.extent.toSet ⊆ t.extent.toSet := by
  obtain ⟨hs, hheld⟩ := LocalInv.mem_of_perm hH
  have he := h.enrolled (mem_held.mpr ⟨hs, hheld⟩) hslot
  rw [magazineClaim] at hc
  split at hc
  swap
  · cases hc
  obtain ⟨⟩ := hc
  have hseg : (Arena.slot ((v.locals cpu).setSlot cls i
      { (v.locals cpu).slot cls i with token := tokenMake (tokenAddr token) .claimed })
      cls i).segment = some s.start := by
    simp only [Arena.slot, setSlot_magazines, setMag_self]
    exact he.segment
  generalize hx : ({ (v.locals cpu).slot cls i with
    token := tokenMake (tokenAddr token) .claimed } : MagSlot) = x at hseg ⊢
  have harena : (v.setArena ((v.locals cpu).setSlot cls i x) (some cpu)).arena (some cpu) =
      (v.locals cpu).setSlot cls i x := update_self ..
  simp only [magazineRelease, harena, hseg]
  refine ⟨(LocalStep.set cpu v _ v.magReservedBytes v.tags).trans (LocalStep.set ..), ?_⟩
  simp only [locals_setArena]
  obtain ⟨hinv₁, hperm₁, hmem₁⟩ := modifySeg_spec (f := fun t => { t with magSlot := none })
    (h.arena.setSlot cls i x) hs hheld rfl rfl hheld
  have hH₁ := hperm₁ H hH
  have hs₁ := LocalInv.mem_of_perm hH₁
  obtain ⟨hinv₂, hperm₂, hmags₂, hmem₂⟩ := arenaRelease_spec hinv₁ hs₁.1 hs₁.2 rfl
  have hH₂ := (hperm₂.symm.trans hH₁).cons_inv
  refine ⟨⟨hinv₂.setSlot .., ?_, ?_⟩, hH₂, ?_⟩
  · have hm : (modifySeg ((v.locals cpu).setSlot cls i x) s.start
        fun t => { t with magSlot := none }).magazines = setMag (v.locals cpu).magazines cls i x :=
      rfl
    rw [setSlot_magazines, hmags₂, hm, setMag_setMag]
    exact ((h.slots.perm hH).clear (h.slot_ne hH hslot) (inr hslot)).perm hH₂.symm
  · intro t ht
    exact h.types t (hH.mem_iff.mpr (by simp [hH₂.mem_iff.mp ht]))
  · intro t ht htf
    rcases hmem₂ t ht with ht | hsub
    · rcases hmem₁ t ht with ht | rfl
      · exact inl ht
      · exact absurd htf hheld
    · exact inr hsub

/-- `A'` has no segment that `A` lacks, save for free ones that contain a cached segment of `A`. -/
structure Recycles (A A' : Arena) : Prop where
  held : ∀ t ∈ held A'.allSegs, t ∈ held A.allSegs
  free : ∀ t ∈ A'.allSegs, t.type = .free → t ∈ A.allSegs ∨
    ∃ c ∈ A.allSegs, c.type = .cached ∧ c.extent.toSet ⊆ t.extent.toSet

theorem Recycles.of_subset {A A' : Arena} (h : ∀ t ∈ A'.allSegs, t ∈ A.allSegs) : Recycles A A' :=
  ⟨fun t ht => mem_held.mpr ⟨h t (mem_held.mp ht).1, (mem_held.mp ht).2⟩,
    fun t ht _ => inl (h t ht)⟩

theorem Recycles.refl (A : Arena) : Recycles A A := Recycles.of_subset fun _ ht => ht

theorem Recycles.trans {A C : Arena} (h : Recycles A B) (h' : Recycles B C) : Recycles A C := by
  refine ⟨fun t ht => h.held t (h'.held t ht), ?_⟩
  intro t ht htf
  rcases h'.free t ht htf with ht | ⟨c, hc, hcc, hsub⟩
  · exact h.free t ht htf
  · have hch := h.held c (mem_held.mpr ⟨hc, by rw [hcc]; decide⟩)
    exact inr ⟨c, (mem_held.mp hch).1, hcc, hsub⟩

/-- What draining makes of the arena of `cpu`: the busy extents stay and cached segments are
recycled. -/
structure Drains (R : Set ℕ) (cpu : ℕ) (v v' : Space) : Prop where
  keeps : LocalKeeps R cpu v v'
  recycles : Recycles (v.locals cpu) (v'.locals cpu)

theorem Drains.refl (h : LocalInv R (v.locals cpu)) : Drains R cpu v v :=
  ⟨LocalKeeps.refl h, Recycles.refl _⟩

theorem Drains.trans {u w : Space} (h : Drains R cpu u v) (h' : Drains R cpu v w) :
    Drains R cpu u w := ⟨h.keeps.trans h'.keeps, h.recycles.trans h'.recycles⟩

theorem drainSlot_drains (h : LocalInv R (v.locals cpu)) (hcls : slot.1 < magClasses)
    (hi : slot.2 < magCap slot.1) : Drains R cpu v (drainSlot cpu v slot) := by
  rw [drainSlot]
  by_cases hskip : tokenState ((v.locals cpu).slot slot.1 slot.2).token ≠ MagState.cached.code
  · rw [if_pos hskip]
    exact Drains.refl h
  rw [if_neg hskip, magazineClaim_self]
  have hstate := not_not.mp hskip
  have hne : ((v.locals cpu).slot slot.1 slot.2).token ≠ 0 := fun h0 => by
    rw [h0] at hstate
    exact absurd hstate (by decide)
  obtain ⟨s, H, hH, hslot, he⟩ := h.slot_segment hcls hi hne
  obtain ⟨st, hst, htype, htoken⟩ := he.state
  have htok : ((v.locals cpu).slot slot.1 slot.2).token = tokenMake s.start st := htoken
  rw [htok, tokenState_tokenMake (four_dvd_of_page he.page)] at hstate
  obtain rfl := MagState.code_inj hstate
  obtain ⟨hstep, hinv, hperm, hfree⟩ :=
    magazineRelease_spec h hH hslot (magazineClaim_self (v.locals cpu) slot.1 slot.2)
  refine ⟨⟨hstep, hinv, ?_⟩, ?_, ?_⟩
  · have hb := busyOf_perm hH
    rw [busyOf_cons_other (by rw [htype]; decide)] at hb
    exact (busyOf_perm hperm).trans hb.symm
  · exact fun t ht => hH.mem_iff.mpr (by simp [hperm.mem_iff.mp ht])
  · intro t ht htf
    rcases hfree t ht htf with ht | hsub
    · exact inl ht
    · exact inr ⟨s, (LocalInv.mem_of_perm hH).1, htype, hsub⟩

theorem mem_magSlots : slot ∈ magSlots ↔ slot.1 < magClasses ∧ slot.2 < magCap slot.1 := by
  simp only [magSlots, mem_flatMap, mem_range, List.mem_map]
  constructor
  · rintro ⟨cls, hcls, i, hi, rfl⟩
    exact ⟨hcls, hi⟩
  · rintro ⟨hcls, hi⟩
    exact ⟨slot.1, hcls, slot.2, hi, rfl⟩

/-- `magazine_drain` drains the arena of its CPU. -/
theorem magazineDrain_drains (h : LocalInv R (v.locals cpu)) :
    Drains R cpu v (magazineDrain v cpu) := by
  have hall : ∀ slot ∈ magSlots, slot.1 < magClasses ∧ slot.2 < magCap slot.1 :=
    fun slot hs => mem_magSlots.mp hs
  rw [magazineDrain]
  generalize magSlots = slots at hall
  induction slots generalizing v with
  | nil => exact Drains.refl h
  | cons slot rest ih =>
    have hd := drainSlot_drains h (hall slot (by simp)).1 (hall slot (by simp)).2
    exact hd.trans (ih hd.keeps.inv fun sl hsl => hall sl (mem_cons_of_mem _ hsl))

/-- After its slot was drained a segment is not cached any more. -/
theorem drainSlot_clears (h : LocalInv R (v.locals cpu)) (hcls : slot.1 < magClasses)
    (hi : slot.2 < magCap slot.1) :
    ∀ t ∈ held ((drainSlot cpu v slot).locals cpu).allSegs, t.type = .cached →
      t.magSlot ≠ some slot := by
  intro t ht htype htslot
  have htv := (drainSlot_drains h hcls hi).recycles.held t ht
  have het := h.enrolled htv htslot
  obtain ⟨st, hst, hsttype, htoken⟩ := het.state
  have hcached : st = .cached := by
    rw [htype] at hsttype
    cases st
    · cases hsttype
    · rfl
    · exact absurd rfl hst
  subst hcached
  have hperm := perm_cons_erase htv
  have htok : ((v.locals cpu).slot slot.1 slot.2).token = tokenMake t.start .cached := htoken
  have hstate : tokenState ((v.locals cpu).slot slot.1 slot.2).token = MagState.cached.code := by
    rw [htok, tokenState_tokenMake (four_dvd_of_page het.page)]
  rw [drainSlot, if_neg (not_not.mpr hstate), magazineClaim_self] at ht
  obtain ⟨-, -, hrest, -⟩ := magazineRelease_spec h hperm htslot
    (magazineClaim_self (v.locals cpu) slot.1 slot.2)
  exact h.slot_ne hperm htslot t (hrest.mem_iff.mp ht) htslot

/-- `magazine_drain` leaves no cached segment. -/
theorem magazineDrain_uncached (h : LocalInv R (v.locals cpu)) :
    ∀ t ∈ ((magazineDrain v cpu).locals cpu).allSegs, t.type ≠ .cached := by
  have hfold : ∀ slots : List (ℕ × ℕ), (∀ slot ∈ slots, slot.1 < magClasses ∧
      slot.2 < magCap slot.1) → ∀ u : Space, LocalInv R (u.locals cpu) →
      LocalInv R ((slots.foldl (drainSlot cpu) u).locals cpu) ∧
      Recycles (u.locals cpu) ((slots.foldl (drainSlot cpu) u).locals cpu) ∧
      ∀ t ∈ held ((slots.foldl (drainSlot cpu) u).locals cpu).allSegs, t.type = .cached →
        ∀ slot ∈ slots, t.magSlot ≠ some slot := by
    intro slots
    induction slots with
    | nil => exact fun _ u hu => ⟨hu, Recycles.refl _, by simp⟩
    | cons slot rest ih =>
      intro hall u hu
      obtain ⟨hcls, hi⟩ := hall slot (by simp)
      have hd := drainSlot_drains hu hcls hi
      obtain ⟨hinv, hrec, hclear⟩ :=
        ih (fun sl hsl => hall sl (mem_cons_of_mem _ hsl)) _ hd.keeps.inv
      refine ⟨hinv, hd.recycles.trans hrec, ?_⟩
      intro t ht htype sl hsl
      rcases mem_cons.mp hsl with rfl | hsl
      · exact drainSlot_clears hu hcls hi t (hrec.held t ht) htype
      · exact hclear t ht htype sl hsl
  obtain ⟨hinv, -, hclear⟩ := hfold magSlots (fun slot hs => mem_magSlots.mp hs) v h
  rw [magazineDrain]
  intro t ht htype
  have hth := mem_held.mpr ⟨ht, show t.type ≠ .free by rw [htype]; decide⟩
  obtain ⟨slot, hslot⟩ := ne_none_iff_exists'.mp (hinv.slots.cached t hth htype)
  have he := hinv.enrolled hth hslot
  exact hclear t hth htype slot (mem_magSlots.mpr ⟨he.cls_lt, he.slot_lt⟩) hslot

end Release

end Charmos.Vas
