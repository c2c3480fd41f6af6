import Charmos.Mem.Vas.LocalSpec

/-!
# The invariant of the address space

`SpaceInv v` puts the arenas together. The global arena tiles `[base, limit)`; its imported
segments are exactly the chunks that the directory assigns to a CPU; and the arena of each CPU
tiles the chunks assigned to it. `busyAll v` lists the busy extents of all arenas, which are the
extents handed out. Every call keeps the invariant, and its effect is stated on `busyAll`.
-/

namespace Charmos.Vas

open Function List Tiling

/-- The chunk with index `i` in the directory. -/
def chunkAt (v : Space) (i : ℕ) : Extent := ⟨v.mapBase + i * chunkSize, chunkSize⟩

/-- The addresses of the chunks that the directory assigns to `cpu`. -/
def regionOf (v : Space) (cpu : ℕ) : Set ℕ :=
  {x | ∃ i, v.chunkOwner i = some cpu ∧ x ∈ (chunkAt v i).toSet}

/-- Segments of the global arena have no span of their own. -/
def globalSpan (c : ℕ) : Set ℕ := {_x | c = 0}

/-- The bounds of a space. -/
structure SpaceBounds (v : Space) : Prop where
  base_pos : 0 < v.base
  base_lt : v.base < v.limit
  limit_lt : v.limit < 2 ^ 64
  mapBase_eq : v.mapBase = v.base / chunkSize * chunkSize

/-- The invariant of a space between two calls. -/
structure SpaceInv (v : Space) : Prop where
  bounds : SpaceBounds v
  global : ArenaInv globalSpan (Set.Ico v.base v.limit) v.global
  globalHeld : ∀ s ∈ held v.global.allSegs, s.magSlot = none ∧ s.type ≠ .cached
  imported : ∀ s ∈ held v.global.allSegs, s.type = .imported →
    ∃ i cpu, v.chunkOwner i = some cpu ∧ s.extent = chunkAt v i
  owned : ∀ i cpu, v.chunkOwner i = some cpu → cpu < v.cpuCount ∧
    ∃ s ∈ held v.global.allSegs, s.type = .imported ∧ s.extent = chunkAt v i
  locals : ∀ cpu < v.cpuCount, LocalInv (regionOf v cpu) (v.locals cpu)

/-- The busy extents of all arenas. -/
def busyAll (v : Space) : List Extent :=
  busyIn v.global ++ (range v.cpuCount).flatMap fun cpu => busyIn (v.locals cpu)

/-! ### Chunks -/

section Chunk

variable {v : Space}

theorem chunkSize_pos : 0 < chunkSize := by decide

theorem chunkAt_disjoint {i j : ℕ} (h : i ≠ j) :
    Disjoint (chunkAt v i).toSet (chunkAt v j).toSet := by
  refine Extent.Apart.disjoint ?_
  simp only [Extent.Apart, Extent.Before, chunkAt]
  rcases Nat.lt_or_gt_of_ne h with h | h
  · refine Or.inl ?_
    have := Nat.mul_le_mul_right chunkSize (Nat.succ_le_of_lt h)
    rw [Nat.succ_mul] at this
    omega
  · refine Or.inr ?_
    have := Nat.mul_le_mul_right chunkSize (Nat.succ_le_of_lt h)
    rw [Nat.succ_mul] at this
    omega

theorem SpaceInv.mapBase_le (h : SpaceInv v) : v.mapBase ≤ v.base := by
  rw [h.bounds.mapBase_eq]
  exact Nat.div_mul_le_self ..

theorem SpaceInv.dvd_chunkAt (h : SpaceInv v) (i : ℕ) : chunkSize ∣ (chunkAt v i).start := by
  rw [chunkAt, h.bounds.mapBase_eq]
  exact Nat.dvd_add (Nat.dvd_mul_left ..) (Nat.dvd_mul_left ..)

/-- An address of the chunk `i` has the directory index `i`. -/
theorem ownerIndex_of_mem {i x : ℕ} (hx : x ∈ (chunkAt v i).toSet) : ownerIndex v x = i := by
  simp only [Extent.mem_toSet, chunkAt] at hx
  refine Nat.div_eq_of_lt_le ?_ ?_
  · omega
  · rw [Nat.succ_mul]
    omega

/-- A chunk-aligned address is the start of the chunk of its index. -/
theorem SpaceInv.chunkAt_ownerIndex (h : SpaceInv v) {p : ℕ} (hp : v.base ≤ p)
    (hd : chunkSize ∣ p) : chunkAt v (ownerIndex v p) = ⟨p, chunkSize⟩ := by
  have hle := h.mapBase_le
  have hdvd : chunkSize ∣ p - v.mapBase := by
    refine Nat.dvd_sub hd ?_
    rw [h.bounds.mapBase_eq]
    exact Nat.dvd_mul_left ..
  rw [chunkAt, ownerIndex, Nat.div_mul_cancel hdvd, Nat.add_sub_of_le (by omega)]

/-- A segment of a CPU's arena that fills the chunk it starts is a chunk of that CPU. -/
theorem SpaceInv.eq_chunkAt (h : SpaceInv v) {cpu : ℕ} (hcpu : cpu < v.cpuCount) {s : Segment}
    (hs : s ∈ (v.locals cpu).allSegs) (hstart : s.start = s.spanStart)
    (hlen : s.length = chunkSize) : ∃ i, v.chunkOwner i = some cpu ∧ s.extent = chunkAt v i := by
  obtain ⟨i, hi, hx⟩ := (h.locals cpu hcpu).arena.start_mem hs
  refine ⟨i, hi, ?_⟩
  have hd : chunkSize ∣ s.start := by
    have := (h.locals cpu hcpu).arena.spans s hs
      (Extent.start_mem ((h.locals cpu hcpu).arena.pos hs))
    rw [hstart]
    exact this.1
  obtain ⟨a, ha⟩ := hd
  obtain ⟨b, hb⟩ := h.dvd_chunkAt i
  simp only [Extent.mem_toSet] at hx
  have hlen' : (chunkAt v i).length = chunkSize := rfl
  rw [hlen', hb, ha] at hx
  -- two multiples of the chunk size less than one chunk apart are equal
  have hab : a = b := by
    have h₁ := Nat.le_of_mul_le_mul_left hx.1 chunkSize_pos
    have h₂ : chunkSize * a < chunkSize * (b + 1) := by rw [Nat.mul_succ]; exact hx.2
    have h₃ := Nat.lt_of_mul_lt_mul_left h₂
    omega
  rw [Segment.extent, hlen, ha, hab, ← hb]
  rfl

end Chunk

/-! ### Steps of one CPU -/

/-- The spaces have the same bounds and CPUs. -/
structure SameShape (v w : Space) : Prop where
  base : w.base = v.base
  limit : w.limit = v.limit
  mapBase : w.mapBase = v.mapBase
  cpuCount : w.cpuCount = v.cpuCount

theorem SameShape.refl (v : Space) : SameShape v v := ⟨rfl, rfl, rfl, rfl⟩

theorem SameShape.trans {u v w : Space} (h : SameShape u v) (h' : SameShape v w) : SameShape u w :=
  ⟨h'.base.trans h.base, h'.limit.trans h.limit, h'.mapBase.trans h.mapBase,
    h'.cpuCount.trans h.cpuCount⟩

theorem SameShape.bounds {v w : Space} (h : SameShape v w) (hb : SpaceBounds v) : SpaceBounds w :=
  ⟨by rw [h.base]; exact hb.base_pos, by rw [h.base, h.limit]; exact hb.base_lt,
    by rw [h.limit]; exact hb.limit_lt, by rw [h.base, h.mapBase]; exact hb.mapBase_eq⟩

theorem LocalStep.shape {cpu : ℕ} {v w : Space} (h : LocalStep cpu v w) : SameShape v w :=
  { h with }

theorem SameShape.chunkAt_eq {v w : Space} (h : SameShape v w) (i : ℕ) :
    chunkAt w i = chunkAt v i := by rw [chunkAt, chunkAt, h.mapBase]

section Local

variable {v v' : Space} {cpu : ℕ} {X : List Extent}

theorem LocalStep.symm (h : LocalStep cpu v v') : LocalStep cpu v' v :=
  ⟨h.global.symm, h.base.symm, h.limit.symm, h.mapBase.symm, h.cpuCount.symm, h.chunkOwner.symm,
    fun c hc => (h.others c hc).symm⟩

theorem LocalStep.regionOf_eq (h : LocalStep cpu v v') (c : ℕ) : regionOf v' c = regionOf v c := by
  simp only [regionOf, chunkAt, h.chunkOwner, h.mapBase]

/-- A step of one CPU keeps the space if it keeps the arena of that CPU. -/
theorem SpaceInv.localStep (h : SpaceInv v) (hstep : LocalStep cpu v v')
    (hinv : LocalInv (regionOf v cpu) (v'.locals cpu)) : SpaceInv v' where
  bounds := hstep.shape.bounds h.bounds
  global := by rw [hstep.base, hstep.limit, hstep.global]; exact h.global
  globalHeld := by rw [hstep.global]; exact h.globalHeld
  imported := by
    simp only [hstep.global, hstep.chunkOwner, chunkAt, hstep.mapBase]
    exact h.imported
  owned := by
    simp only [hstep.global, hstep.chunkOwner, chunkAt, hstep.mapBase, hstep.cpuCount]
    exact h.owned
  locals c hc := by
    rw [hstep.regionOf_eq]
    by_cases he : c = cpu
    · rw [he]
      exact hinv
    · rw [hstep.others c he]
      exact h.locals c (hstep.cpuCount ▸ hc)

/-- What is added to the busy extents of one CPU is added to those of the space. -/
theorem busyAll_perm (hs : SameShape v v') (hg : (busyIn v'.global).Perm (busyIn v.global))
    (hcpu : cpu < v.cpuCount) (hothers : ∀ c ≠ cpu, v'.locals c = v.locals c)
    (hb : (busyIn (v'.locals cpu)).Perm (X ++ busyIn (v.locals cpu))) :
    (busyAll v').Perm (X ++ busyAll v) := by
  have hr : (range v.cpuCount).Perm (cpu :: (range v.cpuCount).erase cpu) :=
    perm_cons_erase (mem_range.mpr hcpu)
  have hrest : ((range v.cpuCount).erase cpu).flatMap (fun c => busyIn (v'.locals c)) =
      ((range v.cpuCount).erase cpu).flatMap (fun c => busyIn (v.locals c)) := by
    refine flatMap_congr fun c hc => ?_
    rw [hothers c ((Nodup.mem_erase_iff nodup_range).mp hc).1]
  have h₁ := hr.flatMap_right fun c => busyIn (v.locals c)
  have h₂ := hr.flatMap_right fun c => busyIn (v'.locals c)
  rw [flatMap_cons] at h₁ h₂
  rw [hrest] at h₂
  rw [busyAll, busyAll, hs.cpuCount]
  have h₃ := h₂.trans ((hb.append_right _).trans (by rw [append_assoc]))
  have h₄ := h₃.trans (h₁.symm.append_left X)
  refine (hg.append h₄).trans ?_
  rw [← append_assoc, ← append_assoc]
  exact perm_append_comm.append_right _

theorem LocalStep.busyAll_perm (hstep : LocalStep cpu v v') (hcpu : cpu < v.cpuCount)
    (hb : (busyIn (v'.locals cpu)).Perm (X ++ busyIn (v.locals cpu))) :
    (busyAll v').Perm (X ++ busyAll v) :=
  Vas.busyAll_perm hstep.shape (by rw [hstep.global]) hcpu hstep.others hb

end Local

/-! ### Changes of the global arena and of the directory -/

section Global

variable {v w : Space} {cpu i : ℕ} {p : Segment}

/-- The space keeps its invariant when its directory and its imported segments stay. -/
theorem SpaceInv.keepOwner (h : SpaceInv v) (hs : SameShape v w)
    (ho : w.chunkOwner = v.chunkOwner)
    (hG : ArenaInv globalSpan (Set.Ico v.base v.limit) w.global)
    (hheld : ∀ s ∈ held w.global.allSegs, s.magSlot = none ∧ s.type ≠ .cached)
    (himp : ∀ s : Segment, s.type = .imported →
      (s ∈ held w.global.allSegs ↔ s ∈ held v.global.allSegs))
    (hloc : ∀ c < v.cpuCount, LocalInv (regionOf v c) (w.locals c)) : SpaceInv w where
  bounds := hs.bounds h.bounds
  global := by rw [hs.base, hs.limit]; exact hG
  globalHeld := hheld
  imported s hsm hst := by
    rw [ho]
    simp only [hs.chunkAt_eq]
    exact h.imported s ((himp s hst).mp hsm) hst
  owned j c hj := by
    rw [ho] at hj
    obtain ⟨hc, s, hsm, hst, hse⟩ := h.owned j c hj
    exact ⟨by rwa [hs.cpuCount], s, (himp s hst).mpr hsm, hst, by rw [hse, hs.chunkAt_eq]⟩
  locals c hc := by
    have : regionOf w c = regionOf v c := by simp only [regionOf, ho, hs.chunkAt_eq]
    rw [this]
    exact hloc c (hs.cpuCount ▸ hc)

theorem regionOf_assign (hs : SameShape v w) (ho : w.chunkOwner = update v.chunkOwner i
    (some cpu)) (hfree : v.chunkOwner i = none) (c : ℕ) :
    regionOf w c = if c = cpu then regionOf v c ∪ (chunkAt v i).toSet else regionOf v c := by
  ext x
  have hw : x ∈ regionOf w c ↔ ∃ j, update v.chunkOwner i (some cpu) j = some c ∧
      x ∈ (chunkAt v j).toSet := by
    simp only [regionOf, ho, hs.chunkAt_eq]
    exact Iff.rfl
  have hiff : x ∈ regionOf w c ↔ x ∈ regionOf v c ∨ c = cpu ∧ x ∈ (chunkAt v i).toSet := by
    rw [hw]
    constructor
    · rintro ⟨j, hj, hx⟩
      by_cases hji : j = i
      · subst hji
        rw [update_self] at hj
        exact Or.inr ⟨(Option.some.inj hj).symm, hx⟩
      · rw [update_of_ne hji] at hj
        exact Or.inl ⟨j, hj, hx⟩
    · rintro (⟨j, hj, hx⟩ | ⟨rfl, hx⟩)
      · have hji : j ≠ i := fun he => by simp [he, hfree] at hj
        exact ⟨j, by rwa [update_of_ne hji], hx⟩
      · exact ⟨i, update_self .., hx⟩
  split <;> simp_all

theorem regionOf_unassign (hs : SameShape v w) (ho : w.chunkOwner = update v.chunkOwner i
    none) (howner : v.chunkOwner i = some cpu) (c : ℕ) :
    regionOf w c = if c = cpu then regionOf v c \ (chunkAt v i).toSet else regionOf v c := by
  ext x
  have hw : x ∈ regionOf w c ↔ ∃ j, update v.chunkOwner i none j = some c ∧
      x ∈ (chunkAt v j).toSet := by
    simp only [regionOf, ho, hs.chunkAt_eq]
    exact Iff.rfl
  have hiff : x ∈ regionOf w c ↔ ∃ j ≠ i, v.chunkOwner j = some c ∧ x ∈ (chunkAt v j).toSet := by
    rw [hw]
    constructor
    · rintro ⟨j, hj, hx⟩
      have hji : j ≠ i := fun he => by simp [he] at hj
      exact ⟨j, hji, by rwa [update_of_ne hji] at hj, hx⟩
    · rintro ⟨j, hji, hj, hx⟩
      exact ⟨j, by rwa [update_of_ne hji], hx⟩
  rw [hiff]
  split
  · constructor
    · rintro ⟨j, hji, hj, hx⟩
      exact ⟨⟨j, hj, hx⟩, Set.disjoint_left.mp (chunkAt_disjoint hji) hx⟩
    · rintro ⟨⟨j, hj, hx⟩, hxi⟩
      exact ⟨j, fun he => hxi (he ▸ hx), hj, hx⟩
  · rename_i hc
    constructor
    · rintro ⟨j, -, hj, hx⟩
      exact ⟨j, hj, hx⟩
    rintro ⟨j, hj, hx⟩
    refine ⟨j, fun he => hc ?_, hj, hx⟩
    rw [he, howner] at hj
    exact (Option.some.inj hj).symm

/-- The space after a chunk of the global arena was assigned to a CPU. -/
theorem SpaceInv.assign (h : SpaceInv v) (hs : SameShape v w)
    (ho : w.chunkOwner = update v.chunkOwner i (some cpu)) (hcpu : cpu < v.cpuCount)
    (hfree : v.chunkOwner i = none) (hG : ArenaInv globalSpan (Set.Ico v.base v.limit) w.global)
    (hheld : (held w.global.allSegs).Perm (p :: held v.global.allSegs)) (hslot : p.magSlot = none)
    (htype : p.type = .imported) (hext : p.extent = chunkAt v i)
    (hloc : LocalInv (regionOf v cpu ∪ (chunkAt v i).toSet) (w.locals cpu))
    (hothers : ∀ c ≠ cpu, w.locals c = v.locals c) : SpaceInv w where
  bounds := hs.bounds h.bounds
  global := by rw [hs.base, hs.limit]; exact hG
  globalHeld s hsm := by
    rcases mem_cons.mp (hheld.mem_iff.mp hsm) with rfl | hsm
    · exact ⟨hslot, by rw [htype]; decide⟩
    · exact h.globalHeld s hsm
  imported s hsm hst := by
    rw [ho]
    simp only [hs.chunkAt_eq]
    rcases mem_cons.mp (hheld.mem_iff.mp hsm) with rfl | hsm
    · exact ⟨i, cpu, update_self .., hext⟩
    · obtain ⟨j, c, hj, hse⟩ := h.imported s hsm hst
      have hji : j ≠ i := fun he => by simp [he, hfree] at hj
      exact ⟨j, c, by rwa [update_of_ne hji], hse⟩
  owned j c hj := by
    rw [ho] at hj
    simp only [hs.chunkAt_eq, hs.cpuCount]
    by_cases hji : j = i
    · subst hji
      rw [update_self] at hj
      obtain ⟨⟩ := hj
      exact ⟨hcpu, p, hheld.mem_iff.mpr (by simp), htype, hext⟩
    · rw [update_of_ne hji] at hj
      obtain ⟨hc, s, hsm, hst, hse⟩ := h.owned j c hj
      exact ⟨hc, s, hheld.mem_iff.mpr (by simp [hsm]), hst, hse⟩
  locals c hc := by
    rw [regionOf_assign hs ho hfree]
    by_cases he : c = cpu
    · subst he
      rw [if_pos rfl]
      exact hloc
    · rw [if_neg he, hothers c he]
      exact h.locals c (hs.cpuCount ▸ hc)

/-- The space after a chunk of a CPU went back to the global arena. -/
theorem SpaceInv.unassign (h : SpaceInv v) (hs : SameShape v w)
    (ho : w.chunkOwner = update v.chunkOwner i none) (howner : v.chunkOwner i = some cpu)
    (hG : ArenaInv globalSpan (Set.Ico v.base v.limit) w.global)
    (hheld : (held v.global.allSegs).Perm (p :: held w.global.allSegs))
    (hext : p.extent = chunkAt v i)
    (hloc : LocalInv (regionOf v cpu \ (chunkAt v i).toSet) (w.locals cpu))
    (hothers : ∀ c ≠ cpu, w.locals c = v.locals c) : SpaceInv w where
  bounds := hs.bounds h.bounds
  global := by rw [hs.base, hs.limit]; exact hG
  globalHeld s hsm := h.globalHeld s (hheld.mem_iff.mpr (by simp [hsm]))
  imported s hsm hst := by
    rw [ho]
    simp only [hs.chunkAt_eq]
    obtain ⟨j, c, hj, hse⟩ := h.imported s (hheld.mem_iff.mpr (by simp [hsm])) hst
    refine ⟨j, c, ?_, hse⟩
    rw [update_of_ne]
    · exact hj
    -- the segment of chunk `i` is the one that left
    rintro rfl
    have hnodup : (held v.global.allSegs).Pairwise fun a b => a.start ≠ b.start :=
      (h.global.ordered.imp fun hlt => hlt.ne).filter _
    have hp := hheld.pairwise_iff (fun {a b} (hab : a.start ≠ b.start) => hab.symm) |>.mp hnodup
    exact (pairwise_cons.mp hp).1 s hsm (congrArg Extent.start (hext.trans hse.symm))
  owned j c hj := by
    rw [ho] at hj
    simp only [hs.chunkAt_eq, hs.cpuCount]
    have hji : j ≠ i := fun he => by simp [he] at hj
    rw [update_of_ne hji] at hj
    obtain ⟨hc, s, hsm, hst, hse⟩ := h.owned j c hj
    refine ⟨hc, s, ?_, hst, hse⟩
    rcases mem_cons.mp (hheld.mem_iff.mp hsm) with rfl | hsm
    · have hd := chunkAt_disjoint (v := v) hji
      rw [← hse, ← hext, disjoint_self] at hd
      exact absurd (Extent.start_mem (h.global.pos (mem_held.mp hsm).1)) (by rw [hd]; simp)
    · exact hsm
  locals c hc := by
    rw [regionOf_unassign hs ho howner]
    by_cases he : c = cpu
    · subst he
      rw [if_pos rfl]
      exact hloc
    · rw [if_neg he, hothers c he]
      exact h.locals c (hs.cpuCount ▸ hc)

end Global

end Charmos.Vas
