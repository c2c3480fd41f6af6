import Charmos.Mem.Vas.SpaceSpec

/-!
# What the calls do

Each stage of `vas_alloc`, then `vas_alloc`, `vas_free` and `vas_reclaim` themselves, in terms of
the busy extents of the space. `Served size align v addr w` says that the call took the space from
`v` to `w` and returned `addr`: either `0`, with the same busy extents, or an aligned address whose
extent is the one busy extent that `w` has and `v` has not.
-/

namespace Charmos.Vas

open Function List Segment Tiling

/-- A call on `v` returned `addr` and left `w`. -/
structure Served (size align : ℕ) (v : Space) (addr : ℕ) (w : Space) : Prop where
  inv : SpaceInv w
  shape : SameShape v w
  busy : (busyAll w).Perm ((if addr = 0 then [] else [⟨addr, size⟩]) ++ busyAll v)
  dvd : addr ≠ 0 → align ∣ addr
  recycles : addr = 0 → ∀ c < v.cpuCount, Recycles (v.locals c) (w.locals c)

section Stages

variable {size align cpu : ℕ} {v u w : Space} {addr : ℕ} {p m : Segment} {R : Set ℕ} {A : Arena}

theorem Served.refl (h : SpaceInv v) : Served size align v 0 v :=
  ⟨h, SameShape.refl v, Perm.refl _, fun h0 => absurd rfl h0, fun _ _ _ => Recycles.refl _⟩

/-- Without a result the request does not matter. -/
theorem Served.of_zero {n a : ℕ} (h : Served n a v 0 w) : Served size align v 0 w :=
  ⟨h.inv, h.shape, h.busy, fun h0 => absurd rfl h0, h.recycles⟩

/-- A stage without a result may be followed by another. -/
theorem Served.trans (h : Served size align v 0 u) (h' : Served size align u addr w) :
    Served size align v addr w where
  inv := h'.inv
  shape := h.shape.trans h'.shape
  busy := h'.busy.trans (Perm.append_left _ (by simpa using h.busy))
  dvd := h'.dvd
  recycles h0 c hc := (h.recycles rfl c hc).trans (h'.recycles h0 c (h.shape.cpuCount ▸ hc))

/-- The arena of one CPU is all that changes. -/
theorem recycles_of_others (hothers : ∀ c ≠ cpu, w.locals c = v.locals c)
    (hcpu : Recycles (v.locals cpu) (w.locals cpu)) (c : ℕ) :
    Recycles (v.locals c) (w.locals c) := by
  by_cases he : c = cpu
  · rw [he]
    exact hcpu
  · rw [hothers c he]
    exact Recycles.refl _

/-- Only the arena of one CPU changed, and its segments stayed. -/
theorem Served.same (h : SpaceInv v) (hstep : LocalStep cpu v w)
    (hcpu : cpu < v.cpuCount) (hsame : w.locals cpu = v.locals cpu) : Served size align v 0 w where
  inv := h.localStep hstep (by rw [hsame]; exact h.locals cpu hcpu)
  shape := hstep.shape
  busy := hstep.busyAll_perm hcpu (by rw [hsame]; exact Perm.refl _)
  dvd h0 := absurd rfl h0
  recycles _ c _ := recycles_of_others hstep.others (hsame ▸ Recycles.refl _) c

/-- The arena of one CPU gained one busy segment. -/
theorem Served.added (h : SpaceInv v) (hstep : LocalStep cpu v w) (hcpu : cpu < v.cpuCount)
    (hinv : LocalInv (regionOf v cpu) (w.locals cpu)) (haddr : addr ≠ 0)
    (hbusy : (busyIn (w.locals cpu)).Perm (⟨addr, size⟩ :: busyIn (v.locals cpu)))
    (hd : align ∣ addr) : Served size align v addr w where
  inv := h.localStep hstep hinv
  shape := hstep.shape
  busy := by
    rw [if_neg haddr]
    exact hstep.busyAll_perm hcpu hbusy
  dvd _ := hd
  recycles h0 := absurd h0 haddr

theorem setArena_self (v : Space) (cpu : ℕ) : v.setArena (v.locals cpu) (some cpu) = v := by
  simp only [Space.setArena, update_eq_self]

theorem magazineStage_spec (h : SpaceInv v) (hcpu : cpu < v.cpuCount) (ha : isPow2 align = true)
    (enabled : Bool) (size : ℕ) :
    Served size align v (magazineStage v cpu enabled size align).1
      (magazineStage v cpu enabled size align).2 ∧
    ((magazineStage v cpu enabled size align).1 = 0 →
      (magazineStage v cpu enabled size align).2 = v) := by
  rw [magazineStage]
  split
  swap
  · exact ⟨Served.refl h, fun _ => rfl⟩
  rename_i hc
  have hinv := h.locals cpu hcpu
  have hspec := magazineAlloc_spec hinv hc.1 ha
  generalize magazineAlloc (v.locals cpu) (magClass size) align = r at hspec
  obtain ⟨addr, A⟩ := r
  rcases hspec with hno | ⟨s, rfl, htype, hlen, hd, hsw⟩
  · obtain ⟨⟩ := hno
    refine ⟨?_, fun _ => setArena_self v cpu⟩
    change Served size align v 0 (v.setArena (v.locals cpu) (some cpu))
    rw [setArena_self]
    exact Served.refl h
  · have hmem := mem_held.mp hsw.mem
    have hne := (hinv.arena.start_range hmem.1).1.ne'
    have hperm := hsw.held _ (perm_cons_erase hsw.mem)
    refine ⟨Served.added h (LocalStep.set cpu v A v.magReservedBytes v.tags) hcpu ?_ hne ?_ hd,
      fun h0 => absurd h0 hne⟩
    · simpa using hsw.inv
    have hb := busyOf_perm hperm
    have hb' := busyOf_perm (perm_cons_erase hsw.mem)
    rw [busyOf_cons_busy rfl] at hb
    rw [busyOf_cons_other (by rw [htype]; decide)] at hb'
    have hext : extent { s with type := MagState.live.segmentType } = ⟨s.start, size⟩ := by
      rw [extent, magClass_length hc.1, hlen]
    rw [hext] at hb
    simpa [busyIn] using hb.trans (hb'.symm.cons _)

/-- The chunk just carved out of the global arena is assigned to no CPU. -/
theorem SpaceInv.chunk_unassigned (h : SpaceInv v) {G : Arena}
    (hal : Allocated globalSpan (Set.Ico v.base v.limit) chunkSize chunkSize v.global G m) :
    m.extent = chunkAt v (ownerIndex v m.start) ∧ v.chunkOwner (ownerIndex v m.start) = none := by
  have hm := mem_held.mp (hal.held.mem_iff.mpr (by simp : m ∈ m :: held v.global.allSegs))
  have hbase := (hal.inv.start_mem hm.1).1
  have hext : m.extent = chunkAt v (ownerIndex v m.start) := by
    rw [h.chunkAt_ownerIndex hbase hal.dvd, extent, hal.length]
  refine ⟨hext, ?_⟩
  cases ho : v.chunkOwner (ownerIndex v m.start) with
  | none => rfl
  | some c =>
    -- its imported segment would be another segment with the same addresses
    obtain ⟨-, s, hs, hst, hse⟩ := h.owned _ c ho
    have hs' := (mem_held.mp (hal.held.mem_iff.mpr (mem_cons_of_mem m hs))).1
    have hsm : s = m := by
      refine hal.inv.start_inj hs' hm.1 ?_
      exact congrArg Extent.start (hse.trans hext.symm)
    rw [hsm, hal.type] at hst
    cases hst

/-- The CPU's arena with the imported chunk as a free segment. -/
theorem LocalInv.insertChunk (h : LocalInv R A) {p : ℕ}
    (hrange : Extent.toSet ⟨p, chunkSize⟩ ⊆ Set.Ioo 0 (2 ^ 64)) (hd : chunkSize ∣ p)
    (hdisj : Disjoint R (Extent.toSet ⟨p, chunkSize⟩)) :
    LocalInv (R ∪ Extent.toSet ⟨p, chunkSize⟩) (insertFree A ⟨p, chunkSize, p, .free, none⟩) ∧
      held (insertFree A ⟨p, chunkSize, p, .free, none⟩).allSegs = held A.allSegs ∧
      (⟨p, chunkSize, p, .free, none⟩ : Segment) ∈
        (insertFree A ⟨p, chunkSize, p, .free, none⟩).allSegs := by
  obtain ⟨hinv, hheld, hmem⟩ := insertFree_spec (s := ⟨p, chunkSize, p, .free, none⟩) h.arena
    chunkSize_pos rfl rfl hrange (fun x hx => ⟨hd, hx⟩) hdisj
  refine ⟨⟨hinv, ?_, ?_⟩, hheld, hmem⟩
  · rw [hheld]
    exact h.slots
  · rw [hheld]
    exact h.types

/-- The CPU's arena after a free segment left it. -/
theorem LocalInv.deleteFree (h : LocalInv R A) {s : Segment} (hs : s ∈ A.allSegs)
    (hfree : s.type = .free) : LocalInv (R \ s.extent.toSet) (deleteFree A s) := by
  obtain ⟨hinv, hheld, -⟩ := deleteFree_spec h.arena hs hfree
  refine ⟨hinv, ?_, ?_⟩
  · rw [hheld]
    exact h.slots
  · rw [hheld]
    exact h.types

/-- The space `w` is `v` in the middle of an import: the parent `p` of the chunk is imported and
the CPU's arena covers the chunk, but the directory does not name it yet. -/
structure Importing (v w : Space) (cpu : ℕ) (p : Segment) : Prop where
  shape : SameShape v w
  owner : w.chunkOwner = v.chunkOwner
  others : ∀ c ≠ cpu, w.locals c = v.locals c
  global : ArenaInv globalSpan (Set.Ico v.base v.limit) w.global
  held : (held w.global.allSegs).Perm (p :: held v.global.allSegs)
  slot : p.magSlot = none
  type : p.type = .imported
  extent : p.extent = chunkAt v (ownerIndex v p.start)
  unassigned : v.chunkOwner (ownerIndex v p.start) = none
  arena : LocalInv (regionOf v cpu ∪ p.extent.toSet) (w.locals cpu)

/-- An unassigned chunk is not in the arena of a CPU. -/
theorem regionOf_unassigned {i : ℕ} (hi : v.chunkOwner i = none) :
    Disjoint (regionOf v cpu) (chunkAt v i).toSet := by
  rw [Set.disjoint_left]
  rintro x ⟨j, hj, hxj⟩
  have hji : j ≠ i := fun he => by simp [he, hi] at hj
  exact Set.disjoint_left.mp (chunkAt_disjoint hji) hxj

theorem Importing.busy_global (hi : Importing v w cpu p) :
    (busyIn w.global).Perm (busyIn v.global) := by
  have hb := busyOf_perm hi.held
  rwa [busyOf_cons_other (by rw [hi.type]; decide)] at hb

/-- Taking the chunk out again undoes the import. -/
theorem Importing.undo {seg : Segment} (h : SpaceInv v) (hcpu : cpu < v.cpuCount)
    (hi : Importing v w cpu p) (hmem : seg ∈ (w.locals cpu).allSegs) (hfree : seg.type = .free)
    (hseg : seg.extent = p.extent) (hheld : Vas.held (w.locals cpu).allSegs =
      Vas.held (v.locals cpu).allSegs)
    (hsub : ∀ t ∈ (w.locals cpu).allSegs, t ∈ (v.locals cpu).allSegs ∨ t = seg) :
    Served size align v 0 { w.setArena (deleteFree (w.locals cpu) seg) (some cpu) with
      global := arenaRelease w.global p.start } := by
  obtain ⟨hpm, hph⟩ := LocalInv.mem_of_perm hi.held
  obtain ⟨hinvG, hpermG, -, -⟩ := arenaRelease_spec hi.global hpm hph hi.slot
  have hheldG := (hpermG.symm.trans hi.held).cons_inv
  obtain ⟨-, hheldD, hmemD⟩ := deleteFree_spec hi.arena.arena hmem hfree
  have hregion : (regionOf v cpu ∪ p.extent.toSet) \ seg.extent.toSet = regionOf v cpu := by
    rw [hseg, Set.union_sdiff_right, hi.extent]
    exact (regionOf_unassigned hi.unassigned).sdiff_eq_left
  have hlocal : LocalInv (regionOf v cpu) (deleteFree (w.locals cpu) seg) :=
    hregion ▸ hi.arena.deleteFree hmem hfree
  set w' : Space := { w.setArena (deleteFree (w.locals cpu) seg) (some cpu) with
    global := arenaRelease w.global p.start } with hw'
  have hshape : SameShape v w' := { hi.shape with }
  have hcpuArena : w'.locals cpu = deleteFree (w.locals cpu) seg := update_self ..
  have hothers : ∀ c ≠ cpu, w'.locals c = v.locals c :=
    fun c hc => (update_of_ne hc ..).trans (hi.others c hc)
  refine ⟨?_, hshape, ?_, fun h0 => absurd rfl h0, ?_⟩
  · refine h.keepOwner hshape hi.owner hinvG
      (fun s hs => h.globalHeld s (hheldG.mem_iff.mp hs)) (fun s _ => hheldG.mem_iff) ?_
    intro c hc
    by_cases he : c = cpu
    · rw [he, hcpuArena]
      exact hlocal
    · rw [hothers c he]
      exact h.locals c hc
  · have hglobal : (busyIn w'.global).Perm (busyIn v.global) := busyOf_perm hheldG
    refine busyAll_perm hshape hglobal hcpu hothers ?_
    rw [if_pos rfl, hcpuArena, busyIn, hheldD, hheld]
    exact Perm.refl _
  · refine fun _ c _ => recycles_of_others hothers (Recycles.of_subset fun t ht => ?_) c
    rw [hcpuArena] at ht
    obtain ⟨htw, hne⟩ := (hmemD t).mp ht
    exact (hsub t htw).resolve_right hne

variable (hsize : 0 < size) (ha : isPow2 align = true) (hlt : align < 2 ^ 64)

include hsize ha hlt

theorem localStage_spec (h : SpaceInv v) (hcpu : cpu < v.cpuCount) (enabled : Bool) :
    Served size align v (localStage v cpu enabled size align).addr
      (localStage v cpu enabled size align).vas ∧
    ((localStage v cpu enabled size align).addr = 0 →
      (localStage v cpu enabled size align).metadataFailed = false →
        NoFit (v.locals cpu) size align) := by
  rw [localStage]
  obtain ⟨hstep, hcase⟩ := allocIn_local (h.locals cpu hcpu) hsize ha hlt
  generalize allocIn v (some cpu) size align = r at hstep hcase
  obtain ⟨seg, failed, v₁⟩ := r
  rcases hcase with ⟨rfl, hsame, hno⟩ | ⟨m, rfl, -, hinv, hal⟩
  · exact ⟨Served.same h hstep hcpu hsame, fun _ hf => hno hf⟩
  have hkeep := magazineRefill_keeps hinv hal.held hal.slot hal.type ha hlt enabled
  have hm := (hinv.arena.start_range (LocalInv.mem_of_perm hal.held).1).1.ne'
  refine ⟨Served.added h (hstep.trans hkeep.step) hcpu hkeep.inv hm ?_ hal.dvd,
    fun h0 => absurd h0 hm⟩
  have hb := busyOf_perm hal.held
  rw [busyOf_cons_busy hal.type, extent, hal.length] at hb
  exact hkeep.busy.trans hb

/-- `arena_alloc` on the global arena. -/
theorem allocIn_global (h : SpaceInv v) :
    ((allocIn v none size align).1 = none ∧
      Served size align v 0 (allocIn v none size align).2.2 ∧
      (allocIn v none size align).2.2.global = v.global ∧
      (allocIn v none size align).2.2.locals = v.locals ∧
      ((allocIn v none size align).2.1 = false → NoFit v.global size align)) ∨
    ∃ m, (allocIn v none size align).1 = some m.start ∧ m.start ≠ 0 ∧
      Served size align v m.start (allocIn v none size align).2.2 ∧
      (allocIn v none size align).2.2.locals = v.locals ∧
      (allocIn v none size align).2.2.chunkOwner = v.chunkOwner ∧
      Allocated globalSpan (Set.Ico v.base v.limit) size align v.global
        (allocIn v none size align).2.2.global m := by
  have hG : (allocIn v none size align).2.2.global =
      (arenaAlloc v.global v.tags size align).arena := rfl
  rcases arenaAlloc_spec h.global hsize ha hlt v.tags with ⟨h₁, h₂, h₃⟩ | ⟨m, h₁, h₂, hal⟩
  · refine Or.inl ⟨h₁, ?_, hG.trans h₂, rfl, h₃⟩
    have hinv : SpaceInv (allocIn v none size align).2.2 := by
      refine h.keepOwner (SameShape.mk rfl rfl rfl rfl) rfl ?_ ?_ ?_ h.locals
      · rw [hG, h₂]
        exact h.global
      · rw [hG, h₂]
        exact h.globalHeld
      · rw [hG, h₂]
        exact fun _ _ => Iff.rfl
    refine ⟨hinv, SameShape.mk rfl rfl rfl rfl, ?_, fun h0 => absurd rfl h0,
      fun _ _ _ => Recycles.refl _⟩
    rw [if_pos rfl, nil_append, busyAll, busyAll, hG, h₂]
    exact Perm.refl _
  · rw [← hG] at hal
    have hm : m.start ≠ 0 :=
      (hal.inv.start_range (mem_held.mp (hal.held.mem_iff.mpr (by simp))).1).1.ne'
    refine Or.inr ⟨m, h₁, hm, ?_, rfl, rfl, hal⟩
    have hinv : SpaceInv (allocIn v none size align).2.2 := by
      refine h.keepOwner (SameShape.mk rfl rfl rfl rfl) rfl hal.inv ?_ ?_ h.locals
      · intro s hs
        rcases mem_cons.mp (hal.held.mem_iff.mp hs) with rfl | hs
        · exact ⟨hal.slot, by rw [hal.type]; decide⟩
        · exact h.globalHeld s hs
      · intro s hst
        rw [hal.held.mem_iff, mem_cons]
        refine ⟨fun hs => hs.resolve_left ?_, Or.inr⟩
        rintro rfl
        rw [hal.type] at hst
        cases hst
    refine ⟨hinv, SameShape.mk rfl rfl rfl rfl, ?_, fun _ => hal.dvd, fun h0 => absurd h0 hm⟩
    rw [if_neg hm]
    have hb := busyOf_perm hal.held
    rw [busyOf_cons_busy hal.type, extent, hal.length] at hb
    exact hb.append_right _

omit hsize in
/-- Naming the CPU in the directory completes the import. -/
theorem Importing.done {a : Segment} (h : SpaceInv v) (hcpu : cpu < v.cpuCount)
    (hi : Importing v w cpu p) (hheld : (Vas.held (w.locals cpu).allSegs).Perm
      (a :: Vas.held (v.locals cpu).allSegs)) (hlen : a.length = size) (htype : a.type = .busy)
    (hslot : a.magSlot = none) (hd : align ∣ a.start) (enabled : Bool) :
    Served size align v a.start (magazineRefill { w with
      chunkOwner := update w.chunkOwner (ownerIndex w p.start) (some cpu) }
      cpu enabled a.start align) := by
  have hindex : ownerIndex w p.start = ownerIndex v p.start := by
    rw [ownerIndex, ownerIndex, hi.shape.mapBase]
  set w' : Space := { w with
    chunkOwner := update w.chunkOwner (ownerIndex w p.start) (some cpu) } with hw'
  have hshape : SameShape v w' := { hi.shape with }
  have howner : w'.chunkOwner =
      update v.chunkOwner (ownerIndex v p.start) (some cpu) := by
    rw [hw', hindex]
    exact congrArg (fun o => update o _ _) hi.owner
  have harena := hi.arena
  rw [hi.extent] at harena
  have hinv : SpaceInv w' := h.assign hshape howner hcpu hi.unassigned hi.global hi.held hi.slot
    hi.type hi.extent harena hi.others
  have hregion : regionOf w' cpu = regionOf v cpu ∪ (chunkAt v (ownerIndex v p.start)).toSet := by
    rw [regionOf_assign hshape howner hi.unassigned, if_pos rfl]
  have hkeep := magazineRefill_keeps (v := w') harena hheld hslot htype ha hlt enabled
  have ha0 : a.start ≠ 0 :=
    (harena.arena.start_range (LocalInv.mem_of_perm hheld).1).1.ne'
  refine ⟨hinv.localStep hkeep.step (hregion ▸ hkeep.inv), hshape.trans hkeep.step.shape, ?_,
    fun _ => hd, fun h0 => absurd h0 ha0⟩
  rw [if_neg ha0]
  have hb := busyOf_perm hheld
  rw [busyOf_cons_busy htype, Segment.extent, hlen] at hb
  have hb₁ : (busyAll w').Perm ([⟨a.start, size⟩] ++ busyAll v) :=
    busyAll_perm hshape hi.busy_global hcpu hi.others hb
  have hb₂ : (busyAll (magazineRefill w' cpu enabled a.start align)).Perm ([] ++ busyAll w') :=
    hkeep.step.busyAll_perm (hi.shape.cpuCount.symm ▸ hcpu) hkeep.busy
  exact hb₂.trans hb₁

/-- The part of `import_alloc` after the global arena gave a chunk. -/
theorem importChunk_spec (h : SpaceInv v) (hcpu : cpu < v.cpuCount) (enabled : Bool)
    (hshape : SameShape v u) (hlocals : u.locals = v.locals) (howner : u.chunkOwner = v.chunkOwner)
    (hal : Allocated globalSpan (Set.Ico v.base v.limit) chunkSize chunkSize v.global u.global m) :
    Served size align v (importChunk u cpu enabled size align m.start).addr
      (importChunk u cpu enabled size align m.start).vas := by
  obtain ⟨hext, hnone⟩ := h.chunk_unassigned hal
  have hm := LocalInv.mem_of_perm hal.held
  -- the parent is marked imported, and the chunk enters the CPU's arena
  obtain ⟨hinvG, hpermG, -⟩ := modifySeg_spec (f := fun s => { s with type := .imported }) hal.inv
    hm.1 hm.2 rfl rfl (by simp)
  set seg : Segment := ⟨m.start, chunkSize, m.start, .free, none⟩ with hseg
  have hsegExt : seg.extent = m.extent := by rw [extent, extent, hal.length]
  set v₂ : Space := { u with
    global := modifySeg u.global m.start fun s => { s with type := .imported } } with hv₂
  set v₃ : Space := v₂.setArena (insertFree (v₂.locals cpu) seg) (some cpu) with hv₃
  have hL₃ : v₃.locals cpu = insertFree (v.locals cpu) seg := by
    rw [hv₃, locals_setArena]
    exact congrArg (fun l => insertFree (l cpu) seg) hlocals
  have hdisj : Disjoint (regionOf v cpu) seg.extent.toSet := by
    rw [hsegExt, hext]
    exact regionOf_unassigned hnone
  have hrange : seg.extent.toSet ⊆ Set.Ioo 0 (2 ^ 64) := by
    rw [hsegExt]
    exact (hal.inv.subset hm.1).trans hal.inv.range
  obtain ⟨hinvL, hheldL, hmemL⟩ := (h.locals cpu hcpu).insertChunk hrange hal.dvd hdisj
  rw [← hL₃] at hinvL hheldL hmemL
  have himporting : ∀ w, LocalStep cpu v₃ w → LocalInv (regionOf v cpu ∪ seg.extent.toSet)
      (w.locals cpu) → Importing v w cpu { m with type := .imported } := by
    intro w hstep hinv
    have hs := hstep.shape
    refine ⟨⟨hs.base.trans hshape.base, hs.limit.trans hshape.limit,
      hs.mapBase.trans hshape.mapBase, hs.cpuCount.trans hshape.cpuCount⟩,
      hstep.chunkOwner.trans howner, fun c hc => ?_, ?_, ?_, hal.slot, rfl, hext, hnone, ?_⟩
    · rw [hstep.others c hc]
      exact (update_of_ne hc ..).trans (congrFun hlocals c)
    · rw [hstep.global]
      exact hinvG
    · rw [hstep.global]
      exact hpermG _ hal.held
    · have : extent { m with type := .imported } = seg.extent := hsegExt.symm
      rwa [this]
  obtain ⟨hstep, hcase⟩ := allocIn_local hinvL hsize ha hlt
  unfold importChunk
  dsimp only
  rw [← hseg, ← hv₂, ← hv₃]
  generalize allocIn v₃ (some cpu) size align = r at hstep hcase
  obtain ⟨res, failed, v₄⟩ := r
  rcases hcase with ⟨rfl, hsame, -⟩ | ⟨a, rfl, -, hinv₄, halL⟩
  · refine Importing.undo (p := { m with type := .imported }) h hcpu
      (himporting v₄ hstep (hsame.symm ▸ hinvL)) (hsame.symm ▸ hmemL) rfl hsegExt
      (by rw [hsame]; exact hheldL) fun t ht => ?_
    rw [hsame, hL₃] at ht
    exact mem_insertFree ht
  · refine Importing.done (p := { m with type := .imported }) ha hlt h hcpu
      (himporting v₄ hstep hinv₄) ?_ halL.length halL.type halL.slot halL.dvd enabled
    exact hheldL ▸ halL.held

/-- `import_alloc` serves the request from a chunk of the global arena, or changes nothing but
metadata. -/
theorem importAlloc_spec (h : SpaceInv v) (hcpu : cpu < v.cpuCount) (enabled : Bool) :
    Served size align v (importAlloc v cpu enabled size align).addr
      (importAlloc v cpu enabled size align).vas := by
  rw [importAlloc]
  cases hseg : segmentAlloc v.tags with
  | mk ok tags =>
    have hv₀ : LocalStep cpu v { v with tags := tags } :=
      ⟨rfl, rfl, rfl, rfl, rfl, rfl, fun _ _ => rfl⟩
    have hserved₀ : Served size align v 0 { v with tags := tags } := Served.same h hv₀ hcpu rfl
    cases ok with
    | false => exact hserved₀
    | true =>
      simp only
      have hchunk : isPow2 chunkSize = true := by decide
      have hG := @allocIn_global chunkSize chunkSize _ chunkSize_pos hchunk (by decide) hserved₀.inv
      generalize allocIn { v with tags := tags } none chunkSize chunkSize = r at hG
      obtain ⟨parent, failed, v₁⟩ := r
      rcases hG with ⟨rfl, hserved, -⟩ | ⟨m, rfl, -, hserved, hlocals, howner, hal⟩
      · exact hserved₀.trans hserved.of_zero
      · exact importChunk_spec hsize ha hlt h hcpu enabled (hserved₀.shape.trans hserved.shape)
          hlocals howner hal

end Stages

/-! ### Reclaiming -/

section Reclaim

variable (size align : ℕ) {cpu : ℕ} {v : Space}

/-- The segment is free and fills the chunk it starts. -/
def WholeFree (s : Segment) : Prop :=
  s.type = .free ∧ s.start = s.spanStart ∧ s.length = chunkSize

/-- A free segment that fills its chunk goes back to the global arena; the check never fails. -/
theorem reclaimSeg_spec (h : SpaceInv v) (hcpu : cpu < v.cpuCount) {seg : Segment}
    (hs : seg ∈ (v.locals cpu).allSegs) :
    ∃ w, reclaimSeg cpu v seg = .ok w ∧ Served size align v 0 w ∧
      (∀ c ≠ cpu, w.locals c = v.locals c) ∧
      ∀ t, t ∈ (w.locals cpu).allSegs ↔
        t ∈ (v.locals cpu).allSegs ∧ ¬ (t = seg ∧ WholeFree t) := by
  rw [reclaimSeg]
  split
  · rename_i hc
    refine ⟨v, rfl, Served.refl h, fun _ _ => rfl, fun t => ⟨fun ht => ⟨ht, ?_⟩, And.left⟩⟩
    rintro ⟨rfl, hf, hst, hl⟩
    rcases hc with hc | hc | hc <;> contradiction
  rename_i hc
  simp only [not_or, ne_eq, not_not] at hc
  obtain ⟨hfree, hstart, hlen⟩ := hc
  obtain ⟨i, howner, hext⟩ := h.eq_chunkAt hcpu hs hstart hlen
  obtain ⟨-, p, hp, hptype, hpext⟩ := h.owned i cpu howner
  obtain ⟨hpm, hph⟩ := mem_held.mp hp
  have hse : p.extent = seg.extent := hpext.trans hext.symm
  have hpstart : p.start = seg.start := congrArg Extent.start hse
  have hplen : p.length = chunkSize := (congrArg Extent.length hse).trans hlen
  have hfind : segmentFind v.global seg.start = some p := by
    refine h.global.segmentFind_eq hpm ?_
    rw [hse]
    exact Extent.start_mem ((h.locals cpu hcpu).arena.pos hs)
  rw [hfind]
  simp only
  rw [if_pos ⟨hpstart, hplen, hptype⟩]
  have hindex : ownerIndex v seg.start = i := by
    refine ownerIndex_of_mem ?_
    rw [← hext]
    exact Extent.start_mem ((h.locals cpu hcpu).arena.pos hs)
  obtain ⟨hinvG, hpermG, -, -⟩ := arenaRelease_spec h.global hpm hph (h.globalHeld p hp).1
  obtain ⟨-, hheldD, hmemD⟩ := deleteFree_spec (h.locals cpu hcpu).arena hs hfree
  have hlocal := (h.locals cpu hcpu).deleteFree hs hfree
  rw [hext] at hlocal
  refine ⟨_, rfl, ?_⟩
  generalize hw : (Space.mk _ _ _ _ _ _ _ _ _) = w
  have hshape : SameShape v w := by subst hw; exact ⟨rfl, rfl, rfl, rfl⟩
  have hglobal : w.global = arenaRelease v.global p.start := by subst hw; rfl
  have harena : w.locals cpu = deleteFree (v.locals cpu) seg := by
    subst hw; exact update_self ..
  have hothers : ∀ c ≠ cpu, w.locals c = v.locals c := by
    subst hw; exact fun c hc => update_of_ne hc ..
  have hdir : w.chunkOwner = update v.chunkOwner i none := by
    subst hw; exact congrArg (fun j => update v.chunkOwner j none) hindex
  refine ⟨⟨?_, hshape, ?_, fun h0 => absurd rfl h0, ?_⟩, hothers, ?_⟩
  · refine h.unassign hshape hdir howner ?_ ?_ hpext ?_ hothers
    · rw [hglobal]
      exact hinvG
    · rw [hglobal]
      exact hpermG
    · rw [harena]
      exact hlocal
  · refine busyAll_perm hshape ?_ hcpu hothers ?_
    · have hb := busyOf_perm hpermG
      rw [busyOf_cons_other (by rw [hptype]; decide), ← hglobal] at hb
      exact hb.symm
    · rw [harena, busyIn, hheldD, if_pos rfl]
      exact Perm.refl _
  · refine fun _ c _ => recycles_of_others hothers ?_ c
    rw [harena]
    exact Recycles.of_subset fun t ht => ((hmemD t).mp ht).1
  · intro t
    rw [harena, hmemD t]
    refine and_congr_right fun _ => not_congr ⟨fun he => ⟨he, ?_⟩, And.left⟩
    rw [he]
    exact ⟨hfree, hstart, hlen⟩

/-- The loop over the segments of one arena. -/
theorem reclaimSegs_spec {l : List Segment} (hl : l.Nodup) (h : SpaceInv v)
    (hcpu : cpu < v.cpuCount) (hmem : ∀ t ∈ l, t ∈ (v.locals cpu).allSegs) :
    ∃ w, l.foldlM (reclaimSeg cpu) v = .ok w ∧ Served size align v 0 w ∧
      (∀ c ≠ cpu, w.locals c = v.locals c) ∧
      ∀ t ∈ (w.locals cpu).allSegs, t ∈ (v.locals cpu).allSegs ∧ ¬ (t ∈ l ∧ WholeFree t) := by
  induction l generalizing v with
  | nil => exact ⟨v, rfl, Served.refl h, fun _ _ => rfl, fun t ht => ⟨ht, by simp⟩⟩
  | cons seg rest ih =>
    obtain ⟨hseg, hrest⟩ := nodup_cons.mp hl
    obtain ⟨u, hu, hserved, hothers, hkeep⟩ :=
      reclaimSeg_spec size align h hcpu (hmem seg (by simp))
    obtain ⟨w, hw, hserved', hothers', hkeep'⟩ := ih hrest hserved.inv
      (hserved.shape.cpuCount.symm ▸ hcpu) fun t ht => (hkeep t).mpr
        ⟨hmem t (by simp [ht]), fun he => hseg (he.1 ▸ ht)⟩
    refine ⟨w, ?_, hserved.trans hserved', fun c hc => (hothers' c hc).trans (hothers c hc), ?_⟩
    · rw [foldlM_cons, hu]
      exact hw
    intro t ht
    obtain ⟨htu, hnot⟩ := hkeep' t ht
    obtain ⟨htv, hne⟩ := (hkeep t).mp htu
    refine ⟨htv, ?_⟩
    rintro ⟨htl, hwhole⟩
    rcases mem_cons.mp htl with rfl | htl
    · exact hne ⟨rfl, hwhole⟩
    · exact hnot ⟨htl, hwhole⟩

/-- The arena has nothing to reclaim: no cached segment and no free chunk. -/
def Settled (A : Arena) : Prop := ∀ s ∈ A.allSegs, s.type ≠ .cached ∧ ¬ WholeFree s

theorem reclaimCpu_spec (h : SpaceInv v) (hcpu : cpu < v.cpuCount) :
    ∃ w, reclaimCpu v cpu = .ok w ∧ Served size align v 0 w ∧
      (∀ c ≠ cpu, w.locals c = v.locals c) ∧ Settled (w.locals cpu) := by
  have hdrain := magazineDrain_drains (h.locals cpu hcpu)
  have hstep := hdrain.keeps.step
  have hserved : Served size align v 0 (magazineDrain v cpu) :=
    ⟨h.localStep hstep hdrain.keeps.inv, hstep.shape,
      hstep.busyAll_perm hcpu hdrain.keeps.busy, fun h0 => absurd rfl h0,
      fun _ c _ => recycles_of_others hstep.others hdrain.recycles c⟩
  have hnodup : ((magazineDrain v cpu).locals cpu).allSegs.Nodup :=
    hdrain.keeps.inv.arena.ordered.imp fun hlt he => absurd hlt (by simp [he])
  obtain ⟨w, hw, hserved', hothers, hkeep⟩ := reclaimSegs_spec size align hnodup hserved.inv
    (hserved.shape.cpuCount.symm ▸ hcpu) fun t ht => ht
  refine ⟨w, hw, hserved.trans hserved', fun c hc => (hothers c hc).trans (hstep.others c hc), ?_⟩
  intro s hs
  obtain ⟨hmem, hnot⟩ := hkeep s hs
  exact ⟨magazineDrain_uncached (h.locals cpu hcpu) s hmem, fun hw => hnot ⟨hmem, hw⟩⟩

theorem reclaimCpus_spec {cpus : List ℕ} (h : SpaceInv v) (hall : ∀ c ∈ cpus, c < v.cpuCount)
    (hnodup : cpus.Nodup) :
    ∃ w, cpus.foldlM reclaimCpu v = .ok w ∧ Served size align v 0 w ∧
      (∀ c ∉ cpus, w.locals c = v.locals c) ∧ ∀ c ∈ cpus, Settled (w.locals c) := by
  induction cpus generalizing v with
  | nil => exact ⟨v, rfl, Served.refl h, fun _ _ => rfl, by simp⟩
  | cons c rest ih =>
    obtain ⟨hc, hrest⟩ := nodup_cons.mp hnodup
    obtain ⟨u, hu, hserved, hothers, hsettled⟩ := reclaimCpu_spec size align h (hall c (by simp))
    obtain ⟨w, hw, hserved', hothers', hsettled'⟩ := ih hserved.inv
      (fun d hd => hserved.shape.cpuCount.symm ▸ hall d (by simp [hd])) hrest
    refine ⟨w, ?_, hserved.trans hserved', ?_, ?_⟩
    · rw [foldlM_cons, hu]
      exact hw
    · intro d hd
      rw [mem_cons, not_or] at hd
      exact (hothers' d hd.2).trans (hothers d hd.1)
    · intro d hd
      rcases mem_cons.mp hd with rfl | hd
      · rw [hothers' d hc]
        exact hsettled
      · exact hsettled' d hd

/-- `reclaim_locked` never fails, keeps the busy extents, and leaves nothing to reclaim. -/
theorem reclaimLocked_spec (h : SpaceInv v) :
    ∃ w, reclaimLocked v = .ok w ∧ Served size align v 0 w ∧
      ∀ c < v.cpuCount, Settled (w.locals c) := by
  obtain ⟨w, hw, hserved, -, hsettled⟩ := reclaimCpus_spec size align h
    (fun c hc => mem_range.mp hc) nodup_range
  exact ⟨w, hw, hserved, fun c hc => hsettled c (mem_range.mpr hc)⟩

end Reclaim

/-! ### `vas_alloc` -/

section Alloc

variable {size align cpu : ℕ} {v : Space} (hsize : 0 < size) (ha : isPow2 align = true)
  (hlt : align < 2 ^ 64)

include hsize ha hlt

/-- An attempt under the global lock; if it fails for want of space, the global arena has none. -/
theorem globalAttempt_spec (h : SpaceInv v) (hcpu : cpu < v.cpuCount) (enabled : Bool) :
    Served size align v (globalAttempt v cpu enabled size align).addr
      (globalAttempt v cpu enabled size align).vas ∧
    ((globalAttempt v cpu enabled size align).addr = 0 →
      (globalAttempt v cpu enabled size align).metadataFailed = false →
        NoFit (globalAttempt v cpu enabled size align).vas.global size align) := by
  rw [globalAttempt]
  have himport : Served size align v
      (if localRequest size align then importAlloc v cpu enabled size align else ⟨0, false, v⟩).addr
      (if localRequest size align then importAlloc v cpu enabled size align
        else ⟨0, false, v⟩).vas := by
    split
    · exact importAlloc_spec hsize ha hlt h hcpu enabled
    · exact Served.refl h
  generalize (if localRequest size align then importAlloc v cpu enabled size align
    else ⟨0, false, v⟩) = r at himport
  obtain ⟨addr, failed, u⟩ := r
  by_cases hc : addr = 0 ∧ failed = false
  · obtain ⟨rfl, rfl⟩ := hc
    have hG := allocIn_global hsize ha hlt himport.inv
    generalize allocIn u none size align = r at hG
    obtain ⟨res, failed, w⟩ := r
    rcases hG with ⟨rfl, hserved, hglobal, -, hno⟩ | ⟨m, rfl, hm, hserved, -⟩
    · exact ⟨himport.trans hserved, fun _ hf => hglobal ▸ hno hf⟩
    · exact ⟨himport.trans hserved, fun h0 => absurd h0 hm⟩
  · rw [if_neg hc]
    exact ⟨himport, fun h0 hf => absurd ⟨h0, hf⟩ hc⟩

theorem globalStage_spec (h : SpaceInv v) (hcpu : cpu < v.cpuCount) (enabled : Bool) :
    ∃ r, globalStage v cpu enabled size align = .ok r ∧ Served size align v r.addr r.vas ∧
      (r.addr = 0 → r.metadataFailed = false → NoFit r.vas.global size align) := by
  rw [globalStage]
  obtain ⟨hserved, hno⟩ := globalAttempt_spec hsize ha hlt h hcpu enabled
  generalize globalAttempt v cpu enabled size align = r at hserved hno
  obtain ⟨addr, failed, u⟩ := r
  by_cases hc : addr ≠ 0 ∨ failed = true
  · rw [if_pos hc]
    exact ⟨_, rfl, hserved, hno⟩
  rw [if_neg hc]
  simp only [not_or, ne_eq, not_not] at hc
  obtain ⟨rfl, -⟩ := hc
  obtain ⟨w, hw, hreclaim, -⟩ := reclaimLocked_spec size align hserved.inv
  have hcpu' : cpu < w.cpuCount := by
    rw [(hserved.trans hreclaim).shape.cpuCount]
    exact hcpu
  obtain ⟨hserved', hno'⟩ := globalAttempt_spec hsize ha hlt hreclaim.inv hcpu' enabled
  refine ⟨globalAttempt w cpu enabled size align, ?_, (hserved.trans hreclaim).trans hserved', hno'⟩
  rw [hw]
  rfl

/-- `vas_alloc` never fails otherwise than by returning `0`. When it does so without a missing
descriptor, the global arena has no room, and the CPU's own arena had none at the start if the
request is one for it. -/
theorem vasAlloc_valid (h : SpaceInv v) (hcpu : cpu < v.cpuCount)
    (hfit : size ≤ v.limit - v.base) (enabled : Bool) :
    ∃ r, vasAlloc v cpu enabled size align = .ok r ∧ Served size align v r.addr r.vas ∧
      (r.addr = 0 → r.metadataFailed = false → NoFit r.vas.global size align ∧
        (localRequest size align = true → NoFit (v.locals cpu) size align)) := by
  rw [vasAlloc, if_neg (by simp [ha]; omega)]
  obtain ⟨hmag, hsame⟩ := magazineStage_spec h hcpu ha enabled size
  generalize magazineStage v cpu enabled size align = r at hmag hsame
  obtain ⟨addr, u⟩ := r
  simp only at hmag hsame ⊢
  by_cases h0 : addr = 0
  swap
  · rw [if_pos h0]
    exact ⟨_, rfl, hmag, fun hc => absurd hc h0⟩
  obtain rfl := hsame h0
  rw [if_neg (not_not.mpr h0)]
  have hlocal : Served size align u
      (if localRequest size align then localStage u cpu enabled size align else ⟨0, false, u⟩).addr
      (if localRequest size align then localStage u cpu enabled size align
        else ⟨0, false, u⟩).vas ∧
      ((if localRequest size align then localStage u cpu enabled size align
        else ⟨0, false, u⟩).addr = 0 →
      (if localRequest size align then localStage u cpu enabled size align
        else ⟨0, false, u⟩).metadataFailed = false →
      localRequest size align = true → NoFit (u.locals cpu) size align) := by
    split
    · obtain ⟨hserved, hno⟩ := localStage_spec hsize ha hlt h hcpu enabled
      exact ⟨hserved, fun h₁ h₂ _ => hno h₁ h₂⟩
    · rename_i hl
      exact ⟨Served.refl h, fun _ _ hc => absurd hc hl⟩
  generalize (if localRequest size align then localStage u cpu enabled size align
    else ⟨0, false, u⟩) = r at hlocal
  obtain ⟨addr', failed, w⟩ := r
  obtain ⟨hserved, hno⟩ := hlocal
  by_cases hc : addr' ≠ 0 ∨ failed = true
  · rw [if_pos hc]
    refine ⟨_, rfl, hserved, fun h₁ h₂ => absurd hc ?_⟩
    simp only at h₁ h₂
    simp [h₁, h₂]
  · simp only [not_or, ne_eq, not_not, Bool.not_eq_true] at hc
    obtain ⟨rfl, rfl⟩ := hc
    obtain ⟨r, hr, hserved', hno'⟩ := globalStage_spec hsize ha hlt hserved.inv
      (hserved.shape.cpuCount.symm ▸ hcpu) enabled
    exact ⟨r, hr, hserved.trans hserved', fun h₁ h₂ => ⟨hno' h₁ h₂, hno rfl rfl⟩⟩

end Alloc

/-- `vas_alloc` of any request. -/
theorem vasAlloc_spec {v : Space} (h : SpaceInv v) {cpu : ℕ} (hcpu : cpu < v.cpuCount)
    (enabled : Bool) (size : ℕ) {align : ℕ} (hlt : align < 2 ^ 64) :
    ∃ r, vasAlloc v cpu enabled size align = .ok r ∧ Served size align v r.addr r.vas := by
  by_cases hbad : size = 0 ∨ isPow2 align = false ∨ v.limit - v.base < size
  · exact ⟨⟨0, false, v⟩, by rw [vasAlloc, if_pos hbad], Served.refl h⟩
  simp only [not_or, Bool.not_eq_false, not_lt] at hbad
  obtain ⟨r, hr, hserved, -⟩ := vasAlloc_valid (Nat.pos_of_ne_zero hbad.1) hbad.2.1 hlt h hcpu
    hbad.2.2 enabled
  exact ⟨r, hr, hserved⟩

/-! ### `vas_free` -/

section Free

variable {v : Space} {e : Extent} {s : Segment} {c : ℕ}

/-- A busy extent belongs to the global arena or to that of a CPU. -/
theorem mem_busyAll : e ∈ busyAll v ↔ (∃ s ∈ held v.global.allSegs, s.type = .busy ∧ s.extent = e) ∨
    ∃ c < v.cpuCount, ∃ s ∈ held (v.locals c).allSegs, s.type = .busy ∧ s.extent = e := by
  simp only [busyAll, busyIn, busyOf, mem_append, mem_flatMap, mem_map,
    mem_filter, mem_range, decide_eq_true_eq, and_assoc]

theorem mem_chunkAt_ownerIndex {x : ℕ} (hx : v.mapBase ≤ x) :
    x ∈ (chunkAt v (ownerIndex v x)).toSet := by
  have h₁ := Nat.div_add_mod (x - v.mapBase) chunkSize
  have h₂ := Nat.mod_lt (x - v.mapBase) chunkSize_pos
  rw [mul_comm] at h₁
  simp only [Extent.mem_toSet, chunkAt, ownerIndex]
  omega

/-- The addresses of a CPU's arena lie in the space. -/
theorem SpaceInv.regionOf_subset (h : SpaceInv v) (c : ℕ) :
    regionOf v c ⊆ Set.Ico v.base v.limit := by
  rintro x ⟨i, hi, hx⟩
  obtain ⟨-, s, hs, -, hse⟩ := h.owned i c hi
  exact h.global.subset (mem_held.mp hs).1 (hse ▸ hx)

/-- The directory names no CPU for a busy segment of the global arena. -/
theorem SpaceInv.owner_global (h : SpaceInv v) (hs : s ∈ held v.global.allSegs)
    (htype : s.type = .busy) : v.chunkOwner (ownerIndex v s.start) = none := by
  cases ho : v.chunkOwner (ownerIndex v s.start) with
  | none => rfl
  | some c =>
    obtain ⟨-, p, hp, hpt, hpe⟩ := h.owned _ c ho
    have hmem := (mem_held.mp hs).1
    have hbase := (h.global.start_mem hmem).1
    have hx : s.start ∈ p.extent.toSet := by
      rw [hpe]
      exact mem_chunkAt_ownerIndex (h.mapBase_le.trans hbase)
    have hsp := h.global.eq_of_mem hmem (mem_held.mp hp).1 (Extent.start_mem (h.global.pos hmem)) hx
    rw [hsp, hpt] at htype
    cases htype

/-- The directory names the CPU for a segment of its arena. -/
theorem SpaceInv.owner_local (h : SpaceInv v) (hc : c < v.cpuCount)
    (hs : s ∈ (v.locals c).allSegs) : v.chunkOwner (ownerIndex v s.start) = some c := by
  obtain ⟨i, hi, hx⟩ := (h.locals c hc).arena.start_mem hs
  rw [ownerIndex_of_mem hx]
  exact hi

/-- A call took the busy extent `e` out of `v` and left `w`. -/
structure Freed (e : Extent) (v w : Space) : Prop where
  inv : SpaceInv w
  shape : SameShape v w
  busy : (busyAll v).Perm (e :: busyAll w)

theorem Freed.of_local {w : Space} (h : SpaceInv v) (hc : c < v.cpuCount) (hstep : LocalStep c v w)
    (hinv : LocalInv (regionOf v c) (w.locals c))
    (hbusy : (busyIn (v.locals c)).Perm (e :: busyIn (w.locals c))) : Freed e v w :=
  ⟨h.localStep hstep hinv, hstep.shape,
    hstep.symm.busyAll_perm (X := [e]) (hstep.cpuCount.symm ▸ hc) hbusy⟩

/-- The slow path finds the segment where the directory says and releases it. -/
theorem freeOwned_spec (h : SpaceInv v) (he : e ∈ busyAll v) :
    ∃ w, freeOwned v e.start e.length = .ok w ∧ Freed e v w := by
  rcases mem_busyAll.mp he with ⟨s, hs, htype, rfl⟩ | ⟨c, hc, s, hs, htype, rfl⟩
  · obtain ⟨hmem, hheld⟩ := mem_held.mp hs
    have howner := h.owner_global hs htype
    have hfind := h.global.segmentFind_eq hmem (Extent.start_mem (h.global.pos hmem))
    have hslot := (h.globalHeld s hs).1
    obtain ⟨hinv, hperm, -, -⟩ := arenaRelease_spec h.global hmem hheld hslot
    refine ⟨{ v with global := arenaRelease v.global s.start }, ?_, ?_, ?_, ?_⟩
    · simp only [extent] at hfind
      simp [freeOwned, extent, howner, Space.arena, Space.setArena, hfind, htype, hslot]
    · refine h.keepOwner (SameShape.mk rfl rfl rfl rfl) rfl hinv
        (fun t ht => h.globalHeld t (hperm.mem_iff.mpr (by simp [ht]))) (fun t htt => ?_) h.locals
      rw [hperm.mem_iff, mem_cons]
      refine ⟨Or.inr, fun ht => ht.resolve_left ?_⟩
      rintro rfl
      rw [htype] at htt
      cases htt
    · exact SameShape.mk rfl rfl rfl rfl
    · have hb := busyOf_perm hperm
      rw [busyOf_cons_busy htype] at hb
      exact hb.append_right _
  · obtain ⟨hmem, hheld⟩ := mem_held.mp hs
    have hinv := h.locals c hc
    have howner := h.owner_local hc hmem
    have hfind := hinv.arena.segmentFind_eq hmem (Extent.start_mem (hinv.arena.pos hmem))
    simp only [extent] at hfind
    have hperm := perm_cons_erase hs
    have hb := busyOf_perm hperm
    rw [busyOf_cons_busy htype] at hb
    cases hslot : s.magSlot with
    | none =>
      obtain ⟨hinv', hperm'⟩ := arenaRelease_local hinv hperm hslot
      refine ⟨v.setArena (arenaRelease (v.locals c) s.start) (some c), ?_, ?_⟩
      · simp [freeOwned, extent, howner, Space.arena, hfind, htype, hslot, hc]
      · refine Freed.of_local h hc (LocalStep.set c v _ v.magReservedBytes v.tags) ?_ ?_
        · simpa using hinv'
        · simpa [busyIn] using hb.trans ((busyOf_perm hperm'.symm).cons _)
    | some slot =>
      obtain ⟨cls, i⟩ := slot
      have hen := hinv.enrolled hs hslot
      obtain ⟨st, hst, hsttype, htoken⟩ := hen.state
      have hlive : st = .live := by
        rw [htype] at hsttype
        cases st <;> first | rfl | cases hsttype
      subst hlive
      have hclaim := magazineClaim_self (v.locals c) cls i
      rw [show ((v.locals c).slot cls i).token = tokenMake s.start .live from htoken] at hclaim
      obtain ⟨hstep, hinv', hperm', -⟩ := magazineRelease_spec hinv hperm hslot hclaim
      refine ⟨_, ?_, Freed.of_local h hc hstep hinv' (hb.trans ((busyOf_perm hperm'.symm).cons _))⟩
      simp [freeOwned, extent, howner, Space.arena, hfind, htype, hslot, hc, hclaim]

/-- `vas_free` of a busy extent does not fail, and takes exactly that extent out. -/
theorem vasFree_spec (h : SpaceInv v) {cpu : ℕ} (hcpu : cpu < v.cpuCount) (enabled : Bool)
    (he : e ∈ busyAll v) : ∃ w, vasFree v cpu enabled e.start e.length = .ok w ∧ Freed e v w := by
  have hbounds : 0 < e.length ∧ e.toSet ⊆ Set.Ico v.base v.limit := by
    rcases mem_busyAll.mp he with ⟨s, hs, -, rfl⟩ | ⟨c, hc, s, hs, -, rfl⟩
    · exact ⟨h.global.pos (mem_held.mp hs).1, h.global.subset (mem_held.mp hs).1⟩
    · have hinv := (h.locals c hc).arena
      exact ⟨hinv.pos (mem_held.mp hs).1,
        (hinv.subset (mem_held.mp hs).1).trans (h.regionOf_subset c)⟩
  obtain ⟨hpos, hsub⟩ := hbounds
  have hfirst := hsub (Extent.start_mem hpos)
  have hlast := hsub (Extent.last_mem hpos)
  simp only [Set.mem_Ico] at hfirst hlast
  rw [vasFree, if_neg (by omega)]
  by_cases hc : magClass e.length < magClasses ∧ enabled = true
  · rw [if_pos hc]
    have hinv := h.locals cpu hcpu
    have hspec := magazineFree_spec hinv hc.1 e.start
    generalize magazineFree (v.locals cpu) (magClass e.length) e.start = r at hspec
    obtain ⟨done, A⟩ := r
    rcases hspec with hno | ⟨hdone, s, hstart, htype, hlen, hsw⟩
    · obtain ⟨⟩ := hno
      exact freeOwned_spec h he
    subst hdone
    have hext : s.extent = e := by
      rw [extent, hstart, hlen, ← magClass_length hc.1]
    refine ⟨v.setArena A (some cpu), rfl, ?_⟩
    refine Freed.of_local h hcpu (LocalStep.set cpu v A v.magReservedBytes v.tags) ?_ ?_
    · simpa using hsw.inv
    have hperm := perm_cons_erase hsw.mem
    have hb := busyOf_perm hperm
    have hb' := busyOf_perm (hsw.held _ hperm)
    rw [busyOf_cons_busy htype, hext] at hb
    simpa [busyIn] using hb.trans (hb'.symm.cons _)
  · rw [if_neg hc]
    exact freeOwned_spec h he

end Free

end Charmos.Vas
