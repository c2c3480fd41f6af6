import Charmos.Mem.Vas.ArenaSpec
import Charmos.Mem.Vas.Space

/-!
# Magazines and their segments

`SlotsOk mags H` relates the magazines of an arena to its held segments `H`: every enrolled
segment and its slot name each other and agree on the state, every slot that is in use has a
segment, and a cached segment is enrolled. `LocalInv R A` is the invariant of a CPU's arena over
the addresses `R`. The fast paths of allocation and release change the state of one enrolled
segment.
-/

namespace Charmos.Vas

open List Tiling

/-! ### Tokens -/

theorem MagState.code_lt (state : MagState) : state.code < 4 := by cases state <;> decide

theorem MagState.code_pos (state : MagState) : 0 < state.code := by cases state <;> decide

theorem MagState.code_inj {st st' : MagState} (h : st.code = st'.code) : st = st' := by
  cases st <;> cases st' <;> first | rfl | (exact absurd h (by decide))

variable {addr : ℕ}

theorem tokenMake_eq (h : 4 ∣ addr) (state : MagState) :
    tokenMake addr state = addr + state.code := by
  obtain ⟨q, rfl⟩ := h
  exact (Nat.two_pow_add_eq_or_of_lt (i := 2) state.code_lt q).symm

theorem tokenAddr_tokenMake (h : 4 ∣ addr) (state : MagState) :
    tokenAddr (tokenMake addr state) = addr := by
  rw [tokenMake_eq h, tokenAddr]
  have := state.code_lt
  omega

theorem tokenState_tokenMake (h : 4 ∣ addr) (state : MagState) :
    tokenState (tokenMake addr state) = state.code := by
  rw [tokenMake_eq h, tokenState]
  have := state.code_lt
  omega

theorem tokenMake_ne_zero (h : 4 ∣ addr) (state : MagState) : tokenMake addr state ≠ 0 := by
  rw [tokenMake_eq h]
  have := state.code_pos
  omega

theorem tokenMake_inj {addr' : ℕ} (h : 4 ∣ addr) (h' : 4 ∣ addr') {st st' : MagState}
    (he : tokenMake addr st = tokenMake addr' st') : addr = addr' ∧ st = st' := by
  have ha := congrArg tokenAddr he
  have hs := congrArg tokenState he
  rw [tokenAddr_tokenMake h, tokenAddr_tokenMake h'] at ha
  rw [tokenState_tokenMake h, tokenState_tokenMake h'] at hs
  exact ⟨ha, MagState.code_inj hs⟩

theorem four_dvd_of_page (h : pageSize ∣ addr) : 4 ∣ addr :=
  Dvd.dvd.trans (by decide) h

theorem isAligned_page : isAligned addr pageSize = true ↔ pageSize ∣ addr :=
  isAligned_iff (by decide)

/-! ### Slots -/

/-- The segment `s` is enrolled in slot `i` of class `cls`. -/
structure Enrolled (mags : ℕ → Magazine) (s : Segment) (cls i : ℕ) : Prop where
  cls_lt : cls < magClasses
  slot_lt : i < magCap cls
  length : s.length = magSize cls
  page : pageSize ∣ s.start
  segment : ((mags cls).slots i).segment = some s.start
  state : ∃ st : MagState, st ≠ .claimed ∧ s.type = st.segmentType ∧
    ((mags cls).slots i).token = tokenMake s.start st

/-- Slots and held segments name each other and agree. -/
structure SlotsOk (mags : ℕ → Magazine) (H : List Segment) : Prop where
  seg : ∀ s ∈ H, ∀ cls i, s.magSlot = some (cls, i) → Enrolled mags s cls i
  slot : ∀ cls < magClasses, ∀ i < magCap cls, ((mags cls).slots i).token ≠ 0 →
    ∃ s ∈ H, s.magSlot = some (cls, i)
  cached : ∀ s ∈ H, s.type = .cached → s.magSlot ≠ none

/-- Magazines with one slot overwritten. -/
def setMag (mags : ℕ → Magazine) (cls i : ℕ) (x : MagSlot) : ℕ → Magazine :=
  Function.update mags cls { mags cls with slots := Function.update (mags cls).slots i x }

@[simp] theorem setSlot_magazines (A : Arena) (cls i : ℕ) (x : MagSlot) :
    (A.setSlot cls i x).magazines = setMag A.magazines cls i x := rfl

theorem setMag_self (mags : ℕ → Magazine) (cls i : ℕ) (x : MagSlot) :
    (setMag mags cls i x cls).slots i = x := by
  simp [setMag]

theorem setMag_of_ne {mags : ℕ → Magazine} {cls i cls' i' : ℕ} (h : (cls', i') ≠ (cls, i))
    (x : MagSlot) : (setMag mags cls i x cls').slots i' = (mags cls').slots i' := by
  rw [setMag]
  by_cases hc : cls' = cls
  · subst hc
    have hi : i' ≠ i := fun he => h (by rw [he])
    simp [hi]
  · simp [hc]

theorem setMag_setMag (mags : ℕ → Magazine) (cls i : ℕ) (x y : MagSlot) :
    setMag (setMag mags cls i x) cls i y = setMag mags cls i y := by
  simp [setMag]

namespace SlotsOk

variable {mags : ℕ → Magazine} {H G : List Segment} {s m : Segment} {cls i : ℕ}

theorem perm (h : SlotsOk mags H) (hp : H.Perm G) : SlotsOk mags G where
  seg t ht := h.seg t (hp.mem_iff.mpr ht)
  slot c hc j hj ht := by
    obtain ⟨t, htH, hts⟩ := h.slot c hc j hj ht
    exact ⟨t, hp.mem_iff.mp htH, hts⟩
  cached t ht := h.cached t (hp.mem_iff.mpr ht)

theorem congr {mags' : ℕ → Magazine} (h : SlotsOk mags H)
    (hm : ∀ c, (mags' c).slots = (mags c).slots) : SlotsOk mags' H where
  seg t ht c j htc := by
    obtain ⟨h₁, h₂, h₃, h₄, h₅, h₆⟩ := h.seg t ht c j htc
    exact ⟨h₁, h₂, h₃, h₄, by rwa [hm], by rwa [hm]⟩
  slot c hc j hj ht := h.slot c hc j hj (by rwa [hm] at ht)
  cached := h.cached

/-- A busy segment outside the magazines may be added. -/
theorem cons (h : SlotsOk mags H) (hslot : m.magSlot = none) (htype : m.type ≠ .cached) :
    SlotsOk mags (m :: H) where
  seg t ht c j htc := by
    rcases mem_cons.mp ht with rfl | ht
    · simp [hslot] at htc
    · exact h.seg t ht c j htc
  slot c hc j hj ht := by
    obtain ⟨t, htH, hts⟩ := h.slot c hc j hj ht
    exact ⟨t, mem_cons_of_mem _ htH, hts⟩
  cached t ht htc := by
    rcases mem_cons.mp ht with rfl | ht
    · exact absurd htc htype
    · exact h.cached t ht htc

/-- A segment outside the magazines may be taken out. -/
theorem tail (h : SlotsOk mags (m :: H)) (hslot : m.magSlot = none) : SlotsOk mags H where
  seg t ht := h.seg t (mem_cons_of_mem _ ht)
  slot c hc j hj ht := by
    obtain ⟨t, htH, hts⟩ := h.slot c hc j hj ht
    rcases mem_cons.mp htH with rfl | htH
    · simp [hslot] at hts
    · exact ⟨t, htH, hts⟩
  cached t ht := h.cached t (mem_cons_of_mem _ ht)

/-- A slot that belongs to no segment but `s` may be cleared once `s` leaves the arena. -/
theorem clear (h : SlotsOk mags (s :: H)) (hH : ∀ t ∈ H, t.magSlot ≠ some (cls, i))
    (hs : s.magSlot = none ∨ s.magSlot = some (cls, i)) :
    SlotsOk (setMag mags cls i ⟨0, none⟩) H where
  seg t ht c j htc := by
    have hne : (c, j) ≠ (cls, i) := fun he => hH t ht (by rw [htc, he])
    obtain ⟨h₁, h₂, h₃, h₄, h₅, h₆⟩ := h.seg t (mem_cons_of_mem _ ht) c j htc
    exact ⟨h₁, h₂, h₃, h₄, by rwa [setMag_of_ne hne], by rwa [setMag_of_ne hne]⟩
  slot c hc j hj ht := by
    by_cases he : (c, j) = (cls, i)
    · obtain ⟨⟩ := he
      simp [setMag_self] at ht
    rw [setMag_of_ne he] at ht
    obtain ⟨t, htH, hts⟩ := h.slot c hc j hj ht
    rcases mem_cons.mp htH with rfl | htH
    · rcases hs with hs | hs <;> simp_all
    · exact ⟨t, htH, hts⟩
  cached t ht := h.cached t (mem_cons_of_mem _ ht)

/-- A slot that belongs to no segment but `s` may be given to the new state `s'` of `s`. -/
theorem set (h : SlotsOk mags (s :: H)) (hH : ∀ t ∈ H, t.magSlot ≠ some (cls, i))
    (hs : s.magSlot = none ∨ s.magSlot = some (cls, i)) {s' : Segment} {x : MagSlot}
    (hs' : s'.magSlot = some (cls, i)) (he : Enrolled (setMag mags cls i x) s' cls i) :
    SlotsOk (setMag mags cls i x) (s' :: H) where
  seg t ht c j htc := by
    rcases mem_cons.mp ht with rfl | ht
    · obtain ⟨rfl, rfl⟩ := Prod.mk.inj (Option.some.inj (htc.symm.trans hs'))
      exact he
    · have hne : (c, j) ≠ (cls, i) := fun hcj => hH t ht (by rw [htc, hcj])
      obtain ⟨h₁, h₂, h₃, h₄, h₅, h₆⟩ := h.seg t (mem_cons_of_mem _ ht) c j htc
      exact ⟨h₁, h₂, h₃, h₄, by rwa [setMag_of_ne hne], by rwa [setMag_of_ne hne]⟩
  slot c hc j hj ht := by
    by_cases hcj : (c, j) = (cls, i)
    · exact ⟨s', by simp, by rw [hs', hcj]⟩
    rw [setMag_of_ne hcj] at ht
    obtain ⟨t, htH, hts⟩ := h.slot c hc j hj ht
    rcases mem_cons.mp htH with rfl | htH
    · rcases hs with hs | hs <;> simp_all
    · exact ⟨t, mem_cons_of_mem _ htH, hts⟩
  cached t ht htc := by
    rcases mem_cons.mp ht with rfl | ht
    · simp [hs']
    · exact h.cached t (mem_cons_of_mem _ ht) htc

end SlotsOk

/-! ### A CPU's arena -/

/-- The chunk that starts at `c`. -/
def chunkSpan (c : ℕ) : Set ℕ := {x | chunkSize ∣ c ∧ x ∈ Extent.toSet ⟨c, chunkSize⟩}

/-- The invariant of a CPU's arena over the addresses `R`. -/
structure LocalInv (R : Set ℕ) (A : Arena) : Prop where
  arena : ArenaInv chunkSpan R A
  slots : SlotsOk A.magazines (held A.allSegs)
  types : ∀ s ∈ held A.allSegs, s.type ≠ .imported

/-- The extents of the busy segments. -/
def busyOf (H : List Segment) : List Extent :=
  (H.filter fun s => decide (s.type = .busy)).map Segment.extent

variable {s : Segment}

theorem busyOf_cons_busy (hs : s.type = .busy) (H : List Segment) :
    busyOf (s :: H) = s.extent :: busyOf H := by
  rw [busyOf, filter_cons_of_pos (by simp [hs]), map_cons, busyOf]

theorem busyOf_cons_other (hs : s.type ≠ .busy) (H : List Segment) :
    busyOf (s :: H) = busyOf H := by
  rw [busyOf, filter_cons_of_neg (by simp [hs]), busyOf]

theorem busyOf_perm {H G : List Segment} (h : H.Perm G) : (busyOf H).Perm (busyOf G) :=
  (h.filter _).map _

/-- The busy extents of an arena. -/
def busyIn (A : Arena) : List Extent := busyOf (held A.allSegs)

namespace LocalInv

variable {R : Set ℕ} {A : Arena} {s t : Segment} {H : List Segment} {cls i : ℕ}

theorem mem_of_perm (hH : (held A.allSegs).Perm (s :: H)) : s ∈ A.allSegs ∧ s.type ≠ .free :=
  mem_held.mp (hH.mem_iff.mpr (by simp))

/-- No other held segment starts where `s` does. -/
theorem start_ne (h : LocalInv R A) (hH : (held A.allSegs).Perm (s :: H)) (ht : t ∈ H) :
    t.start ≠ s.start := by
  have hnodup : (held A.allSegs).Pairwise fun a b => a.start ≠ b.start :=
    (h.arena.ordered.imp fun hlt => hlt.ne).filter _
  have hp := hH.pairwise_iff (fun {a b} (hab : a.start ≠ b.start) => hab.symm) |>.mp hnodup
  exact ((pairwise_cons.mp hp).1 t ht).symm

/-- No other held segment has the slot of `s`. -/
theorem slot_ne (h : LocalInv R A) (hH : (held A.allSegs).Perm (s :: H))
    (hs : s.magSlot = some (cls, i)) : ∀ t ∈ H, t.magSlot ≠ some (cls, i) := by
  intro t ht htc
  have he := (h.slots.perm hH).seg s (by simp) cls i hs
  have he' := (h.slots.perm hH).seg t (by simp [ht]) cls i htc
  exact h.start_ne hH ht (Option.some.inj (he'.segment.symm.trans he.segment))

theorem enrolled (h : LocalInv R A) (hs : s ∈ held A.allSegs) (hslot : s.magSlot = some (cls, i)) :
    Enrolled A.magazines s cls i := h.slots.seg s hs cls i hslot

end LocalInv

/-! ### Changing the state of an enrolled segment -/

/-- The segment `s` in slot `i` of class `cls` goes to state `st`. -/
def switchState (A : Arena) (s : Segment) (cls i : ℕ) (st : MagState) : Arena :=
  (modifySeg A s.start fun t => { t with type := st.segmentType }).setSlot cls i
    ⟨tokenMake s.start st, some s.start⟩

/-- A successful claim followed by a publication switches the state. -/
theorem publish_claim {A B : Arena} {cls i token : ℕ} (hseg : (A.slot cls i).segment = some s.start)
    (hc : magazineClaim A cls i token = some B) (st : MagState) :
    magazinePublish B cls i st = switchState A s cls i st := by
  rw [magazineClaim] at hc
  split at hc
  · obtain ⟨⟩ := hc
    have hslot : ∀ x, (A.setSlot cls i x).slot cls i = x := fun x => setMag_self ..
    rw [magazinePublish, hslot]
    simp only [hseg]
    simp only [Arena.setSlot, switchState, modifySeg]
    simp [Arena.slot]
  · cases hc

theorem segmentType_ne (st : MagState) : st.segmentType ≠ .free ∧ st.segmentType ≠ .imported := by
  cases st <;> decide

/-- Switching the state of an enrolled segment keeps the arena. -/
theorem switchState_spec {R : Set ℕ} {A : Arena} (h : LocalInv R A) {H : List Segment}
    (hH : (held A.allSegs).Perm (s :: H)) {cls i : ℕ} (hslot : s.magSlot = some (cls, i))
    (st : MagState) (hst : st ≠ .claimed) :
    LocalInv R (switchState A s cls i st) ∧
      (held (switchState A s cls i st).allSegs).Perm ({ s with type := st.segmentType } :: H) := by
  obtain ⟨hs, hheld⟩ := LocalInv.mem_of_perm hH
  have he := h.enrolled (mem_held.mpr ⟨hs, hheld⟩) hslot
  obtain ⟨hinv, hperm, -⟩ := modifySeg_spec (f := fun t => { t with type :=
    st.segmentType }) h.arena hs hheld rfl rfl (segmentType_ne st).1
  have hH' := hperm H hH
  refine ⟨⟨?_, ?_, ?_⟩, hH'⟩
  · exact ⟨hinv.range, hinv.tiles, hinv.spans, hinv.freeSlot, hinv.bins.congr rfl rfl, hinv.total⟩
  · refine SlotsOk.perm ?_ hH'.symm
    refine SlotsOk.set (h.slots.perm hH) (h.slot_ne hH hslot) (Or.inr hslot) hslot ?_
    refine ⟨he.cls_lt, he.slot_lt, he.length, he.page, ?_, st, hst, rfl, ?_⟩
    · rw [setMag_self]
    · rw [setMag_self]
  · intro t ht
    rcases mem_cons.mp (hH'.mem_iff.mp ht) with rfl | ht
    · exact (segmentType_ne st).2
    · exact h.types t (hH.mem_iff.mpr (by simp [ht]))

/-! ### The fast paths -/

section FastPath

variable {R : Set ℕ} {A : Arena} {cls i : ℕ} {slots : List ℕ} {align : ℕ}

/-- A slot in use belongs to a held segment, whose state is that of the token. -/
theorem LocalInv.slot_segment (h : LocalInv R A) (hcls : cls < magClasses) (hi : i < magCap cls)
    (ht : (A.slot cls i).token ≠ 0) :
    ∃ s H, (held A.allSegs).Perm (s :: H) ∧ s.magSlot = some (cls, i) ∧
      Enrolled A.magazines s cls i := by
  obtain ⟨s, hs, hslot⟩ := h.slots.slot cls hcls i hi ht
  exact ⟨s, (held A.allSegs).erase s, perm_cons_erase hs, hslot, h.enrolled hs hslot⟩

theorem magazineClaim_self (A : Arena) (cls i : ℕ) :
    magazineClaim A cls i (A.slot cls i).token = some (A.setSlot cls i
      { A.slot cls i with
        token := tokenMake (tokenAddr (A.slot cls i).token) .claimed }) := if_pos rfl

/-- The arena `A'` is `A` with the enrolled segment `s` in state `st`. -/
structure Switched (R : Set ℕ) (A A' : Arena) (s : Segment) (st : MagState) : Prop where
  inv : LocalInv R A'
  mem : s ∈ held A.allSegs
  held : ∀ H, (held A.allSegs).Perm (s :: H) →
    (held A'.allSegs).Perm ({ s with type := st.segmentType } :: H)

/-- The search of `magazine_alloc` fails and changes nothing, or hands out a cached segment. -/
theorem magazineAllocFrom_spec (h : LocalInv R A) (hcls : cls < magClasses)
    (ha : isPow2 align = true) (hslots : ∀ i ∈ slots, i < magCap cls) :
    magazineAllocFrom A cls align slots = (0, A) ∨
      ∃ s, (magazineAllocFrom A cls align slots).1 = s.start ∧ s.type = .cached ∧
        s.length = magSize cls ∧ align ∣ s.start ∧
        Switched R A (magazineAllocFrom A cls align slots).2 s .live := by
  induction slots with
  | nil => exact Or.inl rfl
  | cons i rest ih =>
    have hrest := ih fun j hj => hslots j (mem_cons_of_mem _ hj)
    rw [magazineAllocFrom]
    by_cases hskip : tokenState (A.slot cls i).token ≠ MagState.cached.code ∨
        isAligned (tokenAddr (A.slot cls i).token) align = false
    · rw [if_pos hskip]
      exact hrest
    rw [if_neg hskip, magazineClaim_self]
    simp only [not_or, ne_eq, not_not, Bool.not_eq_false] at hskip
    obtain ⟨hstate, halign⟩ := hskip
    have hne : (A.slot cls i).token ≠ 0 := fun h0 => by
      rw [h0] at hstate
      exact absurd hstate (by decide)
    obtain ⟨s, H, hH, hslot, he⟩ := h.slot_segment hcls (hslots i (by simp)) hne
    obtain ⟨st, hst, htype, htoken⟩ := he.state
    have h4 := four_dvd_of_page he.page
    have htok : (A.slot cls i).token = tokenMake s.start st := htoken
    rw [htok, tokenState_tokenMake h4] at hstate
    obtain rfl := MagState.code_inj hstate
    rw [htok, tokenAddr_tokenMake h4, isAligned_iff ha] at halign
    have haddr : tokenAddr (A.slot cls i).token = s.start := by rw [htok, tokenAddr_tokenMake h4]
    refine Or.inr ⟨s, haddr, htype, he.length, halign, ?_⟩
    change Switched R A (magazinePublish _ cls i .live) s .live
    rw [publish_claim he.segment (magazineClaim_self A cls i)]
    obtain ⟨hinv, -⟩ := switchState_spec h hH hslot .live (by decide)
    exact ⟨hinv, hH.mem_iff.mpr (by simp),
      fun G hG => (switchState_spec h hG hslot .live (by decide)).2⟩

theorem magazineAlloc_spec (h : LocalInv R A) (hcls : cls < magClasses) (ha : isPow2 align = true) :
    magazineAlloc A cls align = (0, A) ∨
      ∃ s, (magazineAlloc A cls align).1 = s.start ∧ s.type = .cached ∧
        s.length = magSize cls ∧ align ∣ s.start ∧
        Switched R A (magazineAlloc A cls align).2 s .live := by
  refine magazineAllocFrom_spec h hcls ha fun i hi => ?_
  obtain ⟨n, hn, rfl⟩ := mem_map.mp hi
  exact Nat.mod_lt _ (Nat.pos_of_ne_zero fun h0 => by simp [h0] at hn)

/-- The search of `magazine_free` fails and changes nothing, or caches the busy segment. -/
theorem magazineFreeFrom_spec (h : LocalInv R A) (hcls : cls < magClasses) {addr : ℕ}
    (haddr : pageSize ∣ addr) (hslots : ∀ i ∈ slots, i < magCap cls) :
    magazineFreeFrom A cls addr slots = (false, A) ∨
      (magazineFreeFrom A cls addr slots).1 = true ∧
      ∃ s, s.start = addr ∧ s.type = .busy ∧ s.length = magSize cls ∧
        Switched R A (magazineFreeFrom A cls addr slots).2 s .cached := by
  induction slots with
  | nil => exact Or.inl rfl
  | cons i rest ih =>
    have hrest := ih fun j hj => hslots j (mem_cons_of_mem _ hj)
    rw [magazineFreeFrom]
    by_cases hskip : (A.slot cls i).token ≠ tokenMake addr .live
    · rw [if_pos hskip]
      exact hrest
    rw [if_neg hskip]
    have htok : (A.slot cls i).token = tokenMake addr .live := not_not.mp hskip
    have h4 := four_dvd_of_page haddr
    have hclaim := magazineClaim_self A cls i
    rw [htok] at hclaim
    rw [hclaim]
    obtain ⟨s, H, hH, hslot, he⟩ := h.slot_segment hcls (hslots i (by simp))
      (htok ▸ tokenMake_ne_zero h4 .live)
    obtain ⟨st, hst, htype, htoken⟩ := he.state
    obtain ⟨hsa, rfl⟩ := tokenMake_inj (four_dvd_of_page he.page) h4 (htoken.symm.trans htok)
    refine Or.inr ⟨rfl, s, hsa, htype, he.length, ?_⟩
    simp only
    rw [publish_claim he.segment hclaim]
    obtain ⟨hinv, -⟩ := switchState_spec h hH hslot .cached (by decide)
    refine ⟨⟨?_, ?_, hinv.types⟩, hH.mem_iff.mpr (by simp), fun G hG =>
      (switchState_spec h hG hslot .cached (by decide)).2⟩
    · obtain ⟨h₁, h₂, h₃, h₄, h₅, h₆⟩ := hinv.arena
      exact ⟨h₁, h₂, h₃, h₄, h₅.congr rfl rfl, h₆⟩
    refine hinv.slots.congr fun c => ?_
    by_cases hc : c = cls
    · subst hc
      simp
    · simp [hc]

theorem magazineFree_spec (h : LocalInv R A) (hcls : cls < magClasses) (addr : ℕ) :
    magazineFree A cls addr = (false, A) ∨
      (magazineFree A cls addr).1 = true ∧
      ∃ s, s.start = addr ∧ s.type = .busy ∧ s.length = magSize cls ∧
        Switched R A (magazineFree A cls addr).2 s .cached := by
  rw [magazineFree]
  by_cases hp : isAligned addr pageSize = true
  · rw [if_pos hp]
    exact magazineFreeFrom_spec h hcls (isAligned_page.mp hp) fun i hi => mem_range.mp hi
  · rw [if_neg hp]
    exact Or.inl rfl

end FastPath

end Charmos.Vas
