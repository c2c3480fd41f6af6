import Charmos.Mem.Vas.ProtocolStep

/-!
# The magazine protocol over every interleaving

`magRun_sound` follows the space from its creation through any interleaving of the CPUs' atomic
steps. Tokens move along the edges of the protocol only, no address is held twice, a published
slot and its segment agree on the type, and the byte counter is the summed length of the enrolled
segments, which stays within the limit.

A segment counts as enrolled from the compare and swap that charges its bytes to the subtraction
that returns them: `magazine_enroll` charges before it publishes the slot, and `magazine_release`
returns the bytes before it clears the token.
-/

namespace Charmos.Vas

open Function Interleaving List MagMem Option Relation

variable {m m' : MagMem} {x y : SlotId} {a b p t : ℕ} {c c' : MagPc} {e : Enrolling} {s : MagConfig}

/-! ### The moves of a token -/

/-- The edges of the protocol: an empty slot is published as live or cached, a published slot is
claimed, and a claimed slot is published or emptied. The addresses are those of pages, so that a
token has one address and one state. -/
inductive TokenMove : ℕ → ℕ → Prop
  | enroll {a : ℕ} (ha : pageSize ∣ a) {st : MagState} (hst : st ≠ .claimed) :
      TokenMove 0 (tokenMake a st)
  | claim {a : ℕ} (ha : pageSize ∣ a) {st : MagState} (hst : st ≠ .claimed) :
      TokenMove (tokenMake a st) (tokenMake a .claimed)
  | publish {a : ℕ} (ha : pageSize ∣ a) {st : MagState} (hst : st ≠ .claimed) :
      TokenMove (tokenMake a .claimed) (tokenMake a st)
  | release {a : ℕ} (ha : pageSize ∣ a) : TokenMove (tokenMake a .claimed) 0

/-- The slot whose bytes CPU `p` has charged and whose token it has not stored yet. -/
def MagPc.charged (p : ℕ) : MagPc → Option SlotId
  | .enrollType e i | .enrollToken e i => some ⟨p, e.cls, i⟩
  | _ => none

/-- The slot whose bytes the CPU has returned and whose token it has not cleared yet. -/
def MagPc.returned : MagPc → Option SlotId
  | .releaseArena x _ _ | .releaseToken x _ => some x
  | _ => none

/-- What a step does to the token of a slot, and to the accounts of the CPU. -/
inductive TokenStep (p : ℕ) (m : MagMem) (c : MagPc) (m' : MagMem) (c' : MagPc) : Prop
  | keep (ht : ∀ x, m'.token x = m.token x) (hb : m'.bytes = m.bytes)
      (hc : c'.charged p = c.charged p) (hr : c'.returned = c.returned)
  | move (x : SlotId) (a : ℕ) (st st' : MagState) (h : Tok m x a st) (h' : Tok m' x a st')
      (hst : st = .claimed ↔ st' ≠ .claimed) (ht : ∀ y, y ≠ x → m'.token y = m.token y)
      (hb : m'.bytes = m.bytes) (hc : c'.charged p = c.charged p) (hr : c'.returned = c.returned)
  | enroll (e : Enrolling) (i : ℕ) (hc : c = .enrollToken e i)
      (hm : m' = m.setToken ⟨p, e.cls, i⟩ (tokenMake e.seg e.state))
      (hc' : c' = .refill e.ret e.cls e.left)
  | release (x : SlotId) (rest : Option (List SlotId)) (hc : c = .releaseToken x rest)
      (hm : m' = m.setToken x 0) (hc' : c' = afterRelease x rest)
  | charge (e : Enrolling) (i : ℕ) (g : SegState) (hc : c = .enrollBytes e i m.bytes)
      (hg : m.seg e.seg = some g) (hroom : g.length ≤ magRoom m.bytes)
      (hm : m' = { m with bytes := (m.bytes + g.length) % 2 ^ 64 }) (hc' : c' = .enrollType e i)
  | giveBack (x : SlotId) (b : ℕ) (g : SegState) (rest : Option (List SlotId))
      (hc : c = .releaseBytes x b rest) (hg : m.seg b = some g)
      (hm : m' = { m with bytes := (m.bytes + 2 ^ 64 - g.length) % 2 ^ 64 })
      (hc' : c' = .releaseArena x b rest)

theorem Enrolling.charged_failed : e.failed.charged p = none := by
  cases hst : e.state <;> simp [failed, hst, MagPc.charged]

theorem Enrolling.charged_entry : e.entry.charged p = none := by
  rw [entry]
  split
  · rfl
  · exact charged_failed

theorem Enrolling.returned_failed : e.failed.returned = none := by
  cases hst : e.state <;> simp [failed, hst, MagPc.returned]

theorem Enrolling.returned_entry : e.entry.returned = none := by
  rw [entry]
  split
  · rfl
  · exact returned_failed

/-- A claim or a publication. -/
theorem TokenStep.write {st u : MagState} (h : Tok m x a st) (hst : st = .claimed ↔ u ≠ .claimed)
    (hc : c'.charged p = c.charged p) (hr : c'.returned = c.returned)
    (hs : m'.slot = (m.setToken x (tokenMake a u)).slot) (hb : m'.bytes = m.bytes) :
    TokenStep p m c m' c' := by
  refine .move x a st u h ⟨h.page, ?_⟩ hst (fun y hy => ?_) hb hc hr
  · rw [token, hs]
    exact setToken_token_self
  · rw [token, hs, setToken_slot_of_ne hy, token]

/-- What the steps do to tokens and accounts. -/
theorem MagStep.tokenStep (h : MagStep p m c m' c') (hs : MagShared m) (hk : MagKnown p m c) :
    TokenStep p m c m' c' := by
  have hpc := hk.pc
  cases h with
  | @allocWin cls align i token rest ht | @drainWin d token x rest ht =>
    subst ht
    have ht := hs.cached_of_state hpc
    exact .write ht (by decide) rfl rfl rfl rfl
  | @freeWin cls addr size i rest ht =>
    have htok : Tok m ⟨p, cls, i⟩ addr .live := ⟨hpc.1, ht⟩
    refine .write (u := .claimed) htok (by decide) rfl rfl ?_ rfl
    rw [claim, tokenAddr_tokenMake (four_dvd_of_page hpc.1)]
  | @freeSlot addr d x ht =>
    refine .write (u := .claimed) hpc.1 (by decide) rfl rfl ?_ rfl
    rw [claim, tokenAddr_tokenMake (four_dvd_of_page hpc.1.page)]
  | allocToken => exact .write (u := .live) hpc.2.1 (by decide) rfl rfl rfl rfl
  | freeToken => exact .write (u := .cached) hpc.1 (by decide) rfl rfl rfl rfl
  | enrollToken => exact .enroll _ _ rfl rfl rfl
  | releaseToken => exact .release _ _ rfl rfl rfl
  | enrollWin hg hroom hb =>
    subst hb
    exact .charge _ _ _ rfl hg hroom rfl rfl
  | @releaseBytes x addr b g rest hb hg =>
    obtain ⟨-, ty, hl⟩ := hpc
    obtain rfl : b = addr := some.inj (hb.symm.trans hl.segment)
    exact .giveBack _ _ _ _ rfl hg rfl rfl
  | releaseArena | enrollType => exact .keep (fun _ => setSegment_token) rfl rfl rfl
  | enrollNone | enrollOver =>
    exact .keep (fun _ => rfl) rfl Enrolling.charged_failed Enrolling.returned_failed
  | slowEnroll | refillAlloc =>
    exact .keep (fun _ => rfl) rfl Enrolling.charged_entry Enrolling.returned_entry
  | _ => exact .keep (fun _ => rfl) rfl rfl rfl

theorem token_setBytes (m : MagMem) (n : ℕ) (x : SlotId) :
    ({ m with bytes := n } : MagMem).token x = m.token x := rfl

/-- Every step moves tokens along the edges of the protocol. -/
theorem MagStep.tokenMove (h : MagStep p m c m' c') (hs : MagShared m) (hk : MagKnown p m c)
    (x : SlotId) : m'.token x = m.token x ∨ TokenMove (m.token x) (m'.token x) := by
  have hpc := hk.pc
  cases h.tokenStep hs hk with
  | keep ht => exact .inl (ht x)
  | move y a st st' h h' hst ht =>
    by_cases hx : x = y
    · subst hx
      rw [h.eq, h'.eq]
      by_cases hc : st = .claimed
      · subst hc
        exact .inr (.publish h.page (hst.mp rfl))
      have hc' : st' = .claimed := by
        by_contra hne
        exact hc (hst.mpr hne)
      subst hc'
      exact .inr (.claim h.page hc)
    · exact .inl (ht x hx)
  | enroll e i hc hm hc' =>
    subst hc hm
    by_cases hx : x = ⟨p, e.cls, i⟩
    · subst hx
      obtain ⟨hok, -, hpage, hz⟩ := hpc
      rw [setToken_token_self, hz]
      exact .inr (.enroll hpage hok.state_ne)
    · exact .inl (by rw [token, setToken_slot_of_ne hx, token])
  | release y rest hc hm hc' =>
    subst hc hm
    by_cases hx : x = y
    · subst hx
      obtain ⟨-, a, ha⟩ := hpc
      rw [setToken_token_self, ha.eq]
      exact .inr (.release ha.page)
    · exact .inl (by rw [token, setToken_slot_of_ne hx, token])
  | charge e i g hc hg hroom hm hc' | giveBack y b g rest hc hg hm hc' =>
    subst hm
    exact .inl (token_setBytes ..)

/-! ### The byte counter -/

/-- The segment of the slot counts as enrolled. -/
def SlotEnrolled (s : MagConfig) (x : SlotId) : Prop :=
  (s.mem.token x ≠ 0 ∧ ∀ p, (s.pc p).returned ≠ some x) ∨ ∃ p, (s.pc p).charged p = some x

/-- All slots of the space. -/
def spaceSlots (cpuCount : ℕ) : Finset SlotId :=
  ((List.range cpuCount).flatMap drainOrder).toFinset

open Classical in
/-- The summed length of the enrolled segments. Each has the length of its class. -/
noncomputable def enrolledBytes (s : MagConfig) : ℕ :=
  ∑ x ∈ spaceSlots s.mem.cpuCount, if SlotEnrolled s x then magSize x.cls else 0

theorem SlotId.Valid.mem_spaceSlots (h : x.Valid m) : x ∈ spaceSlots m.cpuCount := by
  rw [spaceSlots, List.mem_toFinset, mem_flatMap]
  exact ⟨x.arena, mem_range.mpr h.arena_lt,
    mem_map.mpr ⟨(x.cls, x.idx), mem_magSlots.mpr ⟨h.cls_lt, h.idx_lt⟩, rfl⟩⟩

section Accounts

variable {s s' : MagConfig}

theorem enrolledBytes_congr (h : ∀ x, SlotEnrolled s' x ↔ SlotEnrolled s x)
    (hn : s'.mem.cpuCount = s.mem.cpuCount) : enrolledBytes s' = enrolledBytes s := by
  rw [enrolledBytes, enrolledBytes, hn]
  refine Finset.sum_congr rfl fun x _ => ?_
  rw [propext (h x)]

/-- One more slot is enrolled. -/
theorem enrolledBytes_add (hn : s'.mem.cpuCount = s.mem.cpuCount)
    (hx : x ∈ spaceSlots s.mem.cpuCount) (h₀ : ¬ SlotEnrolled s x) (h₁ : SlotEnrolled s' x)
    (h : ∀ y, y ≠ x → (SlotEnrolled s' y ↔ SlotEnrolled s y)) :
    enrolledBytes s' = enrolledBytes s + magSize x.cls := by
  classical
  rw [enrolledBytes, enrolledBytes, hn, ← Finset.add_sum_erase _ _ hx,
    ← Finset.add_sum_erase _ _ hx]
  have hrest : ∀ y ∈ (spaceSlots s.mem.cpuCount).erase x,
      (if SlotEnrolled s' y then magSize y.cls else 0) =
        if SlotEnrolled s y then magSize y.cls else 0 := fun y hy => by
    rw [propext (h y (Finset.ne_of_mem_erase hy))]
  rw [Finset.sum_congr rfl hrest, if_pos h₁, if_neg h₀]
  omega

/-- A CPU that has charged bytes for a slot fills it. -/
theorem MagPc.fills_of_charged (h : c.charged p = some x) : c.fills p = some x := by
  cases c with
  | enrollType | enrollToken => exact h
  | _ => cases h

/-- A CPU that has returned the bytes of a slot has claimed it. -/
theorem MagPc.owns_of_returned (h : c.returned = some x) : c.owns = some x := by
  cases c with
  | releaseArena | releaseToken => exact h
  | _ => cases h

variable {pc : ℕ → MagPc} {q : ℕ}

theorem charged_update (h : (update pc p c' q).charged q = some x) :
    c'.charged p = some x ∨ q ≠ p ∧ (pc q).charged q = some x := by
  by_cases hq : q = p
  · subst hq
    rw [update_self] at h
    exact .inl h
  · rw [update_of_ne hq] at h
    exact .inr ⟨hq, h⟩

theorem returned_update (h : (update pc p c' q).returned = some x) :
    c'.returned = some x ∨ q ≠ p ∧ (pc q).returned = some x := by
  by_cases hq : q = p
  · subst hq
    rw [update_self] at h
    exact .inl h
  · rw [update_of_ne hq] at h
    exact .inr ⟨hq, h⟩

/-- A slot stays as it is, enrolled or not, if neither its token becomes or ceases to be zero nor
the CPU that moves changes its account of it. -/
theorem slotEnrolled_iff_of_same (hz : m'.token x = 0 ↔ m.token x = 0)
    (hc : c'.charged p = some x ↔ (pc p).charged p = some x)
    (hr : c'.returned = some x ↔ (pc p).returned = some x) :
    SlotEnrolled ⟨m', update pc p c'⟩ x ↔ SlotEnrolled ⟨m, pc⟩ x := by
  have hch : ∀ q, (update pc p c' q).charged q = some x ↔ (pc q).charged q = some x := by
    intro q
    by_cases hq : q = p
    · subst hq
      rw [update_self]
      exact hc
    · rw [update_of_ne hq]
  have hre : ∀ q, (update pc p c' q).returned = some x ↔ (pc q).returned = some x := by
    intro q
    by_cases hq : q = p
    · subst hq
      rw [update_self]
      exact hr
    · rw [update_of_ne hq]
  simp only [SlotEnrolled, hch, hre, hz, ne_eq]

/-- The byte counter is the summed length of the enrolled segments, within the limit. -/
structure MagCharged (s : MagConfig) : Prop where
  bytes : s.mem.bytes = enrolledBytes s
  le : s.mem.bytes ≤ magByteLimit

theorem magRoom_eq (h : b ≤ magByteLimit) : magRoom b = magByteLimit - b := by
  have : magByteLimit < 2 ^ 64 := by decide
  rw [magRoom]
  omega

variable (H : magOutline.Holds ⟨m, pc⟩) {rest : Option (List SlotId)} {e : Enrolling} {i : ℕ}

include H

theorem known_at (hc : pc p = c) : PcOk p m c := hc ▸ (H.known p).pc

theorem token_of_charged (h : (pc q).charged q = some x) : m.token x = 0 ∧ x.arena = q :=
  (H.known q).pc.token_of_fills (MagPc.fills_of_charged h)

theorem token_of_returned (h : (pc q).returned = some x) : m.token x ≠ 0 := by
  obtain ⟨a, ha⟩ := (H.known q).pc.tok_of_owns (MagPc.owns_of_returned h)
  exact ha.ne_zero

/-- The store of the token of a charged slot: the slot stays enrolled. -/
theorem enrolled_enrollToken (hc : pc p = .enrollToken e i) (y : SlotId) :
    SlotEnrolled ⟨m.setToken ⟨p, e.cls, i⟩ (tokenMake e.seg e.state),
      update pc p (.refill e.ret e.cls e.left)⟩ y ↔ SlotEnrolled ⟨m, pc⟩ y := by
  have hcharged : (pc p).charged p = some ⟨p, e.cls, i⟩ := by rw [hc]; rfl
  by_cases hy : y = ⟨p, e.cls, i⟩
  · subst hy
    refine ⟨fun _ => .inr ⟨p, hcharged⟩, fun _ => .inl ⟨?_, fun q hq => ?_⟩⟩
    · exact (Tok.setToken_self (known_at H hc).2.2.1).ne_zero
    · rcases returned_update hq with h | ⟨-, h⟩
      · cases h
      · exact token_of_returned H h (token_of_charged H hcharged).1
  · refine slotEnrolled_iff_of_same ?_ ⟨nofun, fun h => ?_⟩ ⟨nofun, fun h => ?_⟩
    · rw [token, setToken_slot_of_ne hy, token]
    · exact absurd (some.inj (h.symm.trans hcharged)) hy
    · rw [hc] at h
      cases h

/-- The last store of a release: the slot was not enrolled any more. -/
theorem enrolled_releaseToken (hc : pc p = .releaseToken x rest) (y : SlotId) :
    SlotEnrolled ⟨m.setToken x 0, update pc p (afterRelease x rest)⟩ y ↔
      SlotEnrolled ⟨m, pc⟩ y := by
  have hret : (pc p).returned = some x := by rw [hc]; rfl
  have hnone : ∀ q, (pc q).charged q ≠ some x := fun q hq =>
    token_of_returned H hret (token_of_charged H hq).1
  have hafter : (afterRelease x rest).charged p = none := by cases rest <;> rfl
  by_cases hy : y = x
  · subst hy
    refine iff_of_false ?_ ?_
    · rintro (⟨h, -⟩ | ⟨q, hq⟩)
      · exact h setToken_token_self
      rcases charged_update hq with h | ⟨-, h⟩
      · rw [hafter] at h
        cases h
      · exact hnone q h
    · rintro (⟨-, h⟩ | ⟨q, hq⟩)
      · exact h p hret
      · exact hnone q hq
  · refine slotEnrolled_iff_of_same ?_ ?_ ?_
    · rw [token, setToken_slot_of_ne hy, token]
    · rw [hafter, hc]
      simp [MagPc.charged]
    · have hafter' : (afterRelease x rest).returned = none := by cases rest <;> rfl
      rw [hafter', hret]
      simp [Ne.symm hy]

/-- The compare and swap of the byte counter enrolls the chosen slot. -/
theorem enrolledBytes_charge {b : ℕ} (n : ℕ) (hc : pc p = .enrollBytes e i b)
    (hn : p < m.cpuCount) :
    enrolledBytes ⟨{ m with bytes := n }, update pc p (.enrollType e i)⟩ =
      enrolledBytes ⟨m, pc⟩ + magSize e.cls := by
  obtain ⟨hok, -, -, hi, hz⟩ := known_at H hc
  have hvalid : SlotId.Valid m ⟨p, e.cls, i⟩ := ⟨hn, hok.cls_lt, hi⟩
  have hself : (update pc p (.enrollType e i) p).charged p = some ⟨p, e.cls, i⟩ := by
    rw [update_self]
    rfl
  refine enrolledBytes_add (x := ⟨p, e.cls, i⟩) rfl hvalid.mem_spaceSlots ?_ (.inr ⟨p, hself⟩)
    fun y hy => ?_
  · rintro (⟨h, -⟩ | ⟨q, hq⟩)
    · exact h hz
    obtain rfl : p = q := (token_of_charged H hq).2
    have hq' : (pc p).charged p = some ⟨p, e.cls, i⟩ := hq
    rw [hc] at hq'
    cases hq'
  · refine slotEnrolled_iff_of_same Iff.rfl ⟨fun h => ?_, fun h => ?_⟩ ?_
    · exact absurd (some.inj h).symm hy
    · rw [hc] at h
      cases h
    · rw [hc]
      rfl

/-- The subtraction of the bytes ends the enrollment of the claimed slot. -/
theorem enrolledBytes_giveBack (n : ℕ) (hc : pc p = .releaseBytes x a rest) :
    enrolledBytes ⟨m, pc⟩ =
      enrolledBytes ⟨{ m with bytes := n }, update pc p (.releaseArena x a rest)⟩ +
        magSize x.cls := by
  have howns : (pc p).owns = some x := by rw [hc]; rfl
  obtain ⟨ht, ty, hl⟩ := known_at H hc
  have hself : (update pc p (.releaseArena x a rest) p).returned = some x := by
    rw [update_self]
    rfl
  refine enrolledBytes_add (x := x) rfl hl.valid.mem_spaceSlots ?_
    (.inl ⟨ht.ne_zero, fun q hq => ?_⟩) fun y hy => ?_
  · rintro (⟨-, h⟩ | ⟨q, hq⟩)
    · exact h p hself
    · rcases charged_update hq with h | ⟨-, h⟩
      · cases h
      · exact ht.ne_zero (token_of_charged H h).1
  · by_cases hqp : q = p
    · subst hqp
      have hq' : (pc q).returned = some x := hq
      rw [hc] at hq'
      cases hq'
    · exact (H.apart p q (Ne.symm hqp)).owns x howns (MagPc.owns_of_returned hq)
  · refine (slotEnrolled_iff_of_same Iff.rfl ?_ ⟨fun h => ?_, fun h => ?_⟩).symm
    · rw [hc]
      rfl
    · exact absurd (some.inj h).symm hy
    · rw [hc] at h
      cases h

/-- One step keeps the accounts. -/
theorem MagCharged.act (hcharged : MagCharged ⟨m, pc⟩) (h : magAct p m (pc p) m' c') :
    MagCharged ⟨m', update pc p c'⟩ := by
  obtain ⟨hn, h⟩ := h
  obtain ⟨hbytes, hle⟩ := hcharged
  have hs : MagShared m := H.shared
  have hk : MagKnown p m (pc p) := H.known p
  have hcount := (h.ok hn hs hk).effect.cpuCount
  have hlimit : magByteLimit < 2 ^ 64 := by decide
  cases h.tokenStep hs hk with
  | keep ht hb hc hr =>
    refine ⟨?_, hb ▸ hle⟩
    rw [hb, hbytes]
    exact (enrolledBytes_congr (fun x =>
      slotEnrolled_iff_of_same (by rw [ht x]) (by rw [hc]) (by rw [hr])) hcount).symm
  | move x a st st' htok htok' _ ht hb hc hr =>
    refine ⟨?_, hb ▸ hle⟩
    rw [hb, hbytes]
    refine (enrolledBytes_congr (fun y =>
      slotEnrolled_iff_of_same ?_ (by rw [hc]) (by rw [hr])) hcount).symm
    by_cases hy : y = x
    · subst hy
      exact iff_of_false htok'.ne_zero htok.ne_zero
    · rw [ht y hy]
  | enroll e i hc hm hc' =>
    subst hm hc'
    exact ⟨hbytes.trans (enrolledBytes_congr (enrolled_enrollToken H hc) rfl).symm, hle⟩
  | release x rest hc hm hc' =>
    subst hm hc'
    exact ⟨hbytes.trans (enrolledBytes_congr (enrolled_releaseToken H hc) rfl).symm, hle⟩
  | charge e i g hc hg hroom hm hc' =>
    subst hm hc'
    have hlen : g.length = magSize e.cls := by
      have hu := (known_at H hc).2.1
      rw [Unlinked, hg, some.injEq] at hu
      rw [hu]
    have hle' : m.bytes ≤ magByteLimit := hle
    have hbytes' : m.bytes = enrolledBytes ⟨m, pc⟩ := hbytes
    rw [magRoom_eq hle'] at hroom
    have hsum : (m.bytes + g.length) % 2 ^ 64 = m.bytes + g.length := by omega
    rw [hsum]
    refine ⟨?_, ?_⟩
    · rw [enrolledBytes_charge H (m.bytes + g.length) hc hn, ← hbytes', hlen]
    · change m.bytes + g.length ≤ magByteLimit
      omega
  | giveBack x b g rest hc hg hm hc' =>
    subst hm hc'
    obtain ⟨-, ty, hl⟩ := known_at H hc
    have hlen : g.length = magSize x.cls := by
      have hseg := hl.seg
      rw [hg, some.injEq] at hseg
      rw [hseg]
    have hbytes' : m.bytes = enrolledBytes ⟨m, pc⟩ := hbytes
    have hgive := enrolledBytes_giveBack H (m.bytes - g.length) hc
    have hsum : (m.bytes + 2 ^ 64 - g.length) % 2 ^ 64 = m.bytes - g.length := by omega
    rw [hsum]
    refine ⟨?_, ?_⟩
    · change m.bytes - g.length = _
      omega
    · change m.bytes - g.length ≤ magByteLimit
      omega

end Accounts

/-! ### Every run -/

/-- What holds of the magazines between any two steps. -/
structure MagSound (s : MagConfig) : Prop where
  /-- No address is held twice. -/
  held_once : (s.mem.held.map Prod.fst).Nodup
  /-- The address of a slot that is live or cached is that of a segment which names the slot and
  has the length of its class. -/
  published : ∀ x a st, st ≠ .claimed → Tok s.mem x a st →
    ∃ g, s.mem.seg a = some g ∧ g.magSlot = some x ∧ g.length = magSize x.cls
  /-- A segment whose slot is live or cached is of type `VAS_SEG_BUSY` exactly if it is live. -/
  typed : ∀ a g x b st, s.mem.seg a = some g → g.magSlot = some x → st ≠ .claimed →
    Tok s.mem x b st → b = a ∧ (g.type = .busy ↔ st = .live)
  /-- The address of a cached slot is held by nobody. -/
  cached_unheld : ∀ x a, Tok s.mem x a .cached → a ∉ s.mem.held.map Prod.fst
  /-- The counter is the summed length of the enrolled segments. -/
  bytes_eq : s.mem.bytes = enrolledBytes s
  bytes_le : s.mem.bytes ≤ magByteLimit
  /-- `vas_free` does not panic. -/
  no_panic : ∀ p, s.pc p ≠ .badFree
  /-- Tokens move along the edges of the protocol. -/
  moves : ∀ s', MagSysStep s s' → ∀ x, s'.mem.token x = s.mem.token x ∨
    TokenMove (s.mem.token x) (s'.mem.token x)

theorem magInit_holds (n : ℕ) : magOutline.Holds (magInit n) where
  shared := ⟨fun _ => .empty rfl, nofun, nodup_nil, nofun, nofun⟩
  known _ := ⟨trivial, fun _ _ _ _ => rfl, nofun, nofun⟩
  apart _ _ _ := ⟨nofun, nofun⟩

theorem magInit_charged (n : ℕ) : MagCharged (magInit n) where
  bytes := by
    refine (Finset.sum_eq_zero fun x _ => if_neg ?_).symm
    rintro (⟨h, -⟩ | ⟨p, hp⟩)
    · exact h rfl
    · cases hp
  le := Nat.zero_le _

theorem magRun_charged {n : ℕ} (hr : ReflTransGen MagSysStep (magInit n) s) : MagCharged s := by
  induction hr with
  | refl => exact magInit_charged n
  | tail hr hs ih =>
    have H := (magInit_holds n).run hr
    obtain ⟨p, hp⟩ := hs
    exact MagCharged.act H ih hp

/-- Along every interleaving of the atomic steps of any number of CPUs, from the creation of the
space on, where clients free only what they hold, the magazines are sound. -/
theorem magRun_sound {n : ℕ} {s : MagConfig}
    (hr : ReflTransGen MagSysStep (magInit n) s) : MagSound s := by
  have H := (magInit_holds n).run hr
  have hshared : MagShared s.mem := H.shared
  have hcharged := magRun_charged hr
  refine ⟨hshared.nodup, fun x a st hst ht => ⟨_, (hshared.linked ht hst).seg, rfl, rfl⟩,
    fun a g x b st hg hx hst ht => ?_, fun x a ht hm => ?_, hcharged.bytes, hcharged.le,
    fun p hp => ?_, fun s' hs x => ?_⟩
  · have hl := hshared.linked ht hst
    obtain rfl : b = a := some.inj (hl.segment.symm.trans (hshared.named a g x hg hx))
    rw [hl.seg, some.injEq] at hg
    subst hg
    cases st with
    | live | cached => simp [MagState.segmentType]
    | claimed => exact absurd rfl hst
  · obtain ⟨z, hz, rfl⟩ := mem_map.mp hm
    exact hshared.uncached z hz x ht
  · have hpc := (H.known p).pc
    rw [hp] at hpc
    exact hpc
  · obtain ⟨p, hp⟩ := hs
    exact hp.2.tokenMove H.shared (H.known p) x

private theorem soloStep {m m' : MagMem} {c c' : MagPc}
    (hr : ReflTransGen MagSysStep s ⟨m, update (fun _ => .idle) 0 c⟩) (hn : 0 < m.cpuCount)
    (h : MagStep 0 m c m' c') : ReflTransGen MagSysStep s ⟨m', update (fun _ => .idle) 0 c'⟩ :=
  hr.tail (Step.of_act ⟨hn, h⟩)

/-- CPU 0 allocates a page through its arena, enrolls it and returns it to a client. -/
theorem magRun_sound_page : ∃ s, ReflTransGen MagSysStep (magInit 1) s ∧
    Tok s.mem ⟨0, 0, 0⟩ pageSize .live ∧ s.mem.held = [(pageSize, pageSize)] ∧ MagSound s := by
  have h₀ : ReflTransGen MagSysStep (magInit 1)
      ⟨(magInit 1).mem, update (fun _ => .idle) 0 .idle⟩ := by
    rw [update_eq_self]
    exact .refl
  have hcls : magClass pageSize < magClasses := by decide
  let e : Enrolling := ⟨pageSize, pageSize, 0, .live, 3⟩
  have h₁ := soloStep h₀ (by decide) (.callAllocSlow pageSize)
  have h₂ := soloStep h₁ (by decide) (.slowLock rfl)
  have h₃ := soloStep h₂ (by decide) (.slowEnroll (a := pageSize) rfl hcls)
  have h₄ := soloStep (c := .enrollScan e (List.range 16)) h₃ (by decide) (.enrollPick rfl)
  have h₅ := soloStep h₄ (by decide) .enrollLoad
  have h₆ := soloStep h₅ (by decide) (.enrollWin rfl (by decide) rfl)
  have h₇ := soloStep h₆ (by decide) (.enrollType rfl)
  have h₈ := soloStep h₇ (by decide) .enrollToken
  have h₉ := soloStep h₈ (by decide) .refillDone
  have h₁₀ := soloStep h₉ (by decide) .slowReturn
  exact ⟨_, h₁₀, ⟨dvd_refl _, rfl⟩, rfl, magRun_sound h₁₀⟩

end Charmos.Vas
