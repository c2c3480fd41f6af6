import Charmos.Mem.Vas.ProtocolSpec

/-!
# The steps of the magazine protocol

`MagEffect` says once what a step may write, and no step interferes with another CPU because of
it. What the CPU that moves knows afterwards is shown step by step, by the kind of write: a token
is claimed, published or cleared, or a segment is typed, given out or released. Together they make
the proof outline `magOutline`.
-/

namespace Charmos.Vas

open Enrolling List MagMem Option Prod

variable {m m' : MagMem} {x y : SlotId} {a b size p q t : ℕ} {c c' e : MagPc} {st st' : MagState}
  {ty : SegmentType} {rest : Option (List SlotId)}

/-! ### What a step may write -/

/-- What one step of CPU `p` may do to slots, segments, the ledger and its own place. -/
structure MagEffect (p : ℕ) (m : MagMem) (c : MagPc) (m' : MagMem) (c' : MagPc) : Prop where
  cpuCount : m'.cpuCount = m.cpuCount
  slot : ∀ x, m'.slot x ≠ m.slot x → c.owns = some x ∨ c.fills p = some x ∨
    (∃ a, Tok m x a .cached) ∨ ∃ a ∈ c.hand, Tok m x a .live
  empty : ∀ x, m'.token x = 0 → m'.slot x = m.slot x ∨ (m'.slot x).segment = none ∨
    c.fills p = some x
  seg : ∀ a, m'.seg a ≠ m.seg a → a ∈ c.hand ∨ m.seg a = none
  held : ∀ z ∈ m'.held, z ∈ m.held ∨ z.1 ∈ c.hand
  cached : ∀ x a, Tok m' x a .cached → Tok m x a .cached ∨ a ∈ c.hand
  owns : ∀ x, c'.owns = some x → c.owns = some x ∨ ∃ a, Tok m x a .live ∨ Tok m x a .cached
  hand : ∀ a ∈ c'.hand, a ∈ c.hand ∨ a ∈ m.held.map fst ∨ m.seg a = none ∨
    ∃ x, Tok m x a .cached

theorem PcOk.tok_of_owns (h : PcOk p m c) (hx : c.owns = some x) : ∃ a, Tok m x a .claimed := by
  cases c with
  | allocType y a | freeType y a | freeToken y a | releaseBytes y a | releaseArena y a =>
    cases hx
    exact ⟨_, h.1⟩
  | allocToken y a b =>
    cases hx
    exact ⟨_, h.2.1⟩
  | releaseToken y =>
    cases hx
    exact h.2
  | _ => cases hx

theorem PcOk.token_of_fills (h : PcOk p m c) (hx : c.fills p = some x) :
    m.token x = 0 ∧ x.arena = p := by
  cases c with
  | enrollLoad e i | enrollBytes e i | enrollType e i =>
    cases hx
    exact ⟨h.2.2.2.2, rfl⟩
  | enrollToken e i =>
    cases hx
    exact ⟨h.2.2.2, rfl⟩
  | _ => cases hx

namespace MagEffect

variable (h : MagEffect p m c m' c') (hp : MagKnown p m c) (hq : MagKnown q m e) (hpq : p ≠ q)
  (hce : MagApart c e)

include h hp hq hpq hce

/-- A step leaves the slots alone that another CPU counts on. -/
theorem slot_eq (hx : e.owns = some x ∨ e.fills q = some x ∨ ∃ a ∈ e.hand, Tok m x a .live) :
    m'.slot x = m.slot x := by
  by_contra hne
  rcases h.slot x hne with hc | hc | ⟨b, hc⟩ | ⟨b, hb, hc⟩
  · obtain ⟨b, hb⟩ := hp.pc.tok_of_owns hc
    rcases hx with hx | hx | ⟨a, -, hx⟩
    · exact hce.owns x hc hx
    · exact hb.ne_zero (hq.pc.token_of_fills hx).1
    · cases (hb.inj hx).2
  · obtain ⟨hz, ha⟩ := hp.pc.token_of_fills hc
    rcases hx with hx | hx | ⟨a, -, hx⟩
    · obtain ⟨b, hb⟩ := hq.pc.tok_of_owns hx
      exact hb.ne_zero hz
    · exact hpq (ha.symm.trans (hq.pc.token_of_fills hx).2)
    · exact hx.ne_zero hz
  · rcases hx with hx | hx | ⟨a, -, hx⟩
    · obtain ⟨a, ha⟩ := hq.pc.tok_of_owns hx
      cases (ha.inj hc).2
    · exact hc.ne_zero (hq.pc.token_of_fills hx).1
    · cases (hc.inj hx).2
  · rcases hx with hx | hx | ⟨a, ha, hx⟩
    · obtain ⟨a, ha⟩ := hq.pc.tok_of_owns hx
      cases (ha.inj hc).2
    · exact hc.ne_zero (hq.pc.token_of_fills hx).1
    · exact hce.hand b hb ((hc.inj hx).1 ▸ ha)

/-- A CPU keeps what it knows through the steps of the others. -/
theorem known : MagKnown q m' e where
  pc := by
    refine hq.pc.frame h.cpuCount (fun x hx => ?_) (fun x hx => ?_) (fun a ha x hx => ?_)
      fun a ha => ?_
    · exact h.slot_eq hp hq hpq hce (.inl hx)
    · exact h.slot_eq hp hq hpq hce (.inr (.inl hx))
    · exact h.slot_eq hp hq hpq hce (.inr (.inr ⟨a, ha, hx⟩))
    by_contra hne
    rcases h.seg a hne with hc | hc
    · exact hce.hand a hc ha
    · exact hq.pc.seg_ne_none ha hc
  empty x hx hz hl := by
    rcases h.empty x hz with hs | hs | hs
    · rw [token, hs] at hz
      exact (congrArg MagSlot.segment hs).trans (hq.empty x hx hz hl)
    · exact hs
    · exact absurd ((hp.pc.token_of_fills hs).2.symm.trans hx) hpq
  unheld a ha hm := by
    obtain ⟨z, hz, rfl⟩ := mem_map.mp hm
    rcases h.held z hz with hc | hc
    · exact hq.unheld _ ha (mem_map_of_mem hc)
    · exact hce.hand _ hc ha
  uncached a ha x hx := by
    rcases h.cached x a hx with hc | hc
    · exact hq.uncached a ha x hc
    · exact hce.hand a hc ha

omit hp hpq in
/-- The CPU that moves takes no slot and no address that another one has. -/
theorem apart : MagApart c' e where
  owns x hx he := by
    obtain ⟨b, hb⟩ := hq.pc.tok_of_owns he
    rcases h.owns x hx with hc | ⟨a, hc | hc⟩
    · exact hce.owns x hc he
    · cases (hb.inj hc).2
    · cases (hb.inj hc).2
  hand a ha he := by
    rcases h.hand a ha with hc | hc | hc | ⟨x, hc⟩
    · exact hce.hand a hc he
    · exact hq.unheld a he hc
    · exact hq.pc.seg_ne_none he hc
    · exact hq.uncached a he x hc

end MagEffect

/-! ### The memory after a write -/

section Memory

@[simp] theorem setToken_token_self : (m.setToken x t).token x = t := by
  simp [token, setToken]

@[simp] theorem setToken_slot_of_ne (h : y ≠ x) : (m.setToken x t).slot y = m.slot y := by
  simp [setToken, h]

@[simp] theorem setToken_segment : ((m.setToken x t).slot y).segment = (m.slot y).segment := by
  by_cases h : y = x
  · subst h
    simp [setToken]
  · rw [setToken_slot_of_ne h]

variable {s : Option ℕ}

@[simp] theorem setSegment_token : (m.setSegment x s).token y = m.token y := by
  by_cases h : y = x
  · subst h
    simp [token, setSegment]
  · simp [token, setSegment, h]

@[simp] theorem setSegment_slot_of_ne (h : y ≠ x) : (m.setSegment x s).slot y = m.slot y := by
  simp [setSegment, h]

@[simp] theorem setSegment_segment_self : ((m.setSegment x s).slot x).segment = s := by
  simp [setSegment]

variable {g : Option SegState}

@[simp] theorem setSeg_seg_self : (m.setSeg a g).seg a = g := by
  simp [setSeg]

@[simp] theorem setSeg_seg_of_ne (h : b ≠ a) : (m.setSeg a g).seg b = m.seg b := by
  simp [setSeg, h]

theorem eq_of_setToken_slot_ne (h : (m.setToken x t).slot y ≠ m.slot y) : y = x := by
  by_contra hne
  exact h (setToken_slot_of_ne hne)

theorem eq_of_setSeg_seg_ne (h : (m.setSeg a g).seg b ≠ m.seg b) : b = a := by
  by_contra hne
  exact h (setSeg_seg_of_ne hne)

/-- An empty slot after the store of a token was empty before or was emptied. -/
theorem setToken_empty (ht : t = 0 → (m.slot x).segment = none)
    (hz : (m.setToken x t).token y = 0) :
    (m.setToken x t).slot y = m.slot y ∨ ((m.setToken x t).slot y).segment = none := by
  by_cases hy : y = x
  · subst hy
    exact .inr (setToken_segment.trans (ht (setToken_token_self.symm.trans hz)))
  · exact .inl (setToken_slot_of_ne hy)

theorem Tok.setToken_of_ne (h : y ≠ x) : Tok (m.setToken x t) y a st ↔ Tok m y a st :=
  ⟨fun hy => hy.frame (setToken_slot_of_ne h).symm, fun hy => hy.frame (setToken_slot_of_ne h)⟩

theorem Tok.setToken_self (h : pageSize ∣ a) : Tok (m.setToken x (tokenMake a st)) x a st :=
  ⟨h, setToken_token_self⟩

theorem Tok.setSegment_iff : Tok (m.setSegment x s) y a st ↔ Tok m y a st :=
  ⟨fun hy => ⟨hy.page, setSegment_token.symm.trans hy.eq⟩,
    fun hy => ⟨hy.page, setSegment_token.trans hy.eq⟩⟩

theorem Linked.setToken (h : Linked m y a ty) : Linked (m.setToken x t) y a ty :=
  h.frame rfl setToken_segment rfl

/-- A slot is as before if its token is, and if it is published its pointer and its segment are. -/
theorem SlotOk.frame (h : SlotOk m x) (hn : m'.cpuCount = m.cpuCount)
    (ht : m'.token x = m.token x) (hl : ∀ a st, Tok m x a st → st ≠ .claimed →
      (m'.slot x).segment = (m.slot x).segment ∧ m'.seg a = m.seg a) : SlotOk m' x := by
  have htok : ∀ {a st}, Tok m x a st → Tok m' x a st := fun hx => ⟨hx.page, ht.trans hx.eq⟩
  cases h with
  | empty hz => exact .empty (ht.trans hz)
  | live a hx hlink =>
    obtain ⟨hs, hg⟩ := hl a _ hx (by decide)
    exact .live a (htok hx) (hlink.frame hn hs hg)
  | cached a hx hlink =>
    obtain ⟨hs, hg⟩ := hl a _ hx (by decide)
    exact .cached a (htok hx) (hlink.frame hn hs hg)
  | claimed a hx => exact .claimed a (htok hx)

/-- The CPU changes the pointer of a slot that it has claimed or chosen and the segment of an
address in its hand. -/
theorem MagEffect.relink (hx : c.owns = some x ∨ c.fills p = some x)
    (hs : s = none ∨ c.fills p = some x) (hb : b ∈ c.hand)
    (howns : ∀ y, c'.owns = some y → c.owns = some y) (hhand : ∀ a ∈ c'.hand, a ∈ c.hand) :
    MagEffect p m c ((m.setSegment x s).setSeg b g) c' where
  cpuCount := rfl
  slot y hy := by
    by_cases hyx : y = x
    · exact hyx ▸ hx.imp_right .inl
    · exact absurd (setSegment_slot_of_ne hyx) hy
  empty y _ := by
    by_cases hyx : y = x
    · subst hyx
      exact .inr (hs.imp_left fun hs => setSegment_segment_self.trans hs)
    · exact .inl (setSegment_slot_of_ne hyx)
  seg d hd := .inl ((eq_of_setSeg_seg_ne hd : d = b) ▸ hb)
  held _ h := .inl h
  cached y d hy := .inl (Tok.setSegment_iff.mp (hy.frame rfl))
  owns y hy := .inl (howns y hy)
  hand d hd := .inl (hhand d hd)

end Memory

namespace MagShared

variable (h : MagShared m)

include h

/-- A published slot is linked with a segment of the type that goes with its state. -/
theorem linked (ht : Tok m x a st) (hst : st ≠ .claimed) : Linked m x a st.segmentType := by
  cases h.slots x with
  | empty hz => exact absurd hz ht.ne_zero
  | live b hb hl | cached b hb hl =>
    obtain ⟨rfl, rfl⟩ := ht.inj hb
    exact hl
  | claimed b hb => exact absurd (ht.inj hb).2 hst

/-- The slot of a published address is the one that its segment names. -/
theorem slot_unique (hl : Linked m x a ty) (ht : Tok m y a st) (hst : st ≠ .claimed) : y = x := by
  have hy := (h.linked ht hst).seg
  rw [hl.seg] at hy
  simp only [some.injEq, SegState.mk.injEq] at hy
  exact hy.2.2.2.symm

/-- No slot is published for the address of a segment that is not enrolled. -/
theorem unpublished {g : SegState} (hg : m.seg a = some g) (hs : g.magSlot = none)
    (hst : st ≠ .claimed) : ¬ Tok m y a st := by
  intro ht
  have hy := (h.linked ht hst).seg
  rw [hg, some.injEq] at hy
  rw [hy] at hs
  cases hs

theorem unpublished_of_none (hg : m.seg a = none) (hst : st ≠ .claimed) : ¬ Tok m y a st := by
  intro ht
  have hy := (h.linked ht hst).seg
  rw [hg] at hy
  cases hy

/-- No slot is published for the address of a claimed one. -/
theorem unpublished_of_claimed (hl : Linked m x a ty) (hc : Tok m x a .claimed)
    (hst : st ≠ .claimed) : ¬ Tok m y a st := by
  intro ht
  have hyx := h.slot_unique hl ht hst
  subst hyx
  exact hst (ht.inj hc).2

/-- An address that clients hold is that of a segment in use. -/
theorem notMem_held (hg : m.seg a = none) : a ∉ m.held.map fst := by
  intro ha
  obtain ⟨z, hz, rfl⟩ := mem_map.mp ha
  obtain ⟨g, hseg, -⟩ := h.held z hz
  rw [hg] at hseg
  cases hseg

/-- The store of a token. -/
theorem setToken (hx : SlotOk (m.setToken x t) x)
    (hlive : ∀ a ∈ m.held.map fst, ¬ Tok m x a .live)
    (hcached : ∀ a ∈ m.held.map fst, ¬ Tok (m.setToken x t) x a .cached) :
    MagShared (m.setToken x t) where
  slots y := by
    by_cases hy : y = x
    · exact hy ▸ hx
    · exact (h.slots y).frame rfl (congrArg MagSlot.token (setToken_slot_of_ne hy))
        fun _ _ _ _ => ⟨setToken_segment, rfl⟩
  named b g y hb hy := setToken_segment.trans (h.named b g y hb hy)
  nodup := h.nodup
  held z hz := by
    refine (h.held z hz).frame rfl (fun y hy => setToken_slot_of_ne ?_) rfl
    rintro rfl
    exact hlive _ (mem_map_of_mem hz) hy
  uncached z hz y hy := by
    by_cases hyx : y = x
    · subst hyx
      exact hcached _ (mem_map_of_mem hz) hy
    · exact h.uncached z hz y ((Tok.setToken_of_ne hyx).mp hy)

/-- A segment changes that no client holds and no slot is published for. -/
theorem setSeg {g : Option SegState} (hpub : ∀ y st, st ≠ .claimed → ¬ Tok m y a st)
    (hheld : a ∉ m.held.map fst)
    (hnamed : ∀ g' x, g = some g' → g'.magSlot = some x → (m.slot x).segment = some a) :
    MagShared (m.setSeg a g) where
  slots y := (h.slots y).frame rfl rfl fun b st hb hst =>
    ⟨rfl, setSeg_seg_of_ne fun he => hpub y st hst (he ▸ hb)⟩
  named b g' x hb hx := by
    by_cases hba : b = a
    · subst hba
      exact hnamed g' x (setSeg_seg_self.symm.trans hb) hx
    · exact h.named b g' x ((setSeg_seg_of_ne hba).symm.trans hb) hx
  nodup := h.nodup
  held z hz := by
    have hne : z.1 ≠ a := fun he => hheld (he ▸ mem_map_of_mem hz)
    exact (h.held z hz).frame rfl (fun _ _ => rfl) (setSeg_seg_of_ne hne)
  uncached z hz y hy := h.uncached z hz y (hy.frame rfl)

/-- The pointer of a slot changes that is not published and that no segment names. -/
theorem setSegment {s : Option ℕ} (hpub : ∀ a st, st ≠ .claimed → ¬ Tok m x a st)
    (hnamed : ∀ a g, m.seg a = some g → g.magSlot ≠ some x) : MagShared (m.setSegment x s) where
  slots y := (h.slots y).frame rfl setSegment_token fun b st hb hst =>
    ⟨congrArg MagSlot.segment (setSegment_slot_of_ne fun he => hpub b st hst (he ▸ hb)), rfl⟩
  named b g y hb hy := by
    have hne : y ≠ x := fun he => hnamed b g hb (he ▸ hy)
    exact (congrArg MagSlot.segment (setSegment_slot_of_ne hne)).trans (h.named b g y hb hy)
  nodup := h.nodup
  held z hz := by
    refine (h.held z hz).frame rfl (fun y hy => setSegment_slot_of_ne ?_) rfl
    rintro rfl
    exact hpub _ _ (by decide) hy
  uncached z hz y hy := h.uncached z hz y (Tok.setSegment_iff.mp hy)

/-- A client receives an address. -/
theorem hold (hl : LiveSeg m a size) (hnew : a ∉ m.held.map fst)
    (hc : ∀ x, ¬ Tok m x a .cached) : MagShared { m with held := (a, size) :: m.held } where
  slots y := (h.slots y).frame rfl rfl fun _ _ _ _ => ⟨rfl, rfl⟩
  named := h.named
  nodup := nodup_cons.mpr ⟨hnew, h.nodup⟩
  held z hz := by
    rcases mem_cons.mp hz with rfl | hz
    · exact hl.frame rfl (fun _ _ => rfl) rfl
    · exact (h.held z hz).frame rfl (fun _ _ => rfl) rfl
  uncached z hz y hy := by
    rcases mem_cons.mp hz with rfl | hz
    · exact hc y (hy.frame rfl)
    · exact h.uncached z hz y (hy.frame rfl)

/-- Only slots, segments and the ledger matter. -/
theorem congr (hn : m'.cpuCount = m.cpuCount) (hs : m'.slot = m.slot) (hg : m'.seg = m.seg)
    (hh : m'.held.Sublist m.held) : MagShared m' where
  slots y := (h.slots y).frame hn (congrArg MagSlot.token (congrFun hs y))
    fun b _ _ _ => ⟨congrArg MagSlot.segment (congrFun hs y), congrFun hg b⟩
  named b g x hb hx := by
    rw [hs]
    exact h.named b g x (hg ▸ hb) hx
  nodup := h.nodup.sublist (hh.map _)
  held z hz := (h.held z (hh.subset hz)).frame hn (fun y _ => congrFun hs y) (congrFun hg z.1)
  uncached z hz y hy := h.uncached z (hh.subset hz) y (hy.frame (congrFun hs y).symm)

end MagShared

/-! ### One lemma for each kind of write -/

/-- What has to be shown of a step. -/
structure StepOk (p : ℕ) (m : MagMem) (c : MagPc) (m' : MagMem) (c' : MagPc) : Prop where
  effect : MagEffect p m c m' c'
  shared : MagShared m'
  known : MagKnown p m' c'

/-- What a CPU knows of its empty slots after it has stored a token. -/
theorem MagKnown.empty_setToken (hk : MagKnown p m c) (hlinks : ∀ y, c.links p = some y → y = x)
    (ht : t = 0 → (m.slot x).segment = none) (hy : y.arena = p)
    (hz : (m.setToken x t).token y = 0) : ((m.setToken x t).slot y).segment = none := by
  by_cases hyx : y = x
  · subst hyx
    exact setToken_segment.trans (ht (setToken_token_self.symm.trans hz))
  · rw [token, setToken_slot_of_ne hyx] at hz
    exact setToken_segment.trans (hk.empty y hy hz fun h => hyx (hlinks y h))

namespace StepOk

variable (hs : MagShared m) (hk : MagKnown p m c)

include hs hk

section

variable (hlinks : c.links p = none)
include hlinks

/-- The step leaves slots, segments and the ledger as they are. -/
theorem still (hn : m'.cpuCount = m.cpuCount)
    (hslot : m'.slot = m.slot) (hseg : m'.seg = m.seg)
    (hheld : m'.held = m.held) (hpc : PcOk p m c') (howns : ∀ x, c'.owns = some x → c.owns = some x)
    (hhand : ∀ a ∈ c'.hand, a ∈ c.hand) : StepOk p m c m' c' where
  effect := {
    cpuCount := hn
    slot := fun x hx => absurd (congrFun hslot x) hx
    empty := fun x _ => .inl (congrFun hslot x)
    seg := fun a ha => absurd (congrFun hseg a) ha
    held := fun _ hz => .inl (hheld ▸ hz)
    cached := fun x _ hx => .inl (hx.frame (congrFun hslot x).symm)
    owns := fun x hx => .inl (howns x hx)
    hand := fun a ha => .inl (hhand a ha) }
  shared := hs.congr hn hslot hseg (hheld ▸ List.Sublist.refl _)
  known := {
    pc := hpc.frame hn (fun x _ => congrFun hslot x) (fun x _ => congrFun hslot x)
      (fun _ _ x _ => congrFun hslot x) fun a _ => congrFun hseg a
    empty := fun x hx hz _ => by
      rw [token, hslot] at hz
      rw [hslot]
      exact hk.empty x hx hz (by simp [hlinks])
    unheld := fun a ha => hheld ▸ hk.unheld a (hhand a ha)
    uncached := fun a ha x hx => hk.uncached a (hhand a ha) x (hx.frame (congrFun hslot x).symm) }

/-- A step that only moves on in the code. -/
theorem move (hpc : PcOk p m c') (howns : c'.owns = none) (hhand : ∀ a ∈ c'.hand, a ∈ c.hand) :
    StepOk p m c m c' :=
  still hs hk hlinks rfl rfl rfl rfl hpc (fun x hx => by rw [howns] at hx; cases hx) hhand

/-- The claim of a cached slot, or of the live slot of an address in the CPU's hand. -/
theorem claim (ht : Tok m x a st) (hst : st = .cached ∨ st = .live ∧ a ∈ c.hand)
    (htoken : t = m.token x) (howns : c'.owns = some x) (hhand : c'.hand = [a])
    (hpc : ∀ m', Tok m' x a .claimed → Linked m' x a st.segmentType → PcOk p m' c') :
    StepOk p m c (m.claim x t) c' := by
  have hpub : st ≠ .claimed := by
    rintro rfl
    rcases hst with h | ⟨h, -⟩ <;> cases h
  have hl := hs.linked ht hpub
  rw [MagMem.claim, htoken, ht.addr]
  have hnew : Tok (m.setToken x (tokenMake a .claimed)) x a .claimed := Tok.setToken_self ht.page
  have hzero : tokenMake a .claimed = 0 → (m.slot x).segment = none := fun h =>
    absurd h (tokenMake_ne_zero (four_dvd_of_page ht.page) _)
  have hempty : ∀ y, y.arena = p → (m.setToken x (tokenMake a .claimed)).token y = 0 → _ :=
    fun y => hk.empty_setToken (fun y h => by rw [hlinks] at h; cases h) hzero
  have hcached : ∀ {y b}, Tok (m.setToken x (tokenMake a .claimed)) y b .cached →
      y ≠ x ∧ Tok m y b .cached := fun {y b} hy => by
    have hyx : y ≠ x := by
      rintro rfl
      cases (hnew.inj hy).2
    exact ⟨hyx, (Tok.setToken_of_ne hyx).mp hy⟩
  have hunheld : a ∉ m.held.map fst := by
    rcases hst with rfl | ⟨-, ha⟩
    · intro hm
      obtain ⟨z, hz, rfl⟩ := mem_map.mp hm
      exact hs.uncached z hz x ht
    · exact hk.unheld a ha
  refine ⟨⟨rfl, fun y hy => ?_, fun y hy => (setToken_empty hzero hy).imp_right .inl,
      fun _ h => absurd rfl h, fun z hz => .inl hz, fun y b hy => .inl (hcached hy).2,
      fun y hy => ?_, fun b hb => ?_⟩,
    hs.setToken (.claimed a hnew) (fun b hm hb => hunheld ((ht.inj hb).1 ▸ hm))
      (fun b _ hb => (hcached hb).1 rfl),
    ⟨hpc _ hnew hl.setToken, fun y hy hz _ => hempty y hy hz, fun b hb => ?_, fun b hb y hy => ?_⟩⟩
  · obtain rfl := eq_of_setToken_slot_ne hy
    rcases hst with rfl | ⟨rfl, ha⟩
    · exact .inr (.inr (.inl ⟨a, ht⟩))
    · exact .inr (.inr (.inr ⟨a, ha, ht⟩))
  · rw [howns] at hy
    cases hy
    rcases hst with rfl | ⟨rfl, -⟩
    · exact .inr ⟨a, .inr ht⟩
    · exact .inr ⟨a, .inl ht⟩
  · rw [hhand, mem_singleton] at hb
    subst hb
    rcases hst with rfl | ⟨-, ha⟩
    · exact .inr (.inr (.inr ⟨x, ht⟩))
    · exact .inl ha
  · rw [hhand, mem_singleton] at hb
    exact hb ▸ hunheld
  · rw [hhand, mem_singleton] at hb
    subst hb
    exact (hcached hy).1 (hs.slot_unique hl (hcached hy).2 (by decide))

/-- The CPU writes the segment of an address in its hand, for which no slot is published, and
keeps some of what is in its hand. -/
theorem writeSeg {g : Option SegState} (ha : a ∈ c.hand)
    (hpub : ∀ y st, st ≠ .claimed → ¬ Tok m y a st)
    (hnamed : ∀ g' x, g = some g' → g'.magSlot = some x → (m.slot x).segment = some a)
    (hpc : PcOk p (m.setSeg a g) c') (howns : ∀ x, c'.owns = some x → c.owns = some x)
    (hhand : ∀ b ∈ c'.hand, b ∈ c.hand) : StepOk p m c (m.setSeg a g) c' where
  effect := {
    cpuCount := rfl
    slot := fun _ h => absurd rfl h
    empty := fun _ _ => .inl rfl
    seg := fun b hb => .inl (eq_of_setSeg_seg_ne hb ▸ ha)
    held := fun _ hz => .inl hz
    cached := fun _ _ h => .inl (h.frame rfl)
    owns := fun x hx => .inl (howns x hx)
    hand := fun b hb => .inl (hhand b hb) }
  shared := hs.setSeg hpub (hk.unheld a ha) hnamed
  known := ⟨hpc, fun x hx hz _ => hk.empty x hx hz (by rw [hlinks]; nofun),
    fun b hb => hk.unheld b (hhand b hb),
    fun b hb x hx => hk.uncached b (hhand b hb) x (hx.frame rfl)⟩

/-- The CPU changes the type of the segment of a slot that it has claimed. -/
theorem retype {ty' : SegmentType} (ht : Tok m x a .claimed) (hl : Linked m x a ty)
    (ha : a ∈ c.hand) (hpc : ∀ m', Tok m' x a .claimed → Linked m' x a ty' → PcOk p m' c')
    (howns : ∀ x, c'.owns = some x → c.owns = some x) (hhand : ∀ b ∈ c'.hand, b ∈ c.hand) :
    StepOk p m c (m.setSeg a (some ⟨x.arena, magSize x.cls, ty', some x⟩)) c' := by
  refine writeSeg hs hk hlinks ha (fun y st hst => hs.unpublished_of_claimed hl ht hst)
    (fun g y hg hy => ?_) (hpc _ (ht.frame rfl) ⟨hl.valid.frame rfl, hl.segment, setSeg_seg_self⟩)
    howns hhand
  cases hg
  cases hy
  exact hl.segment

/-- The arena gives out a segment. -/
theorem arenaAlloc (ha : m.seg a = none)
    (hpc : PcOk p (m.setSeg a (some ⟨p, size, .busy, none⟩)) c') (howns : c'.owns = none)
    (hhand : ∀ b ∈ c'.hand, b = a ∨ b ∈ c.hand) :
    StepOk p m c (m.setSeg a (some ⟨p, size, .busy, none⟩)) c' := by
  have hpub : ∀ y st, st ≠ .claimed → ¬ Tok m y a st := fun y st hst =>
    hs.unpublished_of_none ha hst
  refine ⟨⟨rfl, fun _ h => absurd rfl h, fun _ _ => .inl rfl,
      fun b hb => .inr (eq_of_setSeg_seg_ne hb ▸ ha), fun _ hz => .inl hz,
      fun _ _ h => .inl (h.frame rfl), fun x hx => ?_, fun b hb => ?_⟩,
    hs.setSeg hpub (hs.notMem_held ha) (fun g x hg hx => ?_),
    ⟨hpc, fun x hx hz _ => hk.empty x hx hz (by rw [hlinks]; nofun), fun b hb => ?_,
      fun b hb x hx => ?_⟩⟩
  · rw [howns] at hx
    cases hx
  · rcases hhand b hb with rfl | hb
    · exact .inr (.inr (.inl ha))
    · exact .inl hb
  · cases hg
    cases hx
  · rcases hhand b hb with rfl | hb
    · exact hs.notMem_held ha
    · exact hk.unheld b hb
  · rcases hhand b hb with rfl | hb
    · exact hpub x _ (by decide) (hx.frame rfl)
    · exact hk.uncached b hb x (hx.frame rfl)

end

/-- The CPU stores the token of a slot that it has claimed or chosen, and changes neither ledger
nor hand otherwise. A token published as cached is for an address that leaves its hand. -/
theorem writeToken (hx : c.owns = some x ∨ c.fills p = some x)
    (hlinks : ∀ y, c.links p = some y → y = x) (hzero : t = 0 → (m.slot x).segment = none)
    (hok : SlotOk (m.setToken x t) x) (hpc : PcOk p (m.setToken x t) c')
    (hcached : ∀ b, Tok (m.setToken x t) x b .cached → b ∈ c.hand ∧ b ∉ c'.hand)
    (howns : c'.owns = none) (hhand : ∀ b ∈ c'.hand, b ∈ c.hand) :
    StepOk p m c (m.setToken x t) c' := by
  have hnot : ∀ {b}, ¬ Tok m x b .live := fun {b} hb => by
    rcases hx with hx | hx
    · obtain ⟨d, hd⟩ := hk.pc.tok_of_owns hx
      cases (hd.inj hb).2
    · exact hb.ne_zero (hk.pc.token_of_fills hx).1
  refine ⟨⟨rfl, fun y hy => ?_, fun y hy => (setToken_empty hzero hy).imp_right .inl,
      fun _ h => absurd rfl h, fun z hz => .inl hz, fun y b hy => ?_, fun y hy => ?_,
      fun b hb => .inl (hhand b hb)⟩,
    hs.setToken hok (fun b _ hb => hnot hb) (fun b hm hb => hk.unheld b (hcached b hb).1 hm),
    ⟨hpc, fun y hy hz _ => hk.empty_setToken hlinks hzero hy hz,
      fun b hb => hk.unheld b (hhand b hb), fun b hb y hy => ?_⟩⟩
  · obtain rfl := eq_of_setToken_slot_ne hy
    exact hx.imp_right .inl
  · by_cases hyx : y = x
    · subst hyx
      exact .inr (hcached b hy).1
    · exact .inl ((Tok.setToken_of_ne hyx).mp hy)
  · rw [howns] at hy
    cases hy
  · by_cases hyx : y = x
    · subst hyx
      exact (hcached b hy).2 hb
    · exact hk.uncached b (hhand b hb) y ((Tok.setToken_of_ne hyx).mp hy)

/-- The CPU publishes a slot that it has claimed or chosen, as live or cached. -/
theorem publish (hx : c.owns = some x ∨ c.fills p = some x)
    (hlinks : ∀ y, c.links p = some y → y = x) (hst : st ≠ .claimed) (hpage : pageSize ∣ a)
    (hl : Linked m x a st.segmentType)
    (hpc : ∀ m', m' = m.setToken x (tokenMake a st) → Tok m' x a st →
      Linked m' x a st.segmentType → PcOk p m' c')
    (hcached : st = .cached → a ∈ c.hand ∧ a ∉ c'.hand)
    (howns : c'.owns = none) (hhand : ∀ b ∈ c'.hand, b ∈ c.hand) :
    StepOk p m c (m.setToken x (tokenMake a st)) c' := by
  have hnew : Tok (m.setToken x (tokenMake a st)) x a st := Tok.setToken_self hpage
  have hl' : Linked (m.setToken x (tokenMake a st)) x a st.segmentType := hl.setToken
  refine writeToken hs hk hx hlinks (fun h => ?_) ?_ (hpc _ rfl hnew hl')
    (fun b hb => ?_) howns hhand
  · exact absurd h (tokenMake_ne_zero (four_dvd_of_page hpage) st)
  · cases st with
    | live => exact .live a hnew hl'
    | cached => exact .cached a hnew hl'
    | claimed => exact absurd rfl hst
  · obtain ⟨rfl, rfl⟩ := hnew.inj hb
    exact hcached rfl

/-- The slot that the CPU fills and the segment that it enrolls get to name each other. -/
theorem link {e : Enrolling} {i : ℕ} (hn : p < m.cpuCount) (hc : c = .enrollType e i) :
    StepOk p m c
      ((m.setSegment ⟨p, e.cls, i⟩ (some e.seg)).setSeg e.seg
        (some ⟨p, magSize e.cls, e.state.segmentType, some ⟨p, e.cls, i⟩⟩))
      (.enrollToken e i) := by
  subst hc
  obtain ⟨hok, hu, hp, hi, hz⟩ := hk.pc
  set x : SlotId := ⟨p, e.cls, i⟩ with hx
  have hunlinked : (m.slot x).segment = none := hk.empty x rfl hz nofun
  have hs₁ : MagShared (m.setSegment x (some e.seg)) := by
    refine hs.setSegment (fun a st _ ht => ht.ne_zero hz) fun a g hg hgx => ?_
    rw [hs.named a g x hg hgx] at hunlinked
    cases hunlinked
  have hs₂ := hs₁.setSeg (g := some ⟨p, magSize e.cls, e.state.segmentType, some x⟩)
    (fun y st hst ht => hs.unpublished hu rfl hst (Tok.setSegment_iff.mp ht))
    (hk.unheld e.seg (.tail _ (.head _)))
    fun g y hg hy => by
      cases hg
      cases hy
      exact setSegment_segment_self
  have hslot : ∀ {y}, y ≠ x → (m.setSegment x (some e.seg)).slot y = m.slot y :=
    setSegment_slot_of_ne
  refine ⟨.relink (.inr rfl) (.inr rfl) (.tail _ (.head _)) nofun fun _ h => h, hs₂,
    ⟨⟨⟨hok.cls_lt, hok.state_ne, hok.live, fun hst => ?_⟩,
      ⟨⟨hn, hok.cls_lt, hi⟩, setSegment_segment_self, setSeg_seg_self⟩, hp,
      setSegment_token.trans hz⟩, fun y hy hyz hl => ?_, hk.unheld,
      fun b hb y hy => hk.uncached b hb y (Tok.setSegment_iff.mp (hy.frame rfl))⟩⟩
  · obtain ⟨hne, hlive⟩ := hok.cached hst
    exact ⟨hne, hlive.frame rfl (fun y hy => hslot fun he => hy.ne_zero (he ▸ hz))
      (setSeg_seg_of_ne hne.symm)⟩
  · have hyx : y ≠ x := fun he => hl (he ▸ rfl)
    have hyz' : m.token y = 0 := setSegment_token.symm.trans hyz
    exact (congrArg MagSlot.segment (hslot hyx)).trans (hk.empty y hy hyz' nofun)

/-- The claimed slot and its segment cease to name each other, and the segment is released. -/
theorem unlink {rest : Option (List SlotId)} (hc : c = .releaseArena x b rest) :
    StepOk p m c ((m.setSegment x none).setSeg b none) (.releaseToken x rest) := by
  subst hc
  obtain ⟨ht, ty, hl⟩ := hk.pc
  have hs₁ : MagShared (m.setSeg b none) :=
    hs.setSeg (fun y st hst => hs.unpublished_of_claimed hl ht hst) (hk.unheld b (.head _)) nofun
  have hs₂ : MagShared ((m.setSeg b none).setSegment x none) := by
    refine hs₁.setSegment (fun a st hst hx => ?_) fun a g hg hgx => ?_
    · exact hst (ht.inj (hx.frame rfl)).2.symm
    have hab : a ≠ b := fun he => by
      rw [he, setSeg_seg_self] at hg
      cases hg
    rw [setSeg_seg_of_ne hab] at hg
    exact hab (some.inj ((hs.named a g x hg hgx).symm.trans hl.segment))
  refine ⟨.relink (.inl rfl) (.inl rfl) (.head _) (fun _ h => h) nofun, hs₂,
    ⟨⟨setSegment_segment_self, b, (Tok.setSegment_iff.mpr ht).frame rfl⟩,
      fun y hy hyz _ => ?_, nofun, nofun⟩⟩
  by_cases hyx : y = x
  · subst hyx
    exact setSegment_segment_self
  · have hyz' : m.token y = 0 := setSegment_token.symm.trans hyz
    have hslot : (m.setSegment x none).slot y = m.slot y := setSegment_slot_of_ne hyx
    exact (congrArg MagSlot.segment hslot).trans (hk.empty y hy hyz' nofun)

/-- The address in the CPU's hand is returned to a client. -/
theorem giveOut (hlinks : c.links p = none) (hn : m'.cpuCount = m.cpuCount)
    (hslot : m'.slot = m.slot) (hseg : m'.seg = m.seg)
    (hheld : m'.held = (a, size) :: m.held) (ha : a ∈ c.hand) (hl : LiveSeg m a size)
    (hidle : c' = .idle) : StepOk p m c m' c' := by
  subst hidle
  refine ⟨⟨hn, fun x hx => absurd (congrFun hslot x) hx, fun x _ => .inl (congrFun hslot x),
      fun b hb => absurd (congrFun hseg b) hb, fun z hz => ?_,
      fun x b hx => .inl (hx.frame (congrFun hslot x).symm), nofun, nofun⟩,
    (hs.hold hl (hk.unheld a ha) (hk.uncached a ha)).congr hn hslot hseg
      (hheld ▸ List.Sublist.refl _), ⟨trivial, fun x hx hz _ => ?_, nofun, nofun⟩⟩
  · rw [hheld] at hz
    rcases mem_cons.mp hz with rfl | hz
    · exact .inr ha
    · exact .inl hz
  · rw [token, hslot] at hz
    rw [hslot]
    exact hk.empty x hx hz (by simp [hlinks])

/-- A client passes an extent that it holds to `vas_free`. -/
theorem takeBack (hlinks : c.links p = none) (hz : (a, size) ∈ m.held) (hpc : PcOk p m c')
    (howns : c'.owns = none)
    (hhand : c'.hand = [a]) : StepOk p m c { m with held := m.held.erase (a, size) } c' := by
  have hsub : (m.held.erase (a, size)).Sublist m.held := erase_sublist
  refine ⟨⟨rfl, fun _ h => absurd rfl h, fun _ _ => .inl rfl, fun _ h => absurd rfl h,
      fun z h => .inl (hsub.subset h), fun _ _ h => .inl (h.frame rfl), fun x hx => ?_,
      fun b hb => .inr (.inl ?_)⟩,
    hs.congr rfl rfl rfl hsub,
    ⟨hpc.frame rfl (fun _ _ => rfl) (fun _ _ => rfl) (fun _ _ _ _ => rfl) fun _ _ => rfl,
      fun x hx hz _ => hk.empty x hx hz (by rw [hlinks]; nofun), fun b hb hm => ?_,
      fun b hb x hx => ?_⟩⟩
  · rw [howns] at hx
    cases hx
  · rw [hhand, mem_singleton] at hb
    exact hb ▸ mem_map_of_mem hz
  · rw [hhand, mem_singleton] at hb
    subst hb
    -- the ledger has the address only once
    have hperm := (perm_cons_erase hz).map fst
    have hnd := hperm.nodup_iff.mp hs.nodup
    exact (nodup_cons.mp hnd).1 hm
  · rw [hhand, mem_singleton] at hb
    subst hb
    exact hs.uncached _ hz x (hx.frame rfl)

omit hs hk in
/-- A write, and then the end of the call, which leaves slots and segments alone. -/
theorem finish {m₁ : MagMem} {c₁ : MagPc} (h₁ : StepOk p m c m₁ c₁) (h₂ : StepOk p m₁ c₁ m' .idle)
    (hslot : m'.slot = m₁.slot) (hseg : m'.seg = m₁.seg) (hheld : m₁.held = m.held)
    (hhand : ∀ a ∈ c₁.hand, a ∈ c.hand) : StepOk p m c m' .idle := by
  refine ⟨⟨h₂.effect.cpuCount.trans h₁.effect.cpuCount, fun x hx => ?_, fun x hx => ?_,
    fun a ha => ?_, fun z hz => ?_, fun x a hx => ?_, nofun, nofun⟩, h₂.shared, h₂.known⟩
  · exact h₁.effect.slot x (congrFun hslot x ▸ hx)
  · rw [token, hslot] at hx
    rw [hslot]
    exact h₁.effect.empty x hx
  · exact h₁.effect.seg a (congrFun hseg a ▸ ha)
  · exact (h₂.effect.held z hz).imp (fun h => hheld ▸ h) (hhand z.1)
  · exact h₁.effect.cached x a (hx.frame (congrFun hslot x).symm)

end StepOk

/-! ### The steps -/

/-- A segment that the arena gave out and that is not enrolled is allocated. -/
theorem Unlinked.liveSeg (h : Unlinked m p a size) : LiveSeg m a size :=
  ⟨_, h, rfl, rfl, nofun⟩

namespace Enrolling

variable {e : Enrolling}

theorem owns_failed : e.failed.owns = none := by
  cases hst : e.state <;> simp [failed, hst, MagPc.owns]

theorem owns_entry : e.entry.owns = none := by
  rw [entry]
  split
  · rfl
  · exact owns_failed

theorem hand_failed (ha : a ∈ e.failed.hand) : a ∈ [e.ret, e.seg] := by
  cases hst : e.state <;> simp_all [failed, MagPc.hand]

theorem hand_entry (ha : a ∈ e.entry.hand) : a ∈ [e.ret, e.seg] := by
  rw [entry] at ha
  split at ha
  · exact ha
  · exact hand_failed ha

theorem Ok.failed (hok : e.Ok m) (hu : Unlinked m p e.seg (magSize e.cls)) : PcOk p m e.failed := by
  cases hst : e.state with
  | live =>
    rw [Enrolling.failed, hst]
    exact hok.live hst ▸ hu.liveSeg
  | cached =>
    rw [Enrolling.failed, hst]
    obtain ⟨hne, hl⟩ := hok.cached hst
    exact ⟨hl, hne, _, hu, rfl⟩
  | claimed => exact absurd hst hok.state_ne

theorem Ok.entry (hok : e.Ok m) (hu : Unlinked m p e.seg (magSize e.cls)) : PcOk p m e.entry := by
  rw [Enrolling.entry]
  split
  · rename_i ha
    exact ⟨hok, hu, isAligned_page.mp ha, fun i hi => mem_range.mp hi⟩
  · exact hok.failed hu

end Enrolling

/-- A token in the cached state is that of a cached slot. -/
theorem MagShared.cached_of_state (hs : MagShared m)
    (h : tokenState (m.token x) = MagState.cached.code) :
    Tok m x (tokenAddr (m.token x)) .cached := by
  cases hs.slots x with
  | empty hz =>
    rw [hz] at h
    cases h
  | live a ht _ | claimed a ht =>
    rw [ht.state] at h
    cases h
  | cached a ht _ => exact ht.addr.symm ▸ ht

theorem owns_afterRelease : (afterRelease x rest).owns = none := by
  cases rest <;> rfl

theorem hand_afterRelease : (afterRelease x rest).hand = [] := by
  cases rest <;> rfl

theorem pcOk_afterRelease : PcOk p m (afterRelease x rest) := by
  cases rest <;> trivial

/-- Every step writes only what it may and re-establishes the memory and what its CPU knows. -/
theorem MagStep.ok (h : MagStep p m c m' c') (hn : p < m.cpuCount) (hs : MagShared m)
    (hk : MagKnown p m c) : StepOk p m c m' c' := by
  have hpc := hk.pc
  cases h with
  | callAlloc cls align _ | allocSkip _ | allocMiss | allocLose _ | callAllocSlow size | slowFail
  | callDrain d _ | drainSkip _ | drainLose _ | drainDone => exact .move hs hk rfl trivial rfl nofun
  | allocSee hc _ | drainSee hc => exact .move hs hk rfl hc rfl nofun
  | @allocWin cls align i token rest ht =>
    subst ht
    exact .claim hs hk rfl (hs.cached_of_state hpc) (.inl rfl) rfl rfl rfl fun m' ht hl => ⟨ht, hl⟩
  | @allocType x addr b g hb hg =>
    obtain ⟨ht, hl⟩ := hpc
    obtain rfl : b = addr := some.inj (hb.symm.trans hl.segment)
    rw [hl.seg, some.injEq] at hg
    subst hg
    exact .retype hs hk rfl ht hl (.head _) (fun m' ht hl => ⟨rfl, ht, hl⟩) (fun _ h => h)
      fun _ h => h
  | @allocToken x addr b =>
    obtain ⟨rfl, ht, hl⟩ := hpc
    have hlive : ∀ m', Tok m' x addr .live → Linked m' x addr .busy →
        LiveSeg m' addr (magSize x.cls) := fun m' ht hl =>
      ⟨_, hl.seg, rfl, rfl, fun y hy => by cases hy; exact ⟨ht, hl⟩⟩
    have hw : StepOk p m (.allocToken x addr addr) (m.setToken x (tokenMake addr .live))
        (.slowReturn addr (magSize x.cls)) :=
      .publish hs hk (.inl rfl) nofun (by decide) ht.page hl (fun m' _ => hlive m') nofun rfl
        fun _ h => h
    exact hw.finish (.giveOut hw.shared hw.known rfl rfl rfl rfl rfl (.head _) hw.known.pc rfl) rfl
      rfl rfl fun _ h => h
  | @callFree addr size hz hcls ha =>
    exact .takeBack hs hk rfl hz ⟨isAligned_page.mp ha, hs.held _ hz⟩ rfl rfl
  | freeSkip _ | freeSee _ | freeLose _ | enrollLoad
  | enrollRetry _ _ => exact .move hs hk rfl hpc rfl fun _ h => h
  | freeMiss | refillDone => exact .move hs hk rfl hpc.2 rfl fun _ h => h
  | freeWin ht =>
    exact .claim hs hk rfl ⟨hpc.1, ht⟩ (.inr ⟨rfl, .head _⟩) ht.symm rfl rfl
      fun m' ht hl => ⟨ht, hl⟩
  | @freeType x addr b g hb hg =>
    obtain ⟨ht, hl⟩ := hpc
    obtain rfl : b = addr := some.inj (hb.symm.trans hl.segment)
    rw [hl.seg, some.injEq] at hg
    subst hg
    exact .retype hs hk rfl ht hl (.head _) (fun m' ht hl => ⟨ht, hl⟩) (fun _ h => h) fun _ h => h
  | @freeToken x b =>
    obtain ⟨ht, hl⟩ := hpc
    have hw : StepOk p m (.freeToken x b) (m.setToken x (tokenMake b .cached)) .idle :=
      .publish hs hk (.inl rfl) nofun (by decide) ht.page hl (fun _ _ _ _ => trivial)
        (fun _ => ⟨.head _, nofun⟩) rfl nofun
    exact hw.finish (.still hw.shared hw.known rfl rfl rfl rfl rfl trivial nofun nofun) rfl rfl rfl
      nofun
  | callFreeSlow hz => exact .takeBack hs hk rfl hz (hs.held _ hz) rfl rfl
  | freeLock _ _ | enrollWin _ _ _ => exact .still hs hk rfl rfl rfl rfl rfl hpc nofun fun _ h => h
  | freeBad hbad =>
    obtain ⟨g, hg, ht, hlen, -⟩ := hpc
    rcases hbad g hg with h | h
    · exact absurd ht h
    · exact absurd hlen h
  | freeEnrolled hg _ _ hx =>
    obtain ⟨g, hg', -, -, hl⟩ := hpc
    rw [hg, some.injEq] at hg'
    exact .move hs hk rfl (hl _ (hg' ▸ hx)) rfl fun _ h => h
  | freePlain hg _ _ hx => exact .move hs hk rfl ⟨_, hg, hx⟩ rfl fun _ h => h
  | freeTwice hbad => exact absurd hpc.1.eq hbad
  | freeSlot _ =>
    exact .claim hs hk rfl hpc.1 (.inr ⟨rfl, .head _⟩) hpc.1.eq.symm rfl rfl
      fun m' ht hl => ⟨ht, _, hl⟩
  | freeArena =>
    obtain ⟨g, hg, hx⟩ := hpc
    exact .writeSeg hs hk rfl (.head _) (fun y st hst => hs.unpublished hg hx hst) nofun trivial
      nofun nofun
  | unlock | slowLock _ | drainLock _ => exact .still hs hk rfl rfl rfl rfl rfl trivial nofun nofun
  | @releaseBytes x addr b g rest hb hg =>
    obtain ⟨ht, ty, hl⟩ := hpc
    obtain rfl : b = addr := some.inj (hb.symm.trans hl.segment)
    exact .still hs hk rfl rfl rfl rfl rfl ⟨ht, ty, hl⟩ (fun _ h => h) fun _ h => h
  | releaseArena => exact .unlink hs hk rfl
  | @releaseToken x rest =>
    refine .writeToken hs hk (.inl rfl) nofun (fun _ => hpc.1) (.empty setToken_token_self)
      pcOk_afterRelease
      (fun b hb => absurd setToken_token_self hb.ne_zero) owns_afterRelease fun b hb => ?_
    rw [hand_afterRelease] at hb
    cases hb
  | @slowPlain size a ha =>
    refine .arenaAlloc hs hk rfl ha ?_ rfl fun b hb => .inl (mem_singleton.mp hb)
    exact Unlinked.liveSeg (p := p) setSeg_seg_self
  | @slowEnroll size a ha hcls =>
    have hu : ∀ n, size = n → Unlinked (m.setSeg a (some ⟨p, size, .busy, none⟩)) p a n :=
      fun n hn => hn ▸ setSeg_seg_self
    refine .arenaAlloc hs hk rfl ha (Ok.entry ⟨hcls, by simp, fun _ => rfl, nofun⟩ ?_)
      owns_entry fun b hb => .inl ?_
    · exact hu _ (magClass_length hcls)
    · simpa using hand_entry hb
  | enrollSkip _ =>
    obtain ⟨hok, hu, hp, hr⟩ := hpc
    exact .move hs hk rfl ⟨hok, hu, hp, fun i hi => hr i (.tail _ hi)⟩ rfl fun _ h => h
  | enrollPick hz =>
    obtain ⟨hok, hu, hp, hr⟩ := hpc
    exact .move hs hk rfl ⟨hok, hu, hp, hr _ (.head _), hz⟩ rfl fun _ h => h
  | enrollNone | enrollOver _ _ =>
    obtain ⟨hok, hu, -⟩ := hpc
    exact .move hs hk rfl (hok.failed hu) owns_failed fun _ h => hand_failed h
  | @enrollType e i g hg =>
    have hu := hpc.2.1
    rw [Unlinked, hg, some.injEq] at hu
    subst hu
    exact .link hs hk hn rfl
  | @enrollToken e i =>
    obtain ⟨hok, hl, hp, hz⟩ := hpc
    refine .publish hs hk (.inr rfl) (fun y hy => (some.inj hy).symm) hok.state_ne hp hl
      (fun m' hm ht hl' => ⟨hok.cls_lt, ?_⟩) (fun hst => ?_) rfl
      fun b hb => mem_pair.mpr (.inl (mem_singleton.mp hb))
    · cases hst : e.state with
      | live =>
        rw [hst] at ht hl'
        rw [← hok.live hst]
        exact ⟨_, hl'.seg, rfl, rfl, fun y hy => by cases hy; exact ⟨ht, hl'⟩⟩
      | cached =>
        subst hm
        exact (hok.cached hst).2.frame rfl
          (fun y hy => setToken_slot_of_ne fun he => hy.ne_zero (he ▸ hz)) rfl
      | claimed => exact absurd hst hok.state_ne
    · exact ⟨.tail _ (.head _), fun hm => (hok.cached hst).1 (mem_singleton.mp hm)⟩
  | @refillAlloc ret cls left b hb =>
    obtain ⟨hcls, hl⟩ := hpc
    have hne : ret ≠ b := fun he => hk.pc.seg_ne_none (.head _) (he ▸ hb)
    refine .arenaAlloc hs hk rfl hb
      (Ok.entry ⟨hcls, by simp, nofun, fun _ => ⟨hne.symm, ?_⟩⟩ setSeg_seg_self)
      owns_entry fun d hd => ?_
    · exact hl.frame rfl (fun _ _ => rfl) (setSeg_seg_of_ne hne)
    · rcases mem_pair.mp (hand_entry hd) with h | h
      · exact .inr (h ▸ .head _)
      · exact .inl h
  | @refillDrop ret cls b =>
    obtain ⟨hl, hne, g, hg, hx⟩ := hpc
    refine .writeSeg hs hk rfl (.tail _ (.head _)) (fun y st hst => hs.unpublished hg hx hst) nofun
      ?_ nofun fun d hd => mem_pair.mpr (.inl (mem_singleton.mp hd))
    exact hl.frame rfl (fun _ _ => rfl) (setSeg_seg_of_ne hne.symm)
  | slowReturn => exact .giveOut hs hk rfl rfl rfl rfl rfl (.head _) hpc rfl
  | @drainWin d token x rest ht =>
    subst ht
    exact .claim hs hk rfl (hs.cached_of_state hpc) (.inl rfl) rfl rfl rfl
      fun m' ht hl => ⟨ht, _, hl⟩

/-- The proof outline of the magazine protocol. -/
def magOutline : Interleaving.Outline magAct where
  shared := MagShared
  known := MagKnown
  apart := MagApart
  apart_symm h := h.symm
  own h hs hk :=
    have hok := h.2.ok h.1 hs hk
    ⟨hok.shared, hok.known⟩
  other h hpq hs hp hq hce :=
    have he := (h.2.ok h.1 hs hp).effect
    ⟨he.known hp hq hpq hce, he.apart hq hce⟩

end Charmos.Vas
