import Charmos.Mem.Vas.LocalSpec
import Charmos.Mem.Vas.Protocol

/-!
# What the magazine protocol keeps

The proof outline of the protocol. A published slot, live or cached, and its segment name each
other and agree on the type; a claimed slot belongs to the one CPU whose code is between the claim
and the next store of the token. Every address is in at most one hand: a client's, or that of one
CPU which is allocating or freeing it; the address of a cached slot is in nobody's hand.

A step writes a slot only if the slot is claimed by the CPU itself, or is being filled by it, or is
won in that step, and writes a segment only if its address is in the CPU's hand or in no use. This
is `MagEffect`, from which follows that no step interferes with what another CPU knows.
-/

namespace Charmos.Vas

open List

variable {m m' : MagMem} {x y : SlotId} {a b size p q : ℕ} {c c' e : MagPc} {st st' : MagState}
  {ty : SegmentType}

/-! ### Tokens and segments -/

/-- The slot's token is that of address `a` in state `st`. -/
structure Tok (m : MagMem) (x : SlotId) (a : ℕ) (st : MagState) : Prop where
  page : pageSize ∣ a
  eq : m.token x = tokenMake a st

theorem Tok.inj (h : Tok m x a st) (h' : Tok m x b st') : a = b ∧ st = st' :=
  tokenMake_inj (four_dvd_of_page h.page) (four_dvd_of_page h'.page) (h.eq.symm.trans h'.eq)

theorem Tok.ne_zero (h : Tok m x a st) : m.token x ≠ 0 :=
  h.eq ▸ tokenMake_ne_zero (four_dvd_of_page h.page) st

theorem Tok.addr (h : Tok m x a st) : tokenAddr (m.token x) = a :=
  h.eq ▸ tokenAddr_tokenMake (four_dvd_of_page h.page) st

theorem Tok.state (h : Tok m x a st) : tokenState (m.token x) = st.code :=
  h.eq ▸ tokenState_tokenMake (four_dvd_of_page h.page) st

/-- The slot is one of the space's. -/
structure SlotId.Valid (m : MagMem) (x : SlotId) : Prop where
  arena_lt : x.arena < m.cpuCount
  cls_lt : x.cls < magClasses
  idx_lt : x.idx < magCap x.cls

/-- The slot and the segment at `a` name each other. -/
structure Linked (m : MagMem) (x : SlotId) (a : ℕ) (ty : SegmentType) : Prop where
  valid : x.Valid m
  segment : (m.slot x).segment = some a
  seg : m.seg a = some ⟨x.arena, magSize x.cls, ty, some x⟩

/-- What holds of a slot between any two steps. -/
inductive SlotOk (m : MagMem) (x : SlotId) : Prop
  | empty (h : m.token x = 0)
  | live (a : ℕ) (h : Tok m x a .live) (hl : Linked m x a .busy)
  | cached (a : ℕ) (h : Tok m x a .cached) (hl : Linked m x a .cached)
  | claimed (a : ℕ) (h : Tok m x a .claimed)

/-- The segment at `a` is allocated, and its slot, if it has one, is live. -/
def LiveSeg (m : MagMem) (a size : ℕ) : Prop :=
  ∃ g, m.seg a = some g ∧ g.type = .busy ∧ g.length = size ∧
    ∀ x, g.magSlot = some x → Tok m x a .live ∧ Linked m x a .busy

/-- The segment at `a` was given out by CPU `p`'s arena and is not enrolled. -/
def Unlinked (m : MagMem) (p a size : ℕ) : Prop := m.seg a = some ⟨p, size, .busy, none⟩

/-! ### What a place in the code means -/

/-- The slot that the CPU has claimed. -/
def MagPc.owns : MagPc → Option SlotId
  | .allocType x _ | .allocToken x _ _ | .freeType x _ | .freeToken x _ => some x
  | .releaseBytes x _ _ | .releaseArena x _ _ | .releaseToken x _ => some x
  | _ => none

/-- The empty slot that CPU `p` has chosen. -/
def MagPc.fills (p : ℕ) : MagPc → Option SlotId
  | .enrollLoad e i | .enrollBytes e i _ | .enrollType e i | .enrollToken e i =>
    some ⟨p, e.cls, i⟩
  | _ => none

/-- The empty slot that CPU `p` has linked with a segment and not published yet. -/
def MagPc.links (p : ℕ) : MagPc → Option SlotId
  | .enrollToken e i => some ⟨p, e.cls, i⟩
  | _ => none

/-- The addresses in the CPU's hand. -/
def MagPc.hand : MagPc → List ℕ
  | .allocType _ a | .allocToken _ _ a | .freeType _ a | .freeToken _ a => [a]
  | .freeLoad _ a _ _ | .freeClaim _ a _ _ _ | .freeLock a _ | .freeFind a _ _ => [a]
  | .freeSlot a _ _ | .freeArena a _ => [a]
  | .releaseBytes _ a _ | .releaseArena _ a _ => [a]
  | .enrollScan e _ | .enrollLoad e _ | .enrollBytes e _ _ | .enrollType e _ | .enrollToken e _ =>
    [e.ret, e.seg]
  | .refillDrop ret _ b => [ret, b]
  | .refill ret _ _ => [ret]
  | .slowReturn a _ => [a]
  | _ => []

/-- The segment to enroll as live is the one to return; one to enroll as cached is another, and
the one to return is allocated already. -/
structure Enrolling.Ok (m : MagMem) (e : Enrolling) : Prop where
  cls_lt : e.cls < magClasses
  state_ne : e.state ≠ .claimed
  live : e.state = .live → e.seg = e.ret
  cached : e.state = .cached → e.seg ≠ e.ret ∧ LiveSeg m e.ret (magSize e.cls)

/-- What CPU `p` knows about the memory at a place in the code. -/
def PcOk (p : ℕ) (m : MagMem) : MagPc → Prop
  | .allocClaim _ _ _ token _ => tokenState token = MagState.cached.code
  | .allocType x a => Tok m x a .claimed ∧ Linked m x a .cached
  | .allocToken x a b => a = b ∧ Tok m x b .claimed ∧ Linked m x b .busy
  | .freeLoad _ a size _ | .freeClaim _ a size _ _ => pageSize ∣ a ∧ LiveSeg m a size
  | .freeType x a => Tok m x a .claimed ∧ Linked m x a .busy
  | .freeToken x b => Tok m x b .claimed ∧ Linked m x b .cached
  | .freeLock a size | .freeFind a size _ => LiveSeg m a size
  | .freeSlot a _ x => Tok m x a .live ∧ Linked m x a .busy
  | .freeArena a _ => ∃ g, m.seg a = some g ∧ g.magSlot = none
  | .badFree => False
  | .releaseBytes x a _ | .releaseArena x a _ => Tok m x a .claimed ∧ ∃ ty, Linked m x a ty
  | .releaseToken x _ => (m.slot x).segment = none ∧ ∃ a, Tok m x a .claimed
  | .enrollScan e rest => e.Ok m ∧ Unlinked m p e.seg (magSize e.cls) ∧ pageSize ∣ e.seg ∧
      ∀ i ∈ rest, i < magCap e.cls
  | .enrollLoad e i | .enrollBytes e i _ | .enrollType e i =>
      e.Ok m ∧ Unlinked m p e.seg (magSize e.cls) ∧ pageSize ∣ e.seg ∧ i < magCap e.cls ∧
        m.token ⟨p, e.cls, i⟩ = 0
  | .enrollToken e i => e.Ok m ∧ Linked m ⟨p, e.cls, i⟩ e.seg e.state.segmentType ∧
      pageSize ∣ e.seg ∧ m.token ⟨p, e.cls, i⟩ = 0
  | .refill ret cls _ => cls < magClasses ∧ LiveSeg m ret (magSize cls)
  | .refillDrop ret cls b => LiveSeg m ret (magSize cls) ∧ b ≠ ret ∧
      ∃ g, m.seg b = some g ∧ g.magSlot = none
  | .slowReturn a size => LiveSeg m a size
  | .drainClaim _ _ token _ => tokenState token = MagState.cached.code
  | _ => True

/-- The memory between any two steps. -/
structure MagShared (m : MagMem) : Prop where
  slots : ∀ x, SlotOk m x
  named : ∀ a g x, m.seg a = some g → g.magSlot = some x → (m.slot x).segment = some a
  nodup : (m.held.map Prod.fst).Nodup
  held : ∀ z ∈ m.held, LiveSeg m z.1 z.2
  uncached : ∀ z ∈ m.held, ∀ x, ¬ Tok m x z.1 .cached

/-- What a CPU knows: that of its place in the code, that the empty slots of its own arena have no
segment, and that no client holds what is in its hand. -/
structure MagKnown (p : ℕ) (m : MagMem) (c : MagPc) : Prop where
  pc : PcOk p m c
  empty : ∀ x, x.arena = p → m.token x = 0 → c.links p ≠ some x → (m.slot x).segment = none
  unheld : ∀ a ∈ c.hand, a ∉ m.held.map Prod.fst
  uncached : ∀ a ∈ c.hand, ∀ x, ¬ Tok m x a .cached

/-- Two CPUs have different slots claimed and different addresses in their hands. -/
structure MagApart (c e : MagPc) : Prop where
  owns : ∀ x, c.owns = some x → e.owns ≠ some x
  hand : ∀ a ∈ c.hand, a ∉ e.hand

theorem MagApart.symm (h : MagApart c e) : MagApart e c :=
  ⟨fun x he hc => h.owns x hc he, fun a he hc => h.hand a hc he⟩

/-! ### Frames -/

theorem Tok.frame (h : Tok m x a st) (hs : m'.slot x = m.slot x) : Tok m' x a st :=
  ⟨h.page, by rw [MagMem.token, hs]; exact h.eq⟩

theorem SlotId.Valid.frame (h : x.Valid m) (hn : m'.cpuCount = m.cpuCount) : x.Valid m' :=
  ⟨hn ▸ h.arena_lt, h.cls_lt, h.idx_lt⟩

theorem Linked.frame (h : Linked m x a ty) (hn : m'.cpuCount = m.cpuCount)
    (hs : (m'.slot x).segment = (m.slot x).segment) (hg : m'.seg a = m.seg a) : Linked m' x a ty :=
  ⟨h.valid.frame hn, hs.trans h.segment, hg.trans h.seg⟩

theorem LiveSeg.frame (h : LiveSeg m a size) (hn : m'.cpuCount = m.cpuCount)
    (hs : ∀ x, Tok m x a .live → m'.slot x = m.slot x) (hg : m'.seg a = m.seg a) :
    LiveSeg m' a size := by
  obtain ⟨g, hseg, ht, hlen, hx⟩ := h
  refine ⟨g, hg.trans hseg, ht, hlen, fun x hxs => ?_⟩
  obtain ⟨htok, hl⟩ := hx x hxs
  have he := hs x htok
  exact ⟨htok.frame he, hl.frame hn (by rw [he]) hg⟩

theorem Enrolling.Ok.frame {e : Enrolling} (h : e.Ok m) (hn : m'.cpuCount = m.cpuCount)
    (hs : ∀ x, Tok m x e.ret .live → m'.slot x = m.slot x) (hg : m'.seg e.ret = m.seg e.ret) :
    e.Ok m' :=
  ⟨h.cls_lt, h.state_ne, h.live, fun he => ⟨(h.cached he).1, (h.cached he).2.frame hn hs hg⟩⟩

/-- A CPU keeps what it knows if its claimed slot, the slot it fills, the live slots of the
addresses in its hand and their segments stay as they are. -/
theorem PcOk.frame (h : PcOk p m c) (hn : m'.cpuCount = m.cpuCount)
    (howns : ∀ x, c.owns = some x → m'.slot x = m.slot x)
    (hfills : ∀ x, c.fills p = some x → m'.slot x = m.slot x)
    (hlive : ∀ a ∈ c.hand, ∀ x, Tok m x a .live → m'.slot x = m.slot x)
    (hseg : ∀ a ∈ c.hand, m'.seg a = m.seg a) : PcOk p m' c := by
  have htoken : ∀ x, c.fills p = some x → m'.token x = m.token x := fun x hx => by
    rw [MagMem.token, MagMem.token, hfills x hx]
  have hptr : ∀ x, m'.slot x = m.slot x → (m'.slot x).segment = (m.slot x).segment := fun x hx => by
    rw [hx]
  cases c with
  | allocType x a | freeType x a | freeToken x a =>
    have hx := howns x rfl
    exact ⟨h.1.frame hx, h.2.frame hn (hptr x hx) (hseg _ (.head _))⟩
  | allocToken x a b =>
    have hx := howns x rfl
    exact ⟨h.1, h.2.1.frame hx, h.2.2.frame hn (hptr x hx) (hseg _ (.head _))⟩
  | freeLoad _ a | freeClaim _ a =>
    exact ⟨h.1, h.2.frame hn (hlive _ (.head _)) (hseg _ (.head _))⟩
  | freeLock a | freeFind a | slowReturn a =>
    exact LiveSeg.frame h hn (hlive _ (.head _)) (hseg _ (.head _))
  | freeSlot a d x =>
    have hx := hlive a (.head _) x h.1
    exact ⟨h.1.frame hx, h.2.frame hn (hptr x hx) (hseg _ (.head _))⟩
  | freeArena a =>
    obtain ⟨g, hg, hs⟩ := h
    exact ⟨g, (hseg _ (.head _)).trans hg, hs⟩
  | releaseBytes x a | releaseArena x a =>
    have hx := howns x rfl
    obtain ⟨ht, ty, hl⟩ := h
    exact ⟨ht.frame hx, ty, hl.frame hn (hptr x hx) (hseg _ (.head _))⟩
  | releaseToken x =>
    obtain ⟨hnone, a, ht⟩ := h
    have hx := howns x rfl
    exact ⟨(hptr x hx).trans hnone, a, ht.frame hx⟩
  | enrollScan e rest =>
    obtain ⟨hok, hu, h⟩ := h
    exact ⟨hok.frame hn (hlive _ (.head _)) (hseg _ (.head _)),
      (hseg _ (.tail _ (.head _))).trans hu, h⟩
  | enrollLoad e i | enrollBytes e i | enrollType e i =>
    obtain ⟨hok, hu, hp, hi, ht⟩ := h
    exact ⟨hok.frame hn (hlive _ (.head _)) (hseg _ (.head _)),
      (hseg _ (.tail _ (.head _))).trans hu, hp, hi, (htoken _ rfl).trans ht⟩
  | enrollToken e i =>
    obtain ⟨hok, hl, hp, ht⟩ := h
    exact ⟨hok.frame hn (hlive _ (.head _)) (hseg _ (.head _)),
      hl.frame hn (hptr _ (hfills _ rfl)) (hseg _ (.tail _ (.head _))), hp,
      (htoken _ rfl).trans ht⟩
  | refill ret cls =>
    exact ⟨h.1, h.2.frame hn (hlive _ (.head _)) (hseg _ (.head _))⟩
  | refillDrop ret cls b =>
    obtain ⟨hl, hne, g, hg, hs⟩ := h
    exact ⟨hl.frame hn (hlive _ (.head _)) (hseg _ (.head _)), hne, g,
      (hseg _ (.tail _ (.head _))).trans hg, hs⟩
  | allocClaim | drainClaim => exact h
  | badFree => exact h
  | idle | allocLoad | unlock | slowLock | slowAlloc | drainLock | drainLoad => trivial

private theorem enrolling_seg {e : Enrolling} {g : SegState} (hok : e.Ok m)
    (hg : m.seg e.seg = some g) (ha : a ∈ [e.ret, e.seg]) : m.seg a ≠ none := by
  have hseg : m.seg e.seg ≠ none := fun he => by
    rw [hg] at he
    cases he
  rcases mem_pair.mp ha with rfl | rfl
  · cases hst : e.state with
    | live => exact hok.live hst ▸ hseg
    | cached =>
      obtain ⟨-, g', hg', -⟩ := hok.cached hst
      intro he
      rw [hg'] at he
      cases he
    | claimed => exact absurd hst hok.state_ne
  · exact hseg

/-- A segment in use begins at each address in a CPU's hand. -/
theorem PcOk.seg_ne_none (h : PcOk p m c) (ha : a ∈ c.hand) : m.seg a ≠ none := by
  have hsome : ∀ {g}, m.seg a = some g → m.seg a ≠ none := fun hg he => by
    rw [hg] at he
    cases he
  cases c with
  | allocType x b | freeType x b | freeToken x b =>
    cases mem_singleton.mp ha
    exact hsome h.2.seg
  | allocToken x b b' =>
    cases mem_singleton.mp ha
    exact hsome h.2.2.seg
  | freeLoad _ b | freeClaim _ b | refill b =>
    cases mem_singleton.mp ha
    obtain ⟨-, g, hg, -⟩ := h
    exact hsome hg
  | freeLock b | freeFind b | slowReturn b =>
    cases mem_singleton.mp ha
    obtain ⟨g, hg, -⟩ := h
    exact hsome hg
  | freeSlot b d x =>
    cases mem_singleton.mp ha
    exact hsome h.2.seg
  | freeArena b =>
    cases mem_singleton.mp ha
    obtain ⟨g, hg, -⟩ := h
    exact hsome hg
  | releaseBytes x b | releaseArena x b =>
    cases mem_singleton.mp ha
    obtain ⟨-, ty, hl⟩ := h
    exact hsome hl.seg
  | enrollScan e rest =>
    obtain ⟨hok, hu, -⟩ := h
    exact enrolling_seg hok hu ha
  | enrollLoad e i | enrollBytes e i | enrollType e i =>
    obtain ⟨hok, hu, -⟩ := h
    exact enrolling_seg hok hu ha
  | enrollToken e i =>
    obtain ⟨hok, hl, -⟩ := h
    exact enrolling_seg hok hl.seg ha
  | refillDrop ret cls b =>
    obtain ⟨⟨g, hg, -⟩, -, g', hg', -⟩ := h
    rcases mem_pair.mp ha with rfl | rfl
    · exact hsome hg
    · exact hsome hg'
  | _ => cases ha

end Charmos.Vas
