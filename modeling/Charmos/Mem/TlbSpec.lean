import Charmos.Mem.Tlb

/-!
# One CPU in a TLB shootdown

The invariant of a CPU and its ring (`CpuInv`), which the steps of its handler and the steps of
calls that have the CPU as a target keep. It says up to which position the handler has done what the
entries ask for, and which requests for a flush it has served.

What a call knows about a CPU does not become false: the log only grows, entries stay, and the
counters go up (`Grows`).
-/

namespace Charmos.Tlb

open Cpu Function List Option

/-! ### Payloads -/

variable {pl : Payload} {l : List Event}

theorem Covers.mono {l' : List Event} (h : Covers pl l) (hl : l ⊆ l') : Covers pl l' := by
  rcases h with h | h
  · exact .inl (hl h)
  refine .inr ?_
  cases pl with
  | flush => exact h
  | page addr => exact hl h
  | range low hi stride => exact fun k hk => hl (h k hk)

/-- The loop of `payload_invalidate` is at `start`, and has done what comes before. -/
def Progress (pl : Payload) (start : BitVec 64) (l : List Event) : Prop :=
  match pl with
  | .range low _ stride =>
    ∃ m : ℕ, start = low + m * stride ∧ ∀ k < m, .invlpg (low + k * stride) ∈ l
  | _ => True

variable {start : BitVec 64}

theorem Progress.mono {l' : List Event} (h : Progress pl start l) (hl : l ⊆ l') :
    Progress pl start l' := by
  cases pl with
  | flush | page addr => trivial
  | range low hi stride =>
    obtain ⟨m, hm, hdone⟩ := h
    exact ⟨m, hm, fun k hk => hl (hdone k hk)⟩

theorem progress_start (pl : Payload) (l : List Event) : Progress pl pl.start l := by
  cases pl with
  | flush | page addr => trivial
  | range low hi stride => exact ⟨0, by simp [Payload.start], fun k hk => absurd hk (by omega)⟩

theorem Progress.next {next : BitVec 64} (h : Progress pl start l)
    (hnext : (payloadInvalidate pl start).2 = some next) :
    Progress pl next (l ++ (payloadInvalidate pl start).1) := by
  cases pl with
  | flush | page addr => trivial
  | range low hi stride =>
    obtain ⟨m, rfl, hdone⟩ := h
    by_cases hlt : low + m * stride < hi
    · simp only [payloadInvalidate, if_pos hlt] at hnext ⊢
      obtain ⟨⟩ := hnext
      refine ⟨m + 1, by rw [Nat.cast_succ, add_mul, one_mul, ← add_assoc], fun k hk => ?_⟩
      rcases Nat.lt_succ_iff_lt_or_eq.1 hk with hk | rfl
      · exact mem_append_left _ (hdone k hk)
      · exact mem_append_right _ (mem_singleton_self _)
    · simp only [payloadInvalidate, if_neg hlt] at hnext
      cases hnext

/-- When the loop ends, all is done: the addresses before the end are reached without wrapping. -/
theorem Progress.covers (h : Progress pl start l) (hend : (payloadInvalidate pl start).2 = none) :
    Covers pl (l ++ (payloadInvalidate pl start).1) := by
  cases pl with
  | flush => exact .inl (by simp [payloadInvalidate])
  | page addr => exact .inr (by simp [payloadInvalidate])
  | range low hi stride =>
    obtain ⟨m, rfl, hdone⟩ := h
    by_cases hlt : low + m * stride < hi
    · simp only [payloadInvalidate, if_pos hlt] at hend
      cases hend
    simp only [payloadInvalidate, if_neg hlt, append_nil]
    refine .inr fun k hk => hdone k ?_
    by_contra hge
    apply hlt
    have hle : m * stride.toNat ≤ k * stride.toNat := Nat.mul_le_mul_right _ (by omega)
    have hnat : (low + m * stride).toNat = low.toNat + m * stride.toNat := by
      rw [BitVec.natCast_eq_ofNat, BitVec.toNat_add, BitVec.toNat_mul, BitVec.toNat_ofNat,
        Nat.mod_mul_mod, Nat.add_mod_mod, Nat.mod_eq_of_lt (by omega)]
    rw [BitVec.lt_def, hnat]
    omega

theorem drop_subset_drop {α : Type*} {l l' : List α} {m m' : ℕ} (hl : l <+: l') (hm : m ≤ m') :
    l.drop m' ⊆ l'.drop m := by
  obtain ⟨r, rfl⟩ := hl
  intro x hx
  rw [drop_append]
  exact mem_append_left _ (drop_subset_drop_left l hm hx)

/-! ### The invariant of a CPU -/

variable {K : Type}

/-- What the queue holds at each position. -/
def Cpu.item (c : Cpu K) (p : ℕ) : Option (Payload × Phase) :=
  (c.entries p).map fun e => (e.payload, e.phase)

/-- The first position that is not released. -/
def Cpu.rel (c : Cpu K) : ℕ :=
  match c.handler with
  | .drainClear _ p _ | .drainRelease _ p _ => p
  | .deqRead pos | .deqClear pos _ | .deqRelease pos _ => pos
  | _ => c.queue.tail

/-- The first position whose value is still needed. -/
def Cpu.keep (c : Cpu K) : ℕ :=
  match c.handler with
  | .deqRead pos => pos
  | _ => c.queue.tail

/-- The positions before this one are done. Those that were drained are done after the flush. -/
def Cpu.covered (c : Cpu K) : ℕ :=
  match c.handler with
  | .drainTail _ | .drainHead _ _ | .drainScan _ _ _ _ | .drainRecheck _ _ | .drainCas _ _ _
  | .drainClear _ _ _ | .drainRelease _ _ _ | .flush _ => c.donePos
  | .deqRead pos | .deqClear pos _ | .deqRelease pos _ | .inval pos _ _ => pos
  | _ => c.queue.tail

/-- The positions from `t` to `p` are published. -/
def Cpu.Published (c : Cpu K) (t p : ℕ) : Prop :=
  ∀ q, t ≤ q → q < p → ∃ pl, c.item q = some (pl, .published)

/-- The requests for a flush up to `fr` were followed by one. -/
def Cpu.Flushed (c : Cpu K) (fr : ℕ) : Prop :=
  ∀ m, m ≠ 0 → m ≤ fr → .flush ∈ c.log.drop (c.flushAt m)

/-- What the handler knows at each point. -/
def Cpu.HandlerOk (c : Cpu K) : Prop :=
  match c.handler with
  | .loadDone fr | .drainTail fr | .drainRecheck fr _ | .flush fr =>
    c.flushDone ≤ fr ∧ fr ≤ c.flushReq
  | .drainHead fr t => (c.flushDone ≤ fr ∧ fr ≤ c.flushReq) ∧ t = c.queue.tail
  | .drainScan fr t last p =>
    (c.flushDone ≤ fr ∧ fr ≤ c.flushReq) ∧ t = c.queue.tail ∧ t ≤ p ∧ p ≤ last ∧
      last ≤ c.queue.head ∧ c.Published t p
  | .drainCas fr t p =>
    (c.flushDone ≤ fr ∧ fr ≤ c.flushReq) ∧ t = c.queue.tail ∧ t ≤ p ∧ p ≤ c.queue.head ∧
      c.Published t p
  | .drainClear fr p last =>
    (c.flushDone ≤ fr ∧ fr ≤ c.flushReq) ∧ last = c.queue.tail ∧ p ≤ last
  | .drainRelease fr p last =>
    (c.flushDone ≤ fr ∧ fr ≤ c.flushReq) ∧ last = c.queue.tail ∧ p < last
  | .storeFlush fr => (c.flushDone ≤ fr ∧ fr ≤ c.flushReq) ∧ c.Flushed fr
  | .deqSeq pos | .storeDone pos => pos = c.queue.tail
  | .deqCas pos => pos = c.queue.tail ∧ pos < c.queue.head ∧ c.Published pos (pos + 1)
  | .deqRead pos => c.queue.tail = pos + 1
  | .deqClear pos pl | .deqRelease pos pl =>
    c.queue.tail = pos + 1 ∧ ∃ e, c.entries pos = some e ∧ e.payload = pl
  | .inval pos pl start =>
    c.queue.tail = pos + 1 ∧
      ∃ e, c.entries pos = some e ∧ e.payload = pl ∧ Progress pl start (c.log.drop e.since)
  | .idle | .loadReq | .deqTail | .loadTail => True

/-- The invariant of a CPU. -/
structure CpuInv (c : Cpu K) : Prop where
  queue : c.queue.Ok tlbQueueSize c.rel c.keep c.item
  since : ∀ p e, c.entries p = some e → e.since ≤ c.log.length
  flushAt : ∀ m, m ≤ c.flushReq → c.flushAt m ≤ c.log.length
  covered : ∀ p e, p < c.covered → c.entries p = some e →
    Covers e.payload (c.log.drop e.since)
  donePos : c.donePos ≤ c.covered
  donePos_le : c.donePos ≤ c.queue.tail
  flushed : c.Flushed c.flushDone
  flushDone : c.flushDone ≤ c.flushReq
  handler : c.HandlerOk

theorem tlbCpuInit_inv : CpuInv (tlbCpuInit : Cpu K) where
  queue := SeqRing.Ok.init _ _
  since _ _ h := nomatch h
  flushAt _ _ := Nat.zero_le _
  covered _ _ _ h := nomatch h
  donePos := le_rfl
  donePos_le := le_rfl
  flushed _ hm hle := absurd (Nat.le_zero.1 hle) hm
  flushDone := le_rfl
  handler := trivial

variable {c c' : Cpu K} {p : ℕ}

theorem item_eq_some {ph : Phase} :
    c.item p = some (pl, ph) ↔ ∃ e, c.entries p = some e ∧ e.payload = pl ∧ e.phase = ph := by
  simp [item]

theorem CpuInv.covered_le (h : CpuInv c) : c.covered ≤ c.queue.tail := by
  have hok := h.handler
  have hdone := h.donePos_le
  unfold Cpu.covered
  unfold HandlerOk at hok
  cases hpc : c.handler <;> simp only [hpc] at hok ⊢ <;> omega

theorem CpuInv.entry (h : CpuInv c) (hp : p < c.queue.tail) : ∃ e, c.entries p = some e := by
  obtain ⟨pl, hitem⟩ := h.queue.taken p hp
  obtain ⟨e, he, -⟩ := item_eq_some.1 hitem
  exact ⟨e, he⟩

/-! ### What stays true of a CPU -/

/-- The CPU has gone on from `c` to `c'`, by its handler or by the call `o`. -/
structure Grows (o : Option K) (c c' : Cpu K) : Prop where
  log : c.log <+: c'.log
  entries : ∀ p e, c.entries p = some e → ∃ e', c'.entries p = some e' ∧ e'.caller = e.caller ∧
    e'.payload = e.payload ∧ e'.since = e.since ∧ (some e.caller ≠ o → e'.phase = e.phase) ∧
    (e.phase = .published → e'.phase = .published)
  head : c.queue.head ≤ c'.queue.head
  rel : c.rel ≤ c'.rel
  flushReq : c.flushReq ≤ c'.flushReq
  flushAt : ∀ m, m ≤ c.flushReq → c'.flushAt m = c.flushAt m
  donePos : c.donePos ≤ c'.donePos
  flushDone : c.flushDone ≤ c'.flushDone

theorem Grows.refl (o : Option K) (c : Cpu K) : Grows o c c where
  log := prefix_rfl
  entries _ e he := ⟨e, he, rfl, rfl, rfl, fun _ => rfl, id⟩
  head := le_rfl
  rel := le_rfl
  flushReq := le_rfl
  flushAt _ _ := rfl
  donePos := le_rfl
  flushDone := le_rfl

variable {o : Option K}

theorem Grows.published (hg : Grows o c c') {t : ℕ} (h : c.Published t p) : c'.Published t p := by
  intro q htq hqp
  obtain ⟨pl, hpl⟩ := h q htq hqp
  obtain ⟨e, he, hpay, hph⟩ := item_eq_some.1 hpl
  obtain ⟨e', he', -, hpay', -, -, hpub⟩ := hg.entries q e he
  exact ⟨pl, item_eq_some.2 ⟨e', he', hpay'.trans hpay, hpub hph⟩⟩

theorem Grows.flushed (hg : Grows o c c') {fr : ℕ} (hfr : fr ≤ c.flushReq) (h : c.Flushed fr) :
    c'.Flushed fr := by
  intro m hm hle
  rw [hg.flushAt m (by omega)]
  exact drop_subset_drop hg.log le_rfl (h m hm hle)

/-- Calls do not disturb the handler. -/
theorem Grows.handlerOk (hg : Grows o c c') (hpc : c'.handler = c.handler)
    (htail : c'.queue.tail = c.queue.tail) (hdone : c'.flushDone = c.flushDone)
    (h : c.HandlerOk) : c'.HandlerOk := by
  have hreq := hg.flushReq
  have hhead := hg.head
  have hentry {pos : ℕ} {pl : Payload} (he : ∃ e, c.entries pos = some e ∧ e.payload = pl) :
      ∃ e, c'.entries pos = some e ∧ e.payload = pl := by
    obtain ⟨e, he, hpl⟩ := he
    obtain ⟨e', he', -, hpl', -⟩ := hg.entries pos e he
    exact ⟨e', he', hpl'.trans hpl⟩
  unfold HandlerOk at h ⊢
  rw [hpc, htail, hdone]
  cases hcase : c.handler <;> simp only [hcase] at h ⊢
  case loadDone | drainTail | drainHead | drainRecheck | drainClear | drainRelease | flush => omega
  case drainScan => exact ⟨by omega, h.2.1, h.2.2.1, h.2.2.2.1, by omega, hg.published h.2.2.2.2.2⟩
  case drainCas => exact ⟨by omega, h.2.1, h.2.2.1, by omega, hg.published h.2.2.2.2⟩
  case storeFlush => exact ⟨by omega, hg.flushed h.1.2 h.2⟩
  case deqSeq | deqRead | storeDone => exact h
  case deqCas => exact ⟨h.1, by omega, hg.published h.2.2⟩
  case deqClear | deqRelease => exact ⟨h.1, hentry h.2⟩
  case inval =>
    obtain ⟨ht, e, he, hpl, hprog⟩ := h
    obtain ⟨e', he', -, hpl', hsince, -⟩ := hg.entries _ e he
    refine ⟨ht, e', he', hpl'.trans hpl, hprog.mono ?_⟩
    rw [hsince]
    exact drop_subset_drop hg.log le_rfl

/-- A call that has the CPU as a target keeps the invariant. -/
theorem CpuInv.grow (h : CpuInv c) (hg : Grows o c c') (hpc : c'.handler = c.handler)
    (htail : c'.queue.tail = c.queue.tail) (hdone : c'.donePos = c.donePos)
    (hflush : c'.flushDone = c.flushDone) (hqueue : c'.queue.Ok tlbQueueSize c.rel c.keep c'.item)
    (hsince : ∀ p e, c'.entries p = some e → e.since ≤ c'.log.length)
    (hflushAt : ∀ m, m ≤ c'.flushReq → c'.flushAt m ≤ c'.log.length) : CpuInv c' := by
  have hrel : c'.rel = c.rel := by simp only [rel, hpc, htail]
  have hkeep : c'.keep = c.keep := by simp only [keep, hpc, htail]
  have hcov : c'.covered = c.covered := by simp only [Cpu.covered, hpc, htail, hdone]
  refine ⟨?_, hsince, hflushAt, fun p e' hp he' => ?_, ?_, ?_, ?_, ?_, ?_⟩
  · rw [hrel, hkeep]
    exact hqueue
  · rw [hcov] at hp
    obtain ⟨e, he⟩ := h.entry (hp.trans_le h.covered_le)
    obtain ⟨e₁, he₁, -, hpay, hsince, -⟩ := hg.entries p e he
    obtain rfl := some.inj (he'.symm.trans he₁)
    rw [hpay, hsince]
    exact (h.covered p e hp he).mono (drop_subset_drop hg.log le_rfl)
  · rw [hdone, hcov]
    exact h.donePos
  · rw [hdone, htail]
    exact h.donePos_le
  · rw [hflush]
    exact hg.flushed h.flushDone h.flushed
  · rw [hflush]
    exact h.flushDone.trans hg.flushReq
  · exact hg.handlerOk hpc htail hflush h.handler

/-! ### Steps of calls -/

section Calls

variable {k : K} {pl : Payload} {pos : ℕ} {e : Entry K}

/-- The log grows. -/
theorem CpuInv.append (h : CpuInv c) (o : Option K) (l : List Event) :
    CpuInv { c with log := c.log ++ l } ∧ Grows o c { c with log := c.log ++ l } := by
  have hg : Grows o c { c with log := c.log ++ l } :=
    { Grows.refl o c with log := prefix_append .. }
  refine ⟨h.grow hg rfl rfl rfl rfl h.queue (fun p e he => ?_) fun m hm => ?_, hg⟩
  · exact (h.since p e he).trans hg.log.length_le
  · exact (h.flushAt m hm).trans hg.log.length_le

theorem CpuInv.sendIpi (h : CpuInv c) (o : Option K) :
    CpuInv { c with ipi := true } ∧ Grows o c { c with ipi := true } := by
  have hg : Grows o c { c with ipi := true } := { Grows.refl o c with }
  exact ⟨h.grow hg rfl rfl rfl rfl h.queue h.since h.flushAt, hg⟩

theorem CpuInv.bump (h : CpuInv c) (o : Option K) : CpuInv c.bump ∧ Grows o c c.bump := by
  have hg : Grows o c c.bump :=
    { Grows.refl o c with
      flushReq := Nat.le_succ _
      flushAt := fun m hm => update_of_ne (by omega) .. }
  refine ⟨h.grow hg rfl rfl rfl rfl h.queue h.since fun m hm => ?_, hg⟩
  rcases eq_or_ne m (c.flushReq + 1) with rfl | hne
  · exact (update_self ..).le
  · simp only [Cpu.bump, update_of_ne hne] at hm ⊢
    exact h.flushAt m (by omega)

theorem item_update {queue : SeqRing Payload} :
    item { c with queue := queue, entries := update c.entries pos (some e) } =
      update c.item pos (some (e.payload, e.phase)) := by
  funext p
  rcases eq_or_ne p pos with rfl | hne
  · simp [item]
  · simp [item, hne]

theorem since_update (h : CpuInv c) (he : e.since ≤ c.log.length) :
    ∀ p e₁, update c.entries pos (some e) p = some e₁ → e₁.since ≤ c.log.length := by
  refine (forall_update_iff c.entries fun _ x => ∀ e₁, x = some e₁ → e₁.since ≤ _).mpr
    ⟨?_, fun p _ => h.since p⟩
  rintro _ ⟨⟩
  exact he

theorem CpuInv.claim (h : CpuInv c) (hlt : c.queue.head < c.rel + tlbQueueSize) (k : K)
    (pl : Payload) : CpuInv (c.claim k pl) ∧ Grows (some k) c (c.claim k pl) := by
  have hfresh (p : ℕ) (e : Entry K) (he : c.entries p = some e) : p ≠ c.queue.head := by
    rintro rfl
    have := h.queue.unclaimed _ le_rfl
    simp [item, he] at this
  have hg : Grows (some k) c (c.claim k pl) :=
    { Grows.refl (some k) c with
      head := Nat.le_succ _
      entries := fun p e he =>
        ⟨e, (update_of_ne (hfresh p e he) ..).trans he, rfl, rfl, rfl, fun _ => rfl, id⟩ }
  refine ⟨h.grow hg rfl rfl rfl rfl ?_ (fun p e he => ?_) h.flushAt, hg⟩
  · rw [Cpu.claim, item_update]
    exact h.queue.claim hlt pl
  · exact since_update h le_rfl p e he

/-- The phase of an entry of the call moves on. -/
theorem CpuInv.setPhase (h : CpuInv c) (he : c.entries pos = some e) (hph : e.phase ≠ .published)
    (ph : Phase) {queue : SeqRing Payload} (hhead : queue.head = c.queue.head)
    (htail : queue.tail = c.queue.tail)
    (hqueue : queue.Ok tlbQueueSize c.rel c.keep (update c.item pos (some (e.payload, ph)))) :
    let c' := { c with
      queue := queue
      entries := update c.entries pos (some { e with phase := ph }) }
    CpuInv c' ∧ Grows (some e.caller) c c' := by
  intro c'
  have hg : Grows (some e.caller) c c' :=
    { Grows.refl (some e.caller) c with
      head := hhead.ge
      rel := by
        simp only [c', rel, htail]
        exact le_rfl
      entries := fun p e₁ he₁ => by
        rcases eq_or_ne p pos with rfl | hne
        · obtain rfl := some.inj (he.symm.trans he₁)
          exact ⟨{ e with phase := ph }, update_self .., rfl, rfl, rfl, fun hc => absurd rfl hc,
            fun hp => absurd hp hph⟩
        · exact ⟨e₁, (update_of_ne hne ..).trans he₁, rfl, rfl, rfl, fun _ => rfl, id⟩ }
  refine ⟨h.grow hg rfl htail rfl rfl ?_ (since_update h (h.since pos e he)) h.flushAt, hg⟩
  rw [item_update]
  exact hqueue

theorem CpuInv.write (h : CpuInv c) (he : c.entries pos = some e) (hph : e.phase = .claimed) :
    CpuInv (c.write pos e.payload) ∧ Grows (some e.caller) c (c.write pos e.payload) := by
  rw [Cpu.write, he, map_some]
  exact h.setPhase he (by rw [hph]; decide) .written rfl rfl
    (h.queue.write (item_eq_some.2 ⟨e, he, rfl, hph⟩))

theorem CpuInv.publish (h : CpuInv c) (he : c.entries pos = some e) (hph : e.phase = .written) :
    CpuInv (c.publish pos) ∧ Grows (some e.caller) c (c.publish pos) := by
  rw [Cpu.publish, he, map_some]
  exact h.setPhase he (by rw [hph]; decide) .published rfl rfl
    (h.queue.publish (item_eq_some.2 ⟨e, he, rfl, hph⟩))

end Calls

/-! ### Steps of the handler -/

section Handler

/-- The handler goes on to `pc`. It may change the slots and move the tail. -/
theorem CpuInv.goto (h : CpuInv c) {queue : SeqRing Payload} (pc : HandlerPc) (o : Option K) :
    let c' := { c with queue := queue, handler := pc }
    queue.Ok tlbQueueSize c'.rel c'.keep c.item → c.rel ≤ c'.rel →
    (∀ p e, p < c'.covered → c.entries p = some e → Covers e.payload (c.log.drop e.since)) →
    c.donePos ≤ c'.covered → c'.HandlerOk → (hhead : queue.head = c.queue.head := by rfl) →
    (htail : c.queue.tail ≤ queue.tail := by exact le_rfl) → CpuInv c' ∧ Grows o c c' := by
  intro c' hqueue hrel hcov hdone hok hhead htail
  refine ⟨⟨hqueue, h.since, h.flushAt, hcov, hdone, h.donePos_le.trans htail, h.flushed,
    h.flushDone, hok⟩, ?_⟩
  exact { Grows.refl o c with head := hhead.ge, rel := hrel }

theorem CpuInv.rel_le (h : CpuInv c) : c.rel ≤ c.queue.tail := h.queue.rel_le.trans h.queue.keep_le

theorem Grows.trans {c'' : Cpu K} (h : Grows o c c') (h' : Grows o c' c'') : Grows o c c'' where
  log := h.log.trans h'.log
  entries p e he := by
    obtain ⟨e₁, he₁, hcaller, hpay, hsince, hph, hpub⟩ := h.entries p e he
    obtain ⟨e₂, he₂, hcaller', hpay', hsince', hph', hpub'⟩ := h'.entries p e₁ he₁
    refine ⟨e₂, he₂, hcaller'.trans hcaller, hpay'.trans hpay, hsince'.trans hsince, fun hne => ?_,
      fun hp => hpub' (hpub hp)⟩
    rw [hph' (by rw [hcaller]; exact hne), hph hne]
  head := h.head.trans h'.head
  rel := h.rel.trans h'.rel
  flushReq := h.flushReq.trans h'.flushReq
  flushAt m hm := (h'.flushAt m (hm.trans h.flushReq)).trans (h.flushAt m hm)
  donePos := h.donePos.trans h'.donePos
  flushDone := h.flushDone.trans h'.flushDone

/-- The handler drains the ring and flushes. -/
def HandlerPc.flushes : HandlerPc → Bool
  | .drainTail _ | .drainHead _ _ | .drainScan _ _ _ _ | .drainRecheck _ _ | .drainCas _ _ _
  | .drainClear _ _ _ | .drainRelease _ _ _ | .flush _ | .storeFlush _ => true
  | _ => false

/-- The steps of a full flush keep the invariant. -/
theorem ringInvalidate_flush_inv (h : CpuInv c) (fail : Bool) (o : Option K)
    (hphase : c.handler.flushes) :
    match ringInvalidate c fail with
    | some c' => CpuInv c' ∧ Grows o c c'
    | none => True := by
  have hok := h.handler
  have hqueue := h.queue
  have hcov := h.covered
  have hdone := h.donePos
  have hrel := h.rel_le
  cases hpc : c.handler <;> rw [hpc] at hphase <;> try cases hphase
  all_goals
    simp only [ringInvalidate, hpc]
    simp only [HandlerOk, hpc] at hok
    simp only [rel, keep, hpc] at hqueue
    simp only [covered, hpc] at hcov hdone
  case drainTail fr =>
    exact h.goto _ o hqueue hrel hcov hdone ⟨hok, rfl⟩
  case drainHead fr t =>
    refine h.goto _ o hqueue hrel hcov hdone ⟨hok.1, hok.2, le_rfl, ?_, le_rfl, fun q hq hq' => ?_⟩
    · rw [hok.2]
      exact h.queue.tail_le
    · omega
  case drainScan fr t last p =>
    obtain ⟨hfr, ht, htp, hlast, hhead, hpub⟩ := hok
    split_ifs with hseq hpt
    · have hlt : p < last := lt_of_le_of_ne hlast hseq.1
      refine h.goto _ o hqueue hrel hcov hdone
        ⟨hfr, ht, by omega, hlt, hhead, fun q hq hq' => ?_⟩
      rcases Nat.lt_succ_iff_lt_or_eq.1 hq' with hlt | rfl
      · exact hpub q hq hlt
      · exact hqueue.published_of_seq (by omega) (by omega) hseq.2
    · exact h.goto _ o hqueue hrel hcov hdone hfr
    · exact h.goto _ o hqueue hrel hcov hdone ⟨hfr, ht, htp, hlast.trans hhead, hpub⟩
  case drainRecheck fr t =>
    by_cases ht : c.queue.tail ≠ t
    · rw [if_pos ht]
      exact h.goto _ o hqueue hrel hcov hdone hok
    · rw [if_neg ht]
      exact h.goto _ o hqueue hrel hcov hdone hok
  case drainCas fr t p =>
    obtain ⟨hfr, ht, htp, hhead, hpub⟩ := hok
    split_ifs with hcas
    · subst ht
      exact h.goto _ o ((hqueue.take htp hhead hpub).forget htp le_rfl) hrel hcov hdone
        ⟨hfr, rfl, htp⟩ rfl htp
    · exact h.goto _ o hqueue hrel hcov hdone hfr
  case drainClear fr p last =>
    obtain ⟨hfr, rfl, hp⟩ := hok
    split_ifs with hlast
    · subst hlast
      exact h.goto _ o hqueue hrel hcov hdone hfr
    · refine h.goto _ o (hqueue.clear le_rfl (by omega) _) ?_ hcov hdone ⟨hfr, rfl, by omega⟩
      simp only [rel, hpc]
      exact le_rfl
  case drainRelease fr p last =>
    obtain ⟨hfr, rfl, hp⟩ := hok
    refine h.goto _ o (hqueue.release (by decide) hp) ?_ hcov hdone ⟨hfr, rfl, by omega⟩
    simp only [rel, hpc]
    omega
  case flush fr =>
    obtain ⟨hinv, hg⟩ := h.append o [.flush]
    have hin (m : ℕ) (hm : m ≤ c.log.length) : Event.flush ∈ (c.log ++ [Event.flush]).drop m := by
      rw [drop_append_of_le_length hm]
      exact mem_append_right _ (mem_singleton_self _)
    obtain ⟨hinv', hg'⟩ := hinv.goto (.storeFlush fr) o hqueue hinv.rel_le
      (fun p e _ he => .inl (hin _ (h.since p e he))) h.donePos_le
      ⟨hok, fun m _ hm => hin _ (h.flushAt m (hm.trans hok.2))⟩
    exact ⟨hinv', hg.trans hg'⟩
  case storeFlush fr =>
    obtain ⟨hfr, hflushed⟩ := hok
    refine ⟨⟨hqueue, h.since, h.flushAt, hcov, hdone, h.donePos_le, hflushed, hfr.2, trivial⟩, ?_⟩
    exact { Grows.refl o c with rel := hrel, flushDone := hfr.1 }

/-- When the handler invalidates for a position and its payload is done, the position is. -/
theorem CpuInv.inval {pos : ℕ} {start : BitVec 64} (h : CpuInv c)
    (hpc : c.handler = .inval pos pl start) (o : Option K) :
    let c' := { c with
      log := c.log ++ (payloadInvalidate pl start).1
      handler := match (payloadInvalidate pl start).2 with
        | some next => .inval pos pl next
        | none => .deqTail }
    CpuInv c' ∧ Grows o c c' := by
  have hok := h.handler
  have hqueue := h.queue
  simp only [HandlerOk, hpc] at hok
  simp only [rel, keep, hpc] at hqueue
  obtain ⟨ht, e, he, rfl, hprog⟩ := hok
  obtain ⟨hinv, hg⟩ := h.append o (payloadInvalidate e.payload start).1
  have hdrop : (c.log ++ (payloadInvalidate e.payload start).1).drop e.since = _ :=
    drop_append_of_le_length (h.since pos e he)
  have hcov := hinv.covered
  have hdone := hinv.donePos
  simp only [Cpu.covered, hpc] at hcov hdone
  rcases hnext : (payloadInvalidate e.payload start).2 with _ | next
  · have hcovers := hprog.covers hnext
    rw [← hdrop] at hcovers
    obtain ⟨hinv', hg'⟩ := hinv.goto .deqTail o hqueue hinv.rel_le
      (fun p e₁ hp he₁ => by
        rcases Nat.lt_succ_iff_lt_or_eq.1 (ht ▸ hp : p < pos + 1) with hlt | rfl
        · exact hcov p e₁ hlt he₁
        · obtain rfl := some.inj (he.symm.trans he₁)
          exact hcovers)
      h.donePos_le trivial
    exact ⟨hinv', hg.trans hg'⟩
  · have hprog' := hprog.next hnext
    rw [← hdrop] at hprog'
    obtain ⟨hinv', hg'⟩ := hinv.goto (.inval pos e.payload next) o hqueue hinv.rel_le
      hcov hdone ⟨ht, e, he, rfl, hprog'⟩
    exact ⟨hinv', hg.trans hg'⟩

/-- Every step of the handler keeps the invariant. -/
theorem ringInvalidate_inv (h : CpuInv c) (fail : Bool) (o : Option K) :
    match ringInvalidate c fail with
    | some c' => CpuInv c' ∧ Grows o c c'
    | none => True := by
  by_cases hphase : c.handler.flushes
  · exact ringInvalidate_flush_inv h fail o hphase
  have hok := h.handler
  have hqueue := h.queue
  have hcov := h.covered
  have hdone := h.donePos
  have htail := h.donePos_le
  have hrel := h.rel_le
  have hsize : 2 ≤ tlbQueueSize := by decide
  cases hpc : c.handler <;> rw [hpc] at hphase <;> try exact absurd rfl hphase
  all_goals
    simp only [ringInvalidate, hpc]
    simp only [HandlerOk, hpc] at hok
    simp only [rel, keep, hpc] at hqueue
    simp only [covered, hpc] at hcov hdone
  case idle =>
    split_ifs
    · obtain ⟨hinv, hg⟩ := h.goto .loadReq o hqueue hrel hcov hdone trivial
      exact ⟨{ hinv with }, { hg with }⟩
    · trivial
  case loadReq =>
    exact h.goto _ o hqueue hrel hcov hdone ⟨h.flushDone, le_rfl⟩
  case loadDone fr =>
    by_cases hfr : fr ≠ c.flushDone
    · rw [if_pos hfr]
      exact h.goto _ o hqueue hrel (fun p e hp => hcov p e (hp.trans_le htail)) le_rfl hok
    · rw [if_neg hfr]
      exact h.goto _ o hqueue hrel hcov hdone trivial
  case deqTail | loadTail =>
    exact h.goto _ o hqueue hrel hcov hdone rfl
  case deqSeq pos =>
    subst hok
    split_ifs with hseq hlt
    · have hhead := hqueue.tail_lt_of_seq hsize rfl hseq
      refine h.goto _ o hqueue hrel hcov hdone ⟨rfl, hhead, fun q hq hq' => ?_⟩
      obtain rfl : q = c.queue.tail := by omega
      exact hqueue.published_of_seq le_rfl hhead hseq
    · exact h.goto _ o hqueue hrel hcov hdone trivial
    · exact h.goto _ o hqueue hrel hcov hdone trivial
  case deqCas pos =>
    obtain ⟨rfl, hhead, hpub⟩ := hok
    split_ifs with hcas
    · exact h.goto _ o (hqueue.take (Nat.le_succ _) hhead hpub) hrel hcov hdone rfl rfl
        (Nat.le_succ _)
    · exact h.goto _ o hqueue hrel hcov hdone trivial
  case deqRead pos =>
    obtain ⟨pl, hitem⟩ := hqueue.taken pos (by omega)
    have hval := hqueue.val_item pos pl _ le_rfl hitem (by decide)
    obtain ⟨e, he, hpl, -⟩ := item_eq_some.1 hitem
    refine h.goto _ o (hqueue.forget (show pos ≤ c.queue.tail by omega) le_rfl) ?_ hcov hdone
      ⟨hok, e, he, ?_⟩
    · simp only [Cpu.rel, hpc]
      exact le_rfl
    · rw [hpl, hval]
  case deqClear pos pl =>
    refine h.goto _ o (hqueue.clear le_rfl (by omega) _) ?_ hcov hdone hok
    simp only [rel, hpc]
    exact le_rfl
  case deqRelease pos pl =>
    obtain ⟨ht, e, he, hpl⟩ := hok
    have hrelease := hqueue.release hsize (by omega)
    rw [← ht] at hrelease
    refine h.goto _ o hrelease ?_ hcov hdone ⟨ht, e, he, hpl, progress_start ..⟩
    simp only [rel, hpc]
    omega
  case inval pos pl start =>
    exact h.inval hpc o
  case storeDone pos =>
    subst hok
    refine ⟨⟨hqueue, h.since, h.flushAt, hcov, le_rfl, le_rfl, h.flushed, h.flushDone, trivial⟩, ?_⟩
    exact { Grows.refl o c with rel := hrel, donePos := htail }

end Handler

end Charmos.Tlb
