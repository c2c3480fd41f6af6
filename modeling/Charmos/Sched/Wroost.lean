import Mathlib.Data.Nat.Notation
import Mathlib.Logic.Function.Basic
import Mathlib.Logic.Relation

/-!
# Kicks of the writer-to-reader boost

`percpu_boost_kick` and `wroost_dpc` of `kernel/sch/wroost.c`, one atomic step at a time, with the
part of `kernel/thread/dpc.c` that queues and starts a DPC. A kick sets the lock's bit in the
pending bitmap of the target CPU, raises the two flags of the CPU's state word, and enqueues the
boost DPC of that CPU. The DPC lowers `WROOST_DPC_PENDING`, empties the words of the bitmap in two
passes, and retires by a compare and swap from `WROOST_DPC_ACTIVE` to `WROOST_DPC_IDLE`; if the
word has changed meanwhile it starts again.

Which readers the processing of a word boosts is left open. What it does to the words modelled here
is kept: it may pend bits on its own CPU (`wroost_merge_kicks`, which always ends in a restart), ask
for a restart, which sends the scan back to the first word, or let the scan go on.

A kick enqueues the DPC if it found `WROOST_DPC_ACTIVE` raised and returns if it did not, so the
kick of an idle CPU enqueues nothing (`wroostRun_lost`); `KickMeets` excludes this.
-/

namespace Charmos.Sched

open Option Relation Function

/-- Where the boost DPC of a CPU stands. -/
inductive DpcPc
  | idle
  /-- Taken off the queue, before `enqueued` is cleared. -/
  | stolen
  /-- Before `WROOST_DPC_PENDING` is lowered. -/
  | top
  /-- Before the exchange of the word in the pass under both locks. -/
  | first (w : ℕ)
  /-- In `process_pending_word`. -/
  | firstWord (w : ℕ)
  /-- Before the exchange of the word in the pass under `wroost_lock` only. -/
  | second (w : ℕ)
  /-- In `process_pending_word_ts`. -/
  | secondWord (w : ℕ)
  /-- At the readers that `ts_requeue_pending` asks to propagate. -/
  | requeue
  /-- A bit was pended on this CPU, so `restart` is set or about to be. -/
  | restart
  /-- Before the compare and swap to `WROOST_DPC_IDLE`. -/
  | retire
  deriving DecidableEq, Repr

/-- What the processing of a word comes to. -/
inductive Outcome
  | goOn
  | restart
  /-- A boosted reader waits as a writer for readers of this CPU: its lock's bit is pended. -/
  | pend (lockId : ℕ)
  deriving DecidableEq, Repr

/-- `struct wroost_percpu_data`: the two flags of `state`, the pending bitmap, and the boost DPC
with its `enqueued` flag and whether it is in the CPU's queue. -/
structure Percpu where
  pending : Bool
  active : Bool
  bitmap : ℕ → Bool
  enqueued : Bool
  queued : Bool
  dpc : DpcPc

/-- Where a call of `percpu_boost_kick` stands, with its target CPU. -/
inductive KickPc
  | idle
  /-- Before the state word is raised. -/
  | raise (cpu : ℕ)
  /-- In `dpc_enqueue_on_cpu`, before the exchange of `enqueued`. -/
  | enqueue (cpu : ℕ)
  /-- Before the DPC is pushed to the queue. -/
  | push (cpu : ℕ)
  deriving DecidableEq, Repr

/-- The CPUs' data and the kicks under way; `words` is `BITMAP_WORDS(bucket_count())`. -/
structure Wroost where
  words : ℕ
  percpu : ℕ → Percpu
  kick : ℕ → KickPc

/-- `BIT_SIZEOF(bitmap_word_t)`. -/
def wordBits : ℕ := 64

/-- The word of a lock's bit. -/
def wordOf (lockId : ℕ) : ℕ := lockId / wordBits

namespace Wroost

variable (s : Wroost)

/-- The data of one CPU are replaced. -/
def setCpu (t : ℕ) (d : Percpu) : Wroost := { s with percpu := update s.percpu t d }

/-- A kick moves on. -/
def setKick (k : ℕ) (c : KickPc) : Wroost := { s with kick := update s.kick k c }

end Wroost

/-- `atomic_xchg(&pending_bitmap[w], 0)`. -/
def Percpu.clearWord (d : Percpu) (w : ℕ) : Percpu :=
  { d with bitmap := fun i => d.bitmap i && decide (wordOf i ≠ w) }

/-- The atomic steps. `k` names a call of `percpu_boost_kick` and `t` a CPU. -/
inductive WroostAct
  /-- The first step of a kick, with `WROOST_KICK_UPDATE_PENDING` or without. -/
  | call (k t lockId : ℕ) (update : Bool)
  | raise (k : ℕ)
  | enqueue (k : ℕ)
  | push (k : ℕ)
  /-- The CPU takes the DPC off its queue. -/
  | steal (t : ℕ)
  /-- One step of the DPC; `o` is read where it processes a word. -/
  | dpc (t : ℕ) (o : Outcome)
  deriving DecidableEq, Repr

/-- `atomic_fetch_or(&pending_bitmap[word], BIT(idx))`. -/
def Percpu.pend (d : Percpu) (lockId : ℕ) : Percpu :=
  { d with bitmap := update d.bitmap lockId true }

/-- The end of the processing of a word, with the place the scan goes on at. -/
def processed (words : ℕ) (d : Percpu) (next : DpcPc) : Outcome → Option Percpu
  | .goOn => some { d with dpc := next }
  | .restart => some { d with dpc := .first 0 }
  | .pend lockId =>
    if wordOf lockId < words then some { d.pend lockId with dpc := .restart } else none

/-- One step of `wroost_dpc`, and of the loop of `dpc_execute_all_in_queue` that starts it. -/
def dpcStep (words : ℕ) (d : Percpu) (o : Outcome) : Option Percpu :=
  match d.dpc with
  | .idle => none
  | .stolen => some { d with enqueued := false, dpc := .top }
  | .top => some { d with pending := false, dpc := .first 0 }
  | .first w => some { d.clearWord w with dpc := .firstWord w }
  | .firstWord w => processed words d (if w + 1 < words then .first (w + 1) else .second 0) o
  | .second w => some { d.clearWord w with dpc := .secondWord w }
  | .secondWord w => processed words d (if w + 1 < words then .second (w + 1) else .requeue) o
  | .requeue => processed words d .retire o
  | .restart => processed words d (.first 0) o
  | .retire =>
    -- the compare and swap wants `WROOST_DPC_ACTIVE` and no other flag
    if d.active && !d.pending then some { d with active := false, dpc := .idle }
    else some { d with dpc := .top }

/-- One atomic step, if it can be taken. -/
def wroostStep (s : Wroost) : WroostAct → Option Wroost
  | .call k t lockId update =>
    if s.kick k = .idle ∧ wordOf lockId < s.words then
      let d := s.percpu t
      if update then
        if d.bitmap lockId then some s
        else some ((s.setCpu t (d.pend lockId)).setKick k (.raise t))
      else some (s.setKick k (.raise t))
    else none
  | .raise k =>
    match s.kick k with
    | .raise t =>
      let d := s.percpu t
      some ((s.setCpu t { d with pending := true, active := true }).setKick k
        (if d.active then .enqueue t else .idle))
    | _ => none
  | .enqueue k =>
    match s.kick k with
    | .enqueue t =>
      let d := s.percpu t
      some ((s.setCpu t { d with enqueued := true }).setKick k
        (if d.enqueued then .idle else .push t))
    | _ => none
  | .push k =>
    match s.kick k with
    | .push t => some ((s.setCpu t { s.percpu t with queued := true }).setKick k .idle)
    | _ => none
  | .steal t =>
    let d := s.percpu t
    if d.queued ∧ d.dpc = .idle then some (s.setCpu t { d with queued := false, dpc := .stolen })
    else none
  | .dpc t o => (dpcStep s.words (s.percpu t) o).map (s.setCpu t)

/-- `WROOST_DPC_IDLE` with empty bitmaps on every CPU. -/
def wroostInit (words : ℕ) : Wroost where
  words := words
  percpu _ := ⟨false, false, fun _ => false, false, false, .idle⟩
  kick _ := .idle

/-! ### What provides for a pending bit -/

/-- The CPU that a kick under way is for. -/
def KickPc.target : KickPc → Option ℕ
  | .idle => none
  | .raise t | .enqueue t | .push t => some t

/-- Some kick of the CPU has not returned. -/
def KickUnderWay (s : Wroost) (t : ℕ) : Prop := ∃ k, (s.kick k).target = some t

/-- The DPC, taken or running, is bound to exchange word `w` again: it has not come to the word in
its second pass, or a restart is due, or the compare and swap will fail and send it back. -/
def Percpu.Rescans (d : Percpu) (w : ℕ) : Prop :=
  match d.dpc with
  | .idle => False
  | .stolen | .top | .first _ | .firstWord _ | .restart => True
  | .second v => v ≤ w ∨ d.pending = true ∨ d.active = false
  | .secondWord v => v < w ∨ d.pending = true ∨ d.active = false
  | .requeue | .retire => d.pending = true ∨ d.active = false

/-- Every pending bit of every CPU has a queued DPC, a running one that will scan it, or a kick
that has not returned. -/
def Provided (s : Wroost) : Prop :=
  ∀ t i, (s.percpu t).bitmap i = true →
    (s.percpu t).queued = true ∨ (s.percpu t).Rescans (wordOf i) ∨ KickUnderWay s t

/-- A kick that meets a state word without `WROOST_DPC_ACTIVE` does so while the DPC is queued or
running all the same, or no bit is pending, or another kick of the CPU is under way. -/
def KickMeets (s : Wroost) : WroostAct → Prop
  | .raise k => ∀ t, s.kick k = .raise t → (s.percpu t).active = false →
      (s.percpu t).queued = true ∨ (s.percpu t).dpc ≠ .idle ∨
        (∀ i, (s.percpu t).bitmap i = false) ∨ ∃ j, j ≠ k ∧ (s.kick j).target = some t
  | _ => True

/-- One step under that condition. -/
def KickStep (s s' : Wroost) : Prop := ∃ a, wroostStep s a = some s' ∧ KickMeets s a

/-! ### What one step does to one CPU -/

/-- The invariant at one CPU: its bits are of words that are scanned and are provided for, and a
raised `enqueued` flag belongs to a DPC that is queued, taken, or about to be pushed. -/
structure CpuOk (s : Wroost) (t : ℕ) : Prop where
  scanned : ∀ i, (s.percpu t).bitmap i = true → wordOf i < s.words
  provided : ∀ i, (s.percpu t).bitmap i = true →
    (s.percpu t).queued = true ∨ (s.percpu t).Rescans (wordOf i) ∨ KickUnderWay s t
  enqueued : (s.percpu t).enqueued = true →
    (s.percpu t).queued = true ∨ (s.percpu t).dpc = .stolen ∨ ∃ k, s.kick k = .push t

/-- What a step that leaves the data of a CPU and its kicks alone keeps. -/
private theorem CpuOk.frame {s s' : Wroost} {t : ℕ} (h : CpuOk s t) (hw : s'.words = s.words)
    (hd : s'.percpu t = s.percpu t)
    (hk : ∀ k, (s.kick k).target = some t → s'.kick k = s.kick k) : CpuOk s' t := by
  refine ⟨?_, ?_, ?_⟩
  · rw [hd, hw]
    exact h.scanned
  · rw [hd]
    intro i hi
    rcases h.provided i hi with hq | hr | ⟨k, hk'⟩
    · exact .inl hq
    · exact .inr (.inl hr)
    · exact .inr (.inr ⟨k, by rw [hk k hk', hk']⟩)
  · rw [hd]
    intro he
    rcases h.enqueued he with hq | hs | ⟨k, hk'⟩
    · exact .inl hq
    · exact .inr (.inl hs)
    · exact .inr (.inr ⟨k, by rw [hk k (by rw [hk']; rfl), hk']⟩)

namespace Wroost

variable {s : Wroost} {t u k j : ℕ} {d : Percpu} {c : KickPc}

@[simp] theorem setCpu_words : (s.setCpu t d).words = s.words := rfl

@[simp] theorem setKick_words : (s.setKick k c).words = s.words := rfl

@[simp] theorem setCpu_kick : (s.setCpu t d).kick = s.kick := rfl

@[simp] theorem setKick_percpu : (s.setKick k c).percpu = s.percpu := rfl

@[simp] theorem setCpu_percpu_self : (s.setCpu t d).percpu t = d := by simp [setCpu]

theorem setCpu_percpu_of_ne (h : u ≠ t) : (s.setCpu t d).percpu u = s.percpu u := by
  simp [setCpu, h]

@[simp] theorem setKick_kick_self : (s.setKick k c).kick k = c := by simp [setKick]

theorem setKick_kick_of_ne (h : j ≠ k) : (s.setKick k c).kick j = s.kick j := by
  simp [setKick, h]

end Wroost

variable {d : Percpu}

/-- A kick that is not for CPU `u`, before and after, may write another CPU's data. -/
private theorem CpuOk.kick_other {s : Wroost} {t u k : ℕ} {c : KickPc} (h : CpuOk s u) (hu : u ≠ t)
    (hk : (s.kick k).target ≠ some u) : CpuOk ((s.setCpu t d).setKick k c) u := by
  refine h.frame rfl (Wroost.setCpu_percpu_of_ne hu) ?_
  intro j hj
  have hjk : j ≠ k := by
    rintro rfl
    exact hk hj
  exact Wroost.setKick_kick_of_ne hjk

/-- What a step of the DPC may do to the CPU's data: a bit that is left is bound to be scanned
unless it was there before and was not, and `enqueued` is cleared when the DPC leaves the taken
state. -/
structure DpcEffect (words : ℕ) (d d' : Percpu) : Prop where
  queued : d'.queued = d.queued
  enqueued : d'.enqueued = true → d.enqueued = true ∧ d.dpc ≠ .stolen
  scanned : ∀ i, d'.bitmap i = true → wordOf i < words
  bits : ∀ i, d'.bitmap i = true →
    d'.Rescans (wordOf i) ∨ d.bitmap i = true ∧ ¬ d.Rescans (wordOf i)

variable {words : ℕ}

/-- A step that keeps the bits, to a place from which what was bound to be scanned still is. -/
private theorem DpcEffect.move {c : DpcPc} {p a : Bool}
    (hs : ∀ i, d.bitmap i = true → wordOf i < words) (hne : d.dpc ≠ .stolen)
    (hr : ∀ i, d.bitmap i = true → d.Rescans (wordOf i) →
      ({ d with pending := p, active := a, dpc := c } : Percpu).Rescans (wordOf i)) :
    DpcEffect words d { d with pending := p, active := a, dpc := c } := by
  refine ⟨rfl, fun he => ⟨he, hne⟩, hs, ?_⟩
  intro i hi
  by_cases hd : d.Rescans (wordOf i)
  · exact .inl (hr i hi hd)
  · exact .inr ⟨hi, hd⟩

/-- The exchange of a word. -/
private theorem DpcEffect.clear {w : ℕ} {c : DpcPc} (hs : ∀ i, d.bitmap i = true → wordOf i < words)
    (hne : d.dpc ≠ .stolen)
    (hr : ∀ v, v ≠ w → d.Rescans v → ({ d.clearWord w with dpc := c } : Percpu).Rescans v) :
    DpcEffect words d { d.clearWord w with dpc := c } := by
  have hbit : ∀ i, (d.clearWord w).bitmap i = true → d.bitmap i = true ∧ wordOf i ≠ w := by
    intro i hi
    simpa [Percpu.clearWord] using hi
  refine ⟨rfl, fun he => ⟨he, hne⟩, fun i hi => hs i (hbit i hi).1, ?_⟩
  intro i hi
  by_cases hd : d.Rescans (wordOf i)
  · exact .inl (hr _ (hbit i hi).2 hd)
  · exact .inr ⟨(hbit i hi).1, hd⟩

private theorem processed_effect {d' : Percpu} {next : DpcPc} {o : Outcome}
    (h : processed words d next o = some d')
    (hs : ∀ i, d.bitmap i = true → wordOf i < words) (hne : d.dpc ≠ .stolen)
    (hr : ∀ i, d.bitmap i = true → d.Rescans (wordOf i) →
      ({ d with dpc := next } : Percpu).Rescans (wordOf i)) : DpcEffect words d d' := by
  cases o with
  | goOn =>
    obtain rfl : _ = d' := some.inj h
    exact .move hs hne hr
  | restart =>
    obtain rfl : _ = d' := some.inj h
    exact .move hs hne fun _ _ _ => trivial
  | pend lockId =>
    obtain ⟨hw, ⟨⟩⟩ := ite_none_right_eq_some.mp h
    refine ⟨rfl, fun he => ⟨he, hne⟩, ?_, fun _ _ => .inl trivial⟩
    intro i hi
    by_cases hil : i = lockId
    · exact hil ▸ hw
    · exact hs i (by simpa [Percpu.pend, hil] using hi)

theorem dpcStep_effect {d' : Percpu} {o : Outcome} (h : dpcStep words d o = some d')
    (hs : ∀ i, d.bitmap i = true → wordOf i < words) : DpcEffect words d d' := by
  unfold dpcStep at h
  split at h
  case h_1 => cases h
  case h_2 hc =>
    obtain ⟨⟩ := h
    exact ⟨rfl, fun he => absurd he Bool.false_ne_true, hs, fun _ _ => .inl trivial⟩
  case h_3 hc =>
    obtain ⟨⟩ := h
    exact .move hs (by simp [hc]) fun _ _ _ => trivial
  case h_4 w hc =>
    obtain ⟨⟩ := h
    exact .clear hs (by simp [hc]) fun _ _ _ => trivial
  case h_5 w hc =>
    refine processed_effect h hs (by simp [hc]) ?_
    intro i _ _
    split
    · trivial
    · exact .inl (Nat.zero_le _)
  case h_6 w hc =>
    obtain ⟨⟩ := h
    refine .clear hs (by simp [hc]) ?_
    intro v hv hr
    simp only [Percpu.Rescans, hc] at hr
    -- the word just exchanged is empty, the later ones are still ahead
    rcases hr with hle | hr
    · exact .inl (by omega)
    · exact .inr hr
  case h_7 w hc =>
    refine processed_effect h hs (by simp [hc]) ?_
    intro i hi hr
    simp only [Percpu.Rescans, hc] at hr
    split
    · rcases hr with hlt | hr
      · exact .inl hlt
      · exact .inr hr
    · rcases hr with hlt | hr
      · have := hs i hi
        omega
      · exact hr
  case h_8 hc =>
    refine processed_effect h hs (by simp [hc]) ?_
    intro i _ hr
    simpa only [Percpu.Rescans, hc] using hr
  case h_9 hc => exact processed_effect h hs (by simp [hc]) fun _ _ _ => trivial
  case h_10 hc =>
    split at h
    case isTrue hcas =>
      obtain ⟨⟩ := h
      refine .move hs (by simp [hc]) ?_
      intro i _ hr
      simp only [Percpu.Rescans, hc] at hr
      simp_all
    case isFalse =>
      obtain ⟨⟩ := h
      exact .move hs (by simp [hc]) fun _ _ _ => trivial

/-! ### Runs -/

variable {s s' : Wroost}

/-- A step of the DPC keeps the invariant at every CPU. -/
private theorem CpuOk.dpc {t u : ℕ} (h : ∀ u, CpuOk s u) (he : DpcEffect s.words (s.percpu t) d) :
    CpuOk (s.setCpu t d) u := by
  by_cases hu : u = t
  · subst hu
    refine ⟨?_, ?_, ?_⟩
    · simpa using he.scanned
    · intro i hi
      rw [Wroost.setCpu_percpu_self] at hi ⊢
      rcases he.bits i hi with hr | ⟨hb, hr⟩
      · exact .inr (.inl hr)
      rcases (h u).provided i hb with hq | hr' | hk
      · exact .inl (he.queued ▸ hq)
      · exact absurd hr' hr
      · exact .inr (.inr hk)
    · intro hen
      rw [Wroost.setCpu_percpu_self] at hen ⊢
      obtain ⟨hen, hne⟩ := he.enqueued hen
      rcases (h u).enqueued hen with hq | hst | hk
      · exact .inl (he.queued ▸ hq)
      · exact absurd hst hne
      · exact .inr (.inr hk)
  · exact (h u).frame rfl (Wroost.setCpu_percpu_of_ne hu) fun _ _ => rfl

/-- The first step of a kick: it is under way afterwards, whether it pended a bit or not. -/
private theorem CpuOk.call {t u k : ℕ} (h : ∀ u, CpuOk s u) (hk : s.kick k = .idle)
    (hd : d.queued = (s.percpu t).queued ∧ d.enqueued = (s.percpu t).enqueued ∧
      d.dpc = (s.percpu t).dpc)
    (hb : ∀ i, d.bitmap i = true → wordOf i < s.words) :
    CpuOk ((s.setCpu t d).setKick k (.raise t)) u := by
  by_cases hu : u = t
  · subst hu
    refine ⟨by simpa using hb, fun _ _ => .inr (.inr ⟨k, by simp [KickPc.target]⟩), ?_⟩
    intro he
    simp only [Wroost.setKick_percpu, Wroost.setCpu_percpu_self, hd.2.1, hd.1, hd.2.2] at he ⊢
    rcases (h u).enqueued he with hq | hst | ⟨j, hj⟩
    · exact .inl hq
    · exact .inr (.inl hst)
    have hjk : j ≠ k := by
      rintro rfl
      rw [hk] at hj
      cases hj
    exact .inr (.inr ⟨j, by rw [Wroost.setKick_kick_of_ne hjk]; exact hj⟩)
  · exact (h u).kick_other hu (by simp [hk, KickPc.target])

/-- A DPC that is not idle and finds `WROOST_DPC_PENDING` raised scans every word again. -/
private theorem Percpu.rescans_of_pending (hd : d.dpc ≠ .idle) (hp : d.pending = true) (w : ℕ) :
    d.Rescans w := by
  unfold Percpu.Rescans
  split <;> simp_all

/-- The kick raises the state word, and goes on only if `WROOST_DPC_ACTIVE` was raised. -/
private theorem CpuOk.raise {t u k : ℕ} (h : ∀ u, CpuOk s u) (hk : s.kick k = .raise t)
    (hm : KickMeets s (.raise k)) :
    CpuOk ((s.setCpu t { s.percpu t with pending := true, active := true }).setKick k
      (if (s.percpu t).active then .enqueue t else .idle)) u := by
  by_cases hu : u = t
  · subst hu
    refine ⟨?_, ?_, ?_⟩
    · simpa using (h u).scanned
    · intro i hi
      simp only [Wroost.setKick_percpu, Wroost.setCpu_percpu_self] at hi ⊢
      cases ha : (s.percpu u).active
      · rcases hm u hk ha with hq | hd | hb | ⟨j, hj, hjt⟩
        · exact .inl hq
        · refine .inr (.inl ?_)
          apply Percpu.rescans_of_pending
          · exact hd
          · rfl
        · exact absurd hi (by simp [hb])
        · exact .inr (.inr ⟨j, by rw [Wroost.setKick_kick_of_ne hj]; exact hjt⟩)
      · exact .inr (.inr ⟨k, by simp [KickPc.target]⟩)
    · intro he
      simp only [Wroost.setKick_percpu, Wroost.setCpu_percpu_self] at he ⊢
      rcases (h u).enqueued he with hq | hst | ⟨j, hj⟩
      · exact .inl hq
      · exact .inr (.inl hst)
      have hjk : j ≠ k := by
        rintro rfl
        rw [hk] at hj
        cases hj
      exact .inr (.inr ⟨j, by rw [Wroost.setKick_kick_of_ne hjk]; exact hj⟩)
  · exact (h u).kick_other hu (by simp [hk, KickPc.target, Ne.symm hu])

/-- The kick exchanges `enqueued`, and pushes the DPC only if the flag was clear. A flag that was
raised belongs to a DPC that is queued, taken, or about to be pushed by another kick. -/
private theorem CpuOk.enqueue {t u k : ℕ} (h : ∀ u, CpuOk s u) (hk : s.kick k = .enqueue t) :
    CpuOk ((s.setCpu t { s.percpu t with enqueued := true }).setKick k
      (if (s.percpu t).enqueued then .idle else .push t)) u := by
  by_cases hu : u = t
  · subst hu
    cases he : (s.percpu u).enqueued
    · refine ⟨by simpa using (h u).scanned, fun _ _ => .inr (.inr ⟨k, ?_⟩),
        fun _ => .inr (.inr ⟨k, ?_⟩)⟩
      · simp [KickPc.target]
      · simp
    have hown : (s.percpu u).queued = true ∨ (s.percpu u).dpc = .stolen ∨
        ∃ j, j ≠ k ∧ s.kick j = .push u := by
      rcases (h u).enqueued he with hq | hst | ⟨j, hj⟩
      · exact .inl hq
      · exact .inr (.inl hst)
      refine .inr (.inr ⟨j, ?_, hj⟩)
      rintro rfl
      rw [hk] at hj
      cases hj
    refine ⟨by simpa using (h u).scanned, ?_, ?_⟩
    · intro i _
      simp only [Wroost.setKick_percpu, Wroost.setCpu_percpu_self]
      rcases hown with hq | hst | ⟨j, hjk, hj⟩
      · exact .inl hq
      · exact .inr (.inl (by simp [Percpu.Rescans, hst]))
      · exact .inr (.inr ⟨j, by rw [Wroost.setKick_kick_of_ne hjk, Wroost.setCpu_kick, hj]; rfl⟩)
    · intro _
      simp only [Wroost.setKick_percpu, Wroost.setCpu_percpu_self]
      rcases hown with hq | hst | ⟨j, hjk, hj⟩
      · exact .inl hq
      · exact .inr (.inl hst)
      · exact .inr (.inr ⟨j, by rw [Wroost.setKick_kick_of_ne hjk, Wroost.setCpu_kick, hj]⟩)
  · exact (h u).kick_other hu (by simp [hk, KickPc.target, Ne.symm hu])

private theorem CpuOk.push {t u k : ℕ} (h : ∀ u, CpuOk s u) (hk : s.kick k = .push t) :
    CpuOk ((s.setCpu t { s.percpu t with queued := true }).setKick k .idle) u := by
  by_cases hu : u = t
  · subst hu
    exact ⟨by simpa using (h u).scanned, fun _ _ => .inl (by simp), fun _ => .inl (by simp)⟩
  · exact (h u).kick_other hu (by simp [hk, KickPc.target, Ne.symm hu])

private theorem CpuOk.steal {t u : ℕ} (h : ∀ u, CpuOk s u) :
    CpuOk (s.setCpu t { s.percpu t with queued := false, dpc := .stolen }) u := by
  by_cases hu : u = t
  · subst hu
    exact ⟨by simpa using (h u).scanned, fun _ _ => .inr (.inl (by simp [Percpu.Rescans])),
      fun _ => .inr (.inl (by simp))⟩
  · exact (h u).frame rfl (Wroost.setCpu_percpu_of_ne hu) fun _ _ => rfl

/-- Every step under the condition keeps the invariant at every CPU. -/
theorem wroostStep_ok {a : WroostAct} (hs : wroostStep s a = some s') (hm : KickMeets s a)
    (h : ∀ u, CpuOk s u) (u : ℕ) : CpuOk s' u := by
  cases a with
  | call k t lockId update =>
    obtain ⟨hg, hs⟩ := ite_none_right_eq_some.mp hs
    split at hs
    · split at hs
      · obtain ⟨⟩ := hs
        exact h u
      obtain ⟨⟩ := hs
      refine CpuOk.call h hg.1 ⟨rfl, rfl, rfl⟩ ?_
      intro i hi
      by_cases hil : i = lockId
      · exact hil ▸ hg.2
      · exact (h t).scanned i (by simpa [Percpu.pend, hil] using hi)
    · obtain ⟨⟩ := hs
      have hsame : s.setCpu t (s.percpu t) = s := by simp [Wroost.setCpu]
      exact hsame ▸ CpuOk.call h hg.1 ⟨rfl, rfl, rfl⟩ (h t).scanned
  | raise k =>
    simp only [wroostStep] at hs
    split at hs
    case h_1 t hk =>
      obtain ⟨⟩ := hs
      exact CpuOk.raise h hk hm
    case h_2 => cases hs
  | enqueue k =>
    simp only [wroostStep] at hs
    split at hs
    case h_1 t hk =>
      obtain ⟨⟩ := hs
      exact CpuOk.enqueue h hk
    case h_2 => cases hs
  | push k =>
    simp only [wroostStep] at hs
    split at hs
    case h_1 t hk =>
      obtain ⟨⟩ := hs
      exact CpuOk.push h hk
    case h_2 => cases hs
  | steal t =>
    obtain ⟨-, ⟨⟩⟩ := ite_none_right_eq_some.mp hs
    exact CpuOk.steal h
  | dpc t o =>
    obtain ⟨d, hd, rfl⟩ := map_eq_some_iff.mp hs
    exact CpuOk.dpc h (dpcStep_effect hd (h t).scanned)

private theorem wroostRun_ok (h : ReflTransGen KickStep (wroostInit words) s) (u : ℕ) :
    CpuOk s u := by
  induction h generalizing u with
  | refl => exact ⟨fun _ hi => absurd hi Bool.false_ne_true,
      fun _ hi => absurd hi Bool.false_ne_true, fun he => absurd he Bool.false_ne_true⟩
  | tail _ hstep ih =>
    obtain ⟨a, hs, hm⟩ := hstep
    exact wroostStep_ok hs hm ih u

/-- In every state reached by steps under the condition, each pending bit has a queued DPC, one that
is bound to scan it, or a kick that has not returned. -/
theorem wroostRun_provided (words : ℕ) (s : Wroost)
    (h : ReflTransGen KickStep (wroostInit words) s) : Provided s :=
  fun t => (wroostRun_ok h t).provided

/-- The condition is needed at each step: a kick that raises the state word without meeting it
leaves a bit of its CPU with nothing to provide for it. -/
theorem kickMeets_of_provided {k : ℕ} (hs : wroostStep s (.raise k) = some s')
    (h : Provided s') : KickMeets s (.raise k) := by
  intro t hk ha
  simp only [wroostStep, hk, ha] at hs
  obtain ⟨⟩ := hs
  by_cases hd : (s.percpu t).dpc ≠ .idle
  · exact .inr (.inl hd)
  rw [ne_eq, not_not] at hd
  by_cases hb : ∀ i, (s.percpu t).bitmap i = false
  · exact .inr (.inr (.inl hb))
  obtain ⟨i, hi⟩ := not_forall.mp hb
  have hp := h t i
  simp only [Wroost.setKick_percpu, Wroost.setCpu_percpu_self] at hp
  rcases hp (by simpa using hi) with hq | hr | ⟨j, hj⟩
  · exact .inl hq
  · simp [Percpu.Rescans, hd] at hr
  by_cases hjk : j = k
  · subst hjk
    simp [KickPc.target] at hj
  · rw [Wroost.setKick_kick_of_ne hjk] at hj
    exact .inr (.inr (.inr ⟨j, hjk, hj⟩))

/-- Two overlapping kicks: the first meets the idle word, the second finds it raised and is left to
enqueue the DPC. -/
theorem wroostRun_provided_overlapping : ∃ s,
    ReflTransGen KickStep (wroostInit 4) s ∧ (s.percpu 0).bitmap 64 = true ∧
      s.kick 0 = .idle ∧ s.kick 1 = .enqueue 0 ∧ Provided s := by
  have hrun : ∃ s, ReflTransGen KickStep (wroostInit 4) s ∧
      (s.percpu 0).bitmap 64 = true ∧ s.kick 0 = .idle ∧ s.kick 1 = .enqueue 0 := by
    refine ⟨_, .tail (.tail (.tail (.tail .refl ⟨.call 0 0 0 true, rfl, trivial⟩)
      ⟨.call 1 0 64 true, rfl, trivial⟩) ⟨.raise 0, rfl, ?_⟩) ⟨.raise 1, rfl, ?_⟩, rfl, rfl, rfl⟩
    · intro t ht _
      obtain rfl := KickPc.raise.inj ht
      exact .inr (.inr (.inr ⟨1, by decide, rfl⟩))
    · intro t ht ha
      obtain rfl := KickPc.raise.inj ht
      exact absurd ha (by decide)
  obtain ⟨s, hs, hb, h0, h1⟩ := hrun
  exact ⟨s, hs, hb, h0, h1, wroostRun_provided 4 s hs⟩

/-- A single kick of an idle CPU pends its bit, raises the state word and returns: nothing is queued
or running and nothing is under way. -/
theorem wroostRun_lost : ∃ s,
    ReflTransGen (fun s s' => ∃ a, wroostStep s a = some s') (wroostInit 4) s ∧
      ¬ Provided s := by
  refine ⟨_, .tail (.tail .refl ⟨.call 0 0 0 true, rfl⟩) ⟨.raise 0, rfl⟩, ?_⟩
  intro h
  rcases h 0 0 rfl with hq | hr | ⟨k, hk⟩
  · exact absurd hq (by decide)
  · exact hr
  by_cases h0 : k = 0
  · subst h0
    cases hk
  · simp [wroostInit, Wroost.setKick, Wroost.setCpu, h0, KickPc.target] at hk

end Charmos.Sched
