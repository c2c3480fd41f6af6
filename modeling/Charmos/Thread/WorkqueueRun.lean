import Charmos.Lib.Trace
import Charmos.Thread.Workqueue

/-!
# Runs of a workqueue

The invariant counts: as long as every worker has found the queue empty and is waiting or about to
wait, there are at most as many items on the list as enqueuers between their push and the end of
their signal. A signal that wakes a worker ends the premise. One that finds no waiter keeps it only
if there is a worker that is not between its test and its registration. A worker has the lock there,
so two are never there at once: a queue with two workers or more does not strand work, and a queue
with one worker does if the signal comes at that moment.

`num_tasks` has 32 bits, so there must be fewer items and fewer enqueuers than that.
-/

namespace Charmos.Workqueue

open AgentSum EnqueuePc Function List Option WorkerPc Relation

variable {E K I : Type} [Fintype E] [Fintype K]

/-! ### The invariant -/

/-- One for an enqueuer that has not counted its item. -/
def EnqueuePc.counting : EnqueuePc → ℕ
  | .count => 1
  | _ => 0

/-- One for an enqueuer that has counted it and not signalled. -/
def EnqueuePc.signalling : EnqueuePc → ℕ
  | .signal => 1
  | _ => 0

/-- One for a worker whose item is still in the count. -/
def WorkerPc.decrementing : WorkerPc I → ℕ
  | .decrement _ => 1
  | _ => 0

/-- The item of a worker that is still active. -/
def WorkerPc.inHand : WorkerPc I → Multiset I
  | .decrement i | .execute i | .finish i => {i}
  | _ => 0

/-- The worker has the lock of the queue. -/
def WorkerPc.holdsLock : WorkerPc I → Bool
  | .test | .register | .release | .unlock => true
  | _ => false

/-- The worker is registered, unless it was woken. -/
def WorkerPc.waits : WorkerPc I → Bool
  | .release | .asleep => true
  | _ => false

/-- What a worker does not change that goes on and counts for the same as before. -/
structure CountsOk (s : Queue E K I) : Prop where
  fifo : s.pushed = s.popped ++ s.works
  once : (s.popped : Multiset I) = s.executed + total inProgress s.worker
  counted : s.numTasks + BitVec.ofNat 32 (total counting s.enqueuer) =
    BitVec.ofNat 32 (s.works.length + total decrementing s.worker)
  short : s.works.length < 2 ^ 32
  few : total counting s.enqueuer < 2 ^ 32
  nodup : s.waiters.Nodup
  /-- No item is in two places. -/
  linked : ((s.works : Multiset I) + total inHand s.worker).Nodup
  active : ∀ i ∈ (s.works : Multiset I) + total inHand s.worker, s.active i

structure QueueInv (s : Queue E K I) : Prop extends CountsOk s where
  locked : ∀ k, (s.worker k).holdsLock → s.lock = some k
  waiting : ∀ k, k ∈ s.waiters ↔ (s.worker k).waits ∧ s.woken k = false
  /-- If all workers wait or are about to, the enqueuers that have not signalled outnumber the
  items. -/
  covered : (∀ k, s.worker k = .register ∨ k ∈ s.waiters) → s.works.length ≤
    total counting s.enqueuer + total signalling s.enqueuer

theorem QueueInv.init : QueueInv (Queue.init : Queue E K I) := by
  have hworker : ∀ {M : Type} [AddCommMonoid M] (w : WorkerPc I → M), w .dequeue = 0 →
      total w (Queue.init : Queue E K I).worker = 0 :=
    fun w hw => total_const_zero fun _ => hw
  have henq : ∀ w : EnqueuePc → ℕ, w .idle = 0 →
      total w (Queue.init : Queue E K I).enqueuer = 0 :=
    fun w hw => total_const_zero fun _ => hw
  refine ⟨⟨rfl, ?_, ?_, ?_, ?_, nodup_nil, ?_, ?_⟩, ?_, ?_, fun _ => Nat.zero_le _⟩
  · rw [hworker _ rfl]
    rfl
  · rw [henq _ rfl, hworker _ rfl]
    rfl
  · exact Nat.two_pow_pos 32
  · rw [henq _ rfl]
    exact Nat.two_pow_pos 32
  · rw [hworker _ rfl]
    exact Multiset.nodup_zero
  · rw [hworker _ rfl]
    exact fun i hi => absurd hi (Multiset.notMem_zero i)
  · exact fun k hk => by cases hk
  · exact fun k => ⟨fun hk => absurd hk not_mem_nil, fun hk => by cases hk.1⟩

variable {s : Queue E K I} {e : E} {k : K} {i : I} {p q : WorkerPc I}

/-- Two workers are never in a section of the lock. -/
theorem QueueInv.lock_unique (h : QueueInv s) {j : K} (hk : (s.worker k).holdsLock)
    (hj : (s.worker j).holdsLock) : j = k :=
  some.inj ((h.locked j hj).symm.trans (h.locked k hk))

theorem QueueInv.ok (h : QueueInv s) : QueueOk s := by
  refine ⟨h.fifo, h.once, fun ⟨hne, hasleep, hidle⟩ => hne ?_⟩
  have hcovered := h.covered fun k => .inr ((h.waiting k).2 ⟨by rw [(hasleep k).1]; rfl,
    (hasleep k).2⟩)
  have hcount : total counting s.enqueuer = 0 :=
    total_eq_zero.2 fun e => by rw [hidle e]; rfl
  have hsignal : total signalling s.enqueuer = 0 :=
    total_eq_zero.2 fun e => by rw [hidle e]; rfl
  exact eq_nil_of_length_eq_zero (by omega)

/-! ### Workers -/

section Workers

variable [DecidableEq K] {s' : Queue E K I}

theorem QueueInv.sameTotals (h : QueueInv s) (hprog : q.inProgress = (s.worker k).inProgress)
    (hdec : q.decrementing = (s.worker k).decrementing) (hhand : q.inHand = (s.worker k).inHand) :
    CountsOk (s.setWorker k q) := by
  obtain ⟨⟨hfifo, honce, hcounted, hshort, hfew, hnodup, hlinked, hactive⟩, -, -, -⟩ := h
  rw [← total_update_eq hprog] at honce
  rw [← total_update_eq hdec] at hcounted
  rw [← total_update_eq hhand] at hlinked hactive
  exact ⟨hfifo, honce, hcounted, hshort, hfew, hnodup, hlinked, hactive⟩

/-- A worker goes on, and may take the lock or give it up. -/
theorem QueueInv.moveWorker (h : QueueInv s) (hp : s.worker k = p) {l : Option K}
    (hprog : q.inProgress = p.inProgress) (hdec : q.decrementing = p.decrementing)
    (hhand : q.inHand = p.inHand)
    (hlock : ∀ j, j ≠ k → (s.worker j).holdsLock → l = some j)
    (hown : q.holdsLock → l = some k)
    (hwaits : q.waits = p.waits ∨ s.woken k = true)
    (hcovered : q = .register → (∀ j, j ≠ k → s.worker j = .register ∨ j ∈ s.waiters) →
      s.works.length ≤
        total counting s.enqueuer + total signalling s.enqueuer) :
    QueueInv { s.setWorker k q with lock := l } := by
  subst hp
  have hother : (∀ j, update s.worker k q j = .register ∨ j ∈ s.waiters) →
      ∀ j, j ≠ k → s.worker j = .register ∨ j ∈ s.waiters := by
    intro hall j hj
    have := hall j
    rwa [update_of_ne hj] at this
  refine { h.sameTotals hprog hdec hhand with locked := ?_, waiting := ?_, covered :=
    fun hall => ?_ }
  · exact (forall_update_iff s.worker fun j p => p.holdsLock = true → l = some j).2
      ⟨hown, hlock⟩
  · refine (forall_update_iff s.worker fun j p =>
      j ∈ s.waiters ↔ p.waits = true ∧ s.woken j = false).2 ⟨?_, fun j _ => h.waiting j⟩
    rw [h.waiting k]
    rcases hwaits with hw | hw
    · rw [hw]
    · rw [hw]
      simp
  · change ∀ j, update s.worker k q j = .register ∨ j ∈ s.waiters at hall
    by_cases hk : k ∈ s.waiters
    · refine h.covered fun j => ?_
      by_cases hj : j = k
      · exact .inr (hj ▸ hk)
      · exact hother hall j hj
    · have hreg := (hall k).resolve_right hk
      rw [update_self] at hreg
      exact hcovered hreg (hother hall)

/-- An empty count means that all items on the list are new. -/
theorem QueueInv.test (h : QueueInv s) (hpc : s.worker k = .test) (hzero : s.numTasks = 0)
    (hall : ∀ j, j ≠ k → s.worker j = .register ∨ j ∈ s.waiters) :
    s.works.length ≤ total counting s.enqueuer := by
  have hdec : total decrementing s.worker = 0 := by
    refine total_eq_zero.2 fun j => ?_
    by_cases hj : j = k
    · rw [hj, hpc]
      rfl
    rcases hall j hj with hreg | hmem
    · rw [hreg]
      rfl
    · have hw := ((h.waiting j).1 hmem).1
      cases hj' : s.worker j <;> rw [hj'] at hw <;> first | rfl | cases hw
  have hcounted := h.counted
  rw [hzero, hdec, zero_add, add_zero] at hcounted
  have heq := congrArg BitVec.toNat hcounted
  rw [BitVec.toNat_ofNat, BitVec.toNat_ofNat, Nat.mod_eq_of_lt h.few,
    Nat.mod_eq_of_lt h.short] at heq
  exact heq.ge

/-- A worker takes an item, goes on with it, or is done with it. -/
theorem QueueInv.itemStep (h : QueueInv s) (hp : s.worker k = p)
    (hpc : s'.worker = update s.worker k q) (henq : s'.enqueuer = s.enqueuer)
    (hlock : s'.lock = s.lock) (hwaiters : s'.waiters = s.waiters) (hwoken : s'.woken = s.woken)
    (hold : p.waits = false) (hnew : q ≠ .register ∧ q.holdsLock = false ∧ q.waits = false)
    (hfifo : s'.pushed = s'.popped ++ s'.works)
    (honce : (s'.popped : Multiset I) + s.executed + p.inProgress =
      s.popped + s'.executed + q.inProgress)
    (hcounted : s'.numTasks + BitVec.ofNat 32 (s.works.length + p.decrementing) =
      s.numTasks + BitVec.ofNat 32 (s'.works.length + q.decrementing))
    (hshort : s'.works.length ≤ s.works.length)
    (hlinked : (s'.works : Multiset I) + q.inHand ≤ s.works + p.inHand)
    (hactive : ∀ j, s.active j → s'.active j ∨
      (s'.works : Multiset I) + q.inHand + {j} = s.works + p.inHand) : QueueInv s' := by
  subst hp
  obtain ⟨rprog, oprog, nprog⟩ := exists_rest inProgress s.worker k
  obtain ⟨rdec, odec, ndec⟩ := exists_rest decrementing s.worker k
  obtain ⟨rhand, ohand, nhand⟩ := exists_rest inHand s.worker k
  have hle : (s'.works : Multiset I) + total inHand s'.worker ≤
      s.works + total inHand s.worker := by
    rw [hpc, ohand, nhand, add_left_comm, add_left_comm (s.works : Multiset I)]
    exact add_le_add_right hlinked rhand
  refine ⟨⟨hfifo, ?_, ?_, ?_, ?_, ?_, ?_, ?_⟩, ?_, ?_, ?_⟩
  · rw [hpc, nprog]
    have hold := h.once
    rw [oprog] at hold
    rw [hold] at honce
    refine add_right_cancel (b := (s.executed : Multiset I) + (s.worker k).inProgress) ?_
    rw [← add_assoc, honce]
    abel
  · have hold := h.counted
    rw [odec] at hold
    rw [hpc, ndec, henq]
    simp only [BitVec.ofNat_add] at hold hcounted ⊢
    linear_combination hcounted + hold
  · exact hshort.trans_lt h.short
  · rw [henq]
    exact h.few
  · rw [hwaiters]
    exact h.nodup
  · exact Multiset.nodup_of_le hle h.linked
  · intro j hj
    refine (hactive j (h.active j (Multiset.mem_of_le hle hj))).resolve_right fun heq => ?_
    -- the item would be in two places
    have htwice : (s.works : Multiset I) + total inHand s.worker =
        s'.works + total inHand s'.worker + {j} := by
      rw [hpc, ohand, nhand, add_left_comm, ← heq]
      abel
    have hnodup := h.linked
    rw [htwice, Multiset.nodup_add] at hnodup
    exact Multiset.disjoint_left.1 hnodup.2.2 hj (Multiset.mem_singleton_self j)
  · rw [hpc, hlock]
    refine (forall_update_iff s.worker fun j p => p.holdsLock = true → s.lock = some j).2
      ⟨fun hq => ?_, fun j _ => h.locked j⟩
    rw [hnew.2.1] at hq
    cases hq
  · rw [hpc, hwaiters, hwoken]
    refine (forall_update_iff s.worker fun j p =>
      j ∈ s.waiters ↔ p.waits = true ∧ s.woken j = false).2 ⟨?_, fun j _ => h.waiting j⟩
    rw [h.waiting k, hold, hnew.2.2]
  · -- this worker neither waits nor is about to
    rw [hpc, hwaiters]
    intro hall
    rcases hall k with hk | hk
    · rw [update_self] at hk
      exact absurd hk hnew.1
    · have := ((h.waiting k).1 hk).1
      rw [hold] at this
      cases this

/-- A worker registers with the condition variable. -/
theorem QueueInv.register (h : QueueInv s) (hpc : s.worker k = .register) :
    QueueInv { s.setWorker k .release with
      waiters := s.waiters ++ [k]
      woken := update s.woken k false } := by
  have hnot : k ∉ s.waiters := fun hk => by
    have := ((h.waiting k).1 hk).1
    rw [hpc] at this
    cases this
  refine { h.sameTotals (k := k) (q := .release) (by rw [hpc]; rfl) (by rw [hpc]; rfl)
    (by rw [hpc]; rfl) with nodup := ?_, locked := ?_, waiting := fun j => ?_, covered :=
    fun hall => ?_ }
  · exact nodup_append.2 ⟨h.nodup, nodup_singleton k, fun a ha b hb hab =>
      hnot (mem_singleton.1 hb ▸ hab ▸ ha)⟩
  · exact (forall_update_iff s.worker fun j p => p.holdsLock = true → s.lock = some j).2
      ⟨fun _ => h.locked k (by rw [hpc]; rfl), fun j _ => h.locked j⟩
  · change j ∈ s.waiters ++ [k] ↔ (update s.worker k .release j).waits = true ∧
      update s.woken k false j = false
    by_cases hj : j = k
    · subst hj
      simp [waits]
    · rw [update_of_ne hj, update_of_ne hj, ← h.waiting j]
      simp [hj]
  · refine h.covered fun j => ?_
    by_cases hj : j = k
    · exact .inl (hj ▸ hpc)
    have := hall j
    change update s.worker k .release j = .register ∨ j ∈ s.waiters ++ [k] at this
    simpa [hj] using this

theorem QueueInv.worker [DecidableEq I] (h : QueueInv s) (k : K) :
    match workerStep s k with
    | some s' => QueueInv s'
    | none => True := by
  have hlock : ∀ j, j ≠ k → (s.worker j).holdsLock → s.lock = some j := fun j _ => h.locked j
  have hfree : ∀ l : Option K, s.lock = none →
      ∀ j, j ≠ k → (s.worker j).holdsLock → l = some j := by
    intro l hnone j _ hj
    have := h.locked j hj
    rw [hnone] at this
    cases this
  have hown : (s.worker k).holdsLock → ∀ j, j ≠ k → (s.worker j).holdsLock →
      (none : Option K) = some j := fun hk j hne hj => absurd (h.lock_unique hk hj) hne
  cases hpc : s.worker k <;> simp only [workerStep, hpc]
  case dequeue =>
    cases hworks : s.works with
    | nil => exact h.moveWorker hpc rfl rfl rfl hlock nofun (.inl rfl) nofun
    | cons i works =>
      refine h.itemStep hpc (q := .decrement i) rfl rfl rfl rfl rfl rfl ⟨nofun, rfl, rfl⟩ ?_ ?_
        (by rw [hworks]; rfl) ?_ ?_ (fun j hj => .inl hj)
      · change s.pushed = s.popped ++ [i] ++ works
        rw [h.fifo, hworks, append_assoc, singleton_append]
      · change ((s.popped ++ [i] : List I) : Multiset I) + s.executed + 0 =
          s.popped + s.executed + {i}
        rw [← Multiset.coe_add, Multiset.coe_singleton]
        abel
      · rw [hworks]
        exact Nat.le_succ _
      · rw [hworks]
        change (works : Multiset I) + {i} ≤ ((i :: works : List I) : Multiset I) + 0
        rw [← Multiset.cons_coe, ← Multiset.singleton_add, add_zero, add_comm]
  case decrement i =>
    refine h.itemStep hpc (q := .execute i) rfl rfl rfl rfl rfl rfl ⟨nofun, rfl, rfl⟩ h.fifo rfl ?_
      le_rfl le_rfl (fun j hj => .inl hj)
    change s.numTasks - 1 + BitVec.ofNat 32 (s.works.length + 1) =
      s.numTasks + BitVec.ofNat 32 (s.works.length + 0)
    rw [BitVec.ofNat_add, add_zero, show BitVec.ofNat 32 1 = 1 from rfl]
    ring
  case execute i =>
    refine h.itemStep hpc (q := .finish i) rfl rfl rfl rfl rfl rfl ⟨nofun, rfl, rfl⟩ h.fifo ?_ rfl
      le_rfl le_rfl (fun j hj => .inl hj)
    change (s.popped : Multiset I) + s.executed + {i} =
      s.popped + ((s.executed ++ [i] : List I) : Multiset I) + 0
    rw [← Multiset.coe_add, Multiset.coe_singleton]
    abel
  case finish i =>
    refine h.itemStep hpc (q := .dequeue) rfl rfl rfl rfl rfl rfl ⟨nofun, rfl, rfl⟩ h.fifo rfl rfl
      le_rfl (add_le_add_right (Multiset.zero_le _) _) (fun j hj => ?_)
    by_cases hji : j = i
    · right
      rw [hji]
      change (s.works : Multiset I) + 0 + {i} = s.works + {i}
      rw [add_zero]
    · left
      change update s.active i false j = true
      rw [update_of_ne hji]
      exact hj
  case lock | relock =>
    split_ifs with hnone
    · exact h.moveWorker hpc rfl rfl rfl (hfree _ hnone) (fun _ => rfl) (.inl rfl) nofun
    · trivial
  case test =>
    have hmine : s.lock = some k := h.locked k (by rw [hpc]; rfl)
    split_ifs with hzero
    · exact h.moveWorker hpc rfl rfl rfl hlock (fun _ => hmine) (.inl rfl)
        (fun _ hall => (h.test hpc hzero hall).trans (Nat.le_add_right _ _))
    · exact h.moveWorker hpc rfl rfl rfl hlock (fun _ => hmine) (.inl rfl) nofun
  case register =>
    exact h.register hpc
  case release | unlock =>
    exact h.moveWorker hpc rfl rfl rfl (hown (by rw [hpc]; rfl)) nofun (.inl rfl) nofun
  case asleep =>
    split_ifs with hwoken
    · exact h.moveWorker hpc rfl rfl rfl hlock nofun (.inr hwoken) nofun
    · trivial

end Workers

/-! ### Enqueuers -/

section Enqueuers

variable [DecidableEq E]

/-- An item is put on the list. -/
theorem QueueInv.enqueue [DecidableEq I] (h : QueueInv s) (hpc : s.enqueuer e = .idle)
    (hshort : s.works.length + 1 < 2 ^ 32) (hfew : total counting s.enqueuer + 1 < 2 ^ 32) :
    QueueInv (workqueueEnqueue s e i) := by
  unfold workqueueEnqueue
  split_ifs with hactive
  · exact h
  have tcount := total_update counting s.enqueuer e .count
  have tsignal := total_update signalling s.enqueuer e .count
  rw [hpc] at tcount tsignal
  simp only [counting, signalling, add_zero] at tcount tsignal
  have hlen : (s.works ++ [i]).length = s.works.length + 1 := by simp
  have hnew : i ∉ (s.works : Multiset I) + total inHand s.worker :=
    fun hi => hactive (h.active i hi)
  have hwork : ((s.works ++ [i] : List I) : Multiset I) + total inHand s.worker =
      i ::ₘ (s.works + total inHand s.worker) := by
    rw [← Multiset.coe_add, Multiset.coe_singleton, ← Multiset.singleton_add]
    abel
  refine { h with
    fifo := ?_, counted := ?_, short := ?_, few := ?_, linked := ?_, active := ?_
    covered := fun hall => ?_ }
  · change s.pushed ++ [i] = s.popped ++ (s.works ++ [i])
    rw [h.fifo, append_assoc]
  · change s.numTasks + BitVec.ofNat 32 (total _ (update s.enqueuer e .count)) =
      BitVec.ofNat 32 ((s.works ++ [i]).length + total decrementing s.worker)
    have hold := h.counted
    rw [tcount, hlen]
    simp only [BitVec.ofNat_add] at hold ⊢
    linear_combination hold
  · change (s.works ++ [i]).length < 2 ^ 32
    omega
  · change total _ (update s.enqueuer e .count) < 2 ^ 32
    omega
  · change (((s.works ++ [i] : List I) : Multiset I) + total inHand s.worker).Nodup
    rw [hwork]
    exact Multiset.nodup_cons.2 ⟨hnew, h.linked⟩
  · change ∀ j ∈ ((s.works ++ [i] : List I) : Multiset I) + total inHand s.worker,
      update s.active i true j = true
    rw [hwork]
    intro j hj
    by_cases hji : j = i
    · rw [hji, update_self]
    · rw [update_of_ne hji]
      exact h.active j ((Multiset.mem_cons.1 hj).resolve_left hji)
  · have := h.covered hall
    change (s.works ++ [i]).length ≤ total _ (update s.enqueuer e .count) +
      total _ (update s.enqueuer e .count)
    omega

/-- It is counted. -/
theorem QueueInv.count (h : QueueInv s) (hpc : s.enqueuer e = .count) :
    QueueInv { s.setEnqueuer e .signal with numTasks := s.numTasks + 1 } := by
  have tcount := total_update counting s.enqueuer e .signal
  have tsignal := total_update signalling s.enqueuer e .signal
  rw [hpc] at tcount tsignal
  simp only [counting, signalling, add_zero] at tcount tsignal
  refine { h with counted := ?_, few := ?_, covered := fun hall => ?_ }
  · change s.numTasks + 1 + BitVec.ofNat 32 (total _ (update s.enqueuer e .signal)) =
      BitVec.ofNat 32 (s.works.length + total decrementing s.worker)
    rw [← h.counted, ← tcount, BitVec.ofNat_add, show BitVec.ofNat 32 1 = 1 from rfl]
    ring
  · have := h.few
    change total _ (update s.enqueuer e .signal) < 2 ^ 32
    omega
  · have := h.covered hall
    change s.works.length ≤ total _ (update s.enqueuer e .signal) +
      total _ (update s.enqueuer e .signal)
    omega

/-- The first waiter is woken, if there is one. If there is none and all workers are about to
register, there must be another enqueuer for every item. -/
theorem QueueInv.signal [DecidableEq K] (h : QueueInv s) (hpc : s.enqueuer e = .signal)
    (hsafe : s.waiters = [] → (∀ k, s.worker k = .register) → s.works.length <
      total counting s.enqueuer + total signalling s.enqueuer) : QueueInv (signalWorker s e) := by
  have tcount := total_update counting s.enqueuer e .idle
  have tsignal := total_update signalling s.enqueuer e .idle
  rw [hpc] at tcount tsignal
  simp only [counting, signalling, add_zero] at tcount tsignal
  have hcounts : CountsOk (s.setEnqueuer e .idle) := by
    refine { h.toCountsOk with counted := ?_, few := ?_ }
    · change _ + BitVec.ofNat 32 (total _ (update s.enqueuer e .idle)) = _
      rw [tcount]
      exact h.counted
    · change total _ (update s.enqueuer e .idle) < 2 ^ 32
      rw [tcount]
      exact h.few
  unfold signalWorker
  split
  · rename_i hnil
    refine { hcounts with locked := h.locked, waiting := h.waiting, covered := fun hall => ?_ }
    have := hsafe hnil fun k => (hall k).resolve_right (hnil ▸ not_mem_nil)
    change s.works.length ≤ total _ (update s.enqueuer e .idle) +
      total _ (update s.enqueuer e .idle)
    omega
  · rename_i k waiters hcons
    have hnodup := h.nodup
    rw [hcons, nodup_cons] at hnodup
    have hwait : (s.worker k).waits = true := ((h.waiting k).1 (by simp [hcons])).1
    refine { hcounts with
      locked := h.locked, waiting := fun j => ?_, nodup := hnodup.2, covered := fun hall => ?_ }
    · change j ∈ waiters ↔ (s.worker j).waits = true ∧ update s.woken k true j = false
      by_cases hj : j = k
      · subst hj
        simp [hnodup.1]
      · rw [update_of_ne hj, ← h.waiting j, hcons]
        simp [hj]
    · -- the worker that was woken does not wait any more
      rcases hall k with hreg | hmem
      · change s.worker k = .register at hreg
        rw [hreg] at hwait
        cases hwait
      · exact absurd hmem hnodup.1

end Enqueuers

/-! ### Runs -/

variable [DecidableEq E] [DecidableEq K] [DecidableEq I] {s' : Queue E K I}

/-- The items on the list and the enqueuers that have not counted are fewer than `2 ^ 32`. -/
def sizeSafe (s : Queue E K I) : QueueAct E K I → Bool
  | .enqueue _ _ =>
    s.works.length + 1 < 2 ^ 32 ∧ total counting s.enqueuer + 1 < 2 ^ 32
  | _ => true

/-- A signal finds no waiter, because every worker is between its test and its registration, and
there is an item on the list for every enqueuer underway. -/
def LostSignal (s : Queue E K I) (e : E) : Prop :=
  s.enqueuer e = .signal ∧ s.waiters = [] ∧ (∀ k, s.worker k = .register) ∧
    total counting s.enqueuer + total signalling s.enqueuer ≤ s.works.length

instance (s : Queue E K I) (e : E) : Decidable (LostSignal s e) :=
  inferInstanceAs (Decidable (_ ∧ _))

/-- No signal is lost. -/
def signalSafe (s : Queue E K I) : QueueAct E K I → Bool
  | .enqueuer e => ¬ LostSignal s e
  | _ => true

theorem QueueInv.step {a : QueueAct E K I} (h : QueueInv s) (hstep : queueStep s a = some s')
    (hsize : sizeSafe s a) (hsignal : signalSafe s a) : QueueInv s' := by
  cases a with
  | enqueue e i =>
    simp only [queueStep] at hstep
    split_ifs at hstep with hpc
    obtain ⟨⟩ := hstep
    obtain ⟨hshort, hfew⟩ := of_decide_eq_true hsize
    exact h.enqueue hpc hshort hfew
  | enqueuer e =>
    have hkept := of_decide_eq_true hsignal
    simp only [queueStep, enqueuerStep] at hstep
    cases hpc : s.enqueuer e with
    | idle =>
      rw [hpc] at hstep
      cases hstep
    | count =>
      rw [hpc] at hstep
      obtain ⟨⟩ := hstep
      exact h.count hpc
    | signal =>
      rw [hpc] at hstep
      obtain ⟨⟩ := hstep
      refine h.signal hpc fun hnil hall => ?_
      by_contra hle
      exact hkept ⟨hpc, hnil, hall, by omega⟩
  | worker k =>
    have hworker := h.worker k
    rwa [show workerStep s k = some s' from hstep] at hworker

omit [DecidableEq E] [DecidableEq K] in
/-- With two workers or more no signal is lost: they cannot both have the lock. -/
theorem QueueInv.signalSafe_of_two (h : QueueInv s) (htwo : 2 ≤ Fintype.card K)
    (a : QueueAct E K I) : signalSafe s a := by
  cases a with
  | enqueuer e =>
    refine decide_eq_true fun hlost => ?_
    obtain ⟨j, k, hjk⟩ := Fintype.exists_pair_of_one_lt_card htwo
    have hall := hlost.2.2.1
    exact hjk (h.lock_unique (by rw [hall k]; rfl) (by rw [hall j]; rfl))
  | _ => rfl

/-- A run in which no signal is lost. -/
def QueueRun : Queue E K I → Queue E K I → Prop :=
  ReflTransGen fun s s' => ∃ a, queueStep s a = some s' ∧ sizeSafe s a ∧ signalSafe s a

theorem QueueRun.inv {s : Queue E K I} (hrun : QueueRun s s') (h : QueueInv s) : QueueInv s' := by
  induction hrun with
  | refl => exact h
  | tail _ hstep ih =>
    obtain ⟨a, hstep, hsize, hsignal⟩ := hstep
    exact ih.step hstep hsize hsignal

/-- A list of actions, one after the other. -/
def queueTrace (s : Queue E K I) (acts : List (QueueAct E K I)) : Option (Queue E K I) :=
  acts.foldlM queueStep s

/-- A list of actions that are all safe. -/
def queueTraceSafe (s : Queue E K I) (acts : List (QueueAct E K I)) : Option (Queue E K I) :=
  acts.foldlM (fun s a => if sizeSafe s a ∧ signalSafe s a then queueStep s a else none) s

theorem queueTraceSafe_run {acts : List (QueueAct E K I)} {s : Queue E K I}
    (h : queueTraceSafe s acts = some s') : QueueRun s s' :=
  reflTransGen_of_trace h fun _ a _ hs => by
    obtain ⟨hsafe, hstep⟩ := ite_none_right_eq_some.mp hs
    exact ⟨a, hstep, hsafe⟩

/-- In every run without a lost signal, items are executed once and in order, and no work is
stranded. -/
theorem queueRun_ok {s : Queue E K I} (hrun : QueueRun Queue.init s) : QueueOk s :=
  (hrun.inv QueueInv.init).ok

/-- One enqueuer, one worker and one item. The worker sleeps before the item comes, and executes
it. -/
theorem queueRun_ok_woken :
    ∃ s : Queue (Fin 1) (Fin 1) (Fin 1), QueueRun Queue.init s ∧ s.executed = [0] ∧ QueueOk s := by
  have hobs : (queueTraceSafe (Queue.init : Queue (Fin 1) (Fin 1) (Fin 1))
      [.worker 0, .worker 0, .worker 0, .worker 0, .worker 0, .enqueue 0 0, .enqueuer 0,
        .enqueuer 0, .worker 0, .worker 0, .worker 0, .worker 0, .worker 0, .worker 0,
        .worker 0]).map (·.executed) = some [0] := by decide +kernel
  obtain ⟨s, hs, hobs⟩ := map_eq_some_iff.mp hobs
  have hrun := queueTraceSafe_run hs
  exact ⟨s, hrun, hobs, queueRun_ok hrun⟩

/-- The worker finds the queue empty; the item is pushed, counted and signalled before the worker
registers; and the worker goes to sleep with the item on the list. -/
theorem queueTrace_stranded :
    ∃ s : Queue (Fin 1) (Fin 1) (Fin 1), queueTrace Queue.init
        [.worker 0, .worker 0, .worker 0, .enqueue 0 0, .enqueuer 0, .enqueuer 0,
          .worker 0, .worker 0] = some s ∧ Stranded s ∧ ¬ QueueOk s := by
  have hobs : (queueTrace (Queue.init : Queue (Fin 1) (Fin 1) (Fin 1))
      [.worker 0, .worker 0, .worker 0, .enqueue 0 0, .enqueuer 0, .enqueuer 0,
        .worker 0, .worker 0]).map (fun s => (s.works, s.worker 0, s.woken 0, s.enqueuer 0)) =
      some ([0], .asleep, false, .idle) := by
    decide +kernel
  obtain ⟨s, hs, hobs⟩ := map_eq_some_iff.mp hobs
  obtain ⟨hworks, hworker, hwoken, henq⟩ : s.works = [0] ∧ s.worker 0 = .asleep ∧
      s.woken 0 = false ∧ s.enqueuer 0 = .idle := by
    simpa only [Prod.mk.injEq] using hobs
  have hstranded : Stranded s := by
    refine ⟨by rw [hworks]; exact cons_ne_nil _ _, fun k => ?_, fun e => ?_⟩
    · rw [Subsingleton.elim k 0]
      exact ⟨hworker, hwoken⟩
    · rw [Subsingleton.elim e 0]
      exact henq
  exact ⟨s, hs, hstranded, fun hok => hok.not_stranded hstranded⟩

/-- With two workers or more the property holds in every run. -/
theorem queueOk_of_two (htwo : 2 ≤ Fintype.card K) {s : Queue E K I}
    (hrun : ReflTransGen (fun s s' => ∃ a, queueStep s a = some s' ∧ sizeSafe s a) Queue.init s) :
    QueueOk s := by
  suffices h : QueueInv s from h.ok
  induction hrun with
  | refl => exact QueueInv.init
  | tail _ hstep ih =>
    obtain ⟨a, hstep, hsize⟩ := hstep
    exact ih.step hstep hsize (ih.signalSafe_of_two htwo a)

/-- A signal finds no waiter, and the worker whose test came before it goes to sleep. The other one
executes the item. -/
theorem queueOk_of_two_executed : ∃ s : Queue Unit Bool Unit,
    s.executed = [()] ∧ s.worker true = .asleep ∧ s.woken true = false ∧ QueueOk s := by
  have hobs : (([.worker true, .worker true, .worker true, .enqueue () (), .enqueuer (),
      .enqueuer (), .worker true, .worker true, .worker false, .worker false, .worker false] :
        List (QueueAct Unit Bool Unit)).foldlM
          (fun s a => if sizeSafe s a then queueStep s a else none) Queue.init).map
      (fun s => (s.executed, s.worker true, s.woken true)) = some ([()], .asleep, false) := by
    decide +kernel
  obtain ⟨s, hs, hobs⟩ := map_eq_some_iff.mp hobs
  simp only [Prod.mk.injEq] at hobs
  refine ⟨s, hobs.1, hobs.2.1, hobs.2.2, queueOk_of_two (by decide) ?_⟩
  refine reflTransGen_of_trace hs fun s₁ a s₂ hstep => ?_
  obtain ⟨hsize, hstep⟩ := ite_none_right_eq_some.mp hstep
  exact ⟨a, hstep, hsize⟩

/-! ### A lost signal strands work -/

section

omit [Fintype E] [Fintype K]

/-- A worker in a section of the lock has it. -/
def Locked (s : Queue E K I) : Prop := ∀ k, (s.worker k).holdsLock → s.lock = some k

omit [DecidableEq E] [DecidableEq I] in
theorem Locked.setWorker (h : Locked s) (hworker : s'.worker = update s.worker k p)
    (hself : p.holdsLock → s'.lock = some k)
    (hother : s'.lock = s.lock ∨ s.lock = none ∨ (s.worker k).holdsLock) : Locked s' := by
  intro j hj
  rw [hworker] at hj
  rcases eq_or_ne j k with rfl | hne
  · exact hself (by simpa using hj)
  rw [update_of_ne hne] at hj
  have hlock := h j hj
  rcases hother with hsame | hnone | hk
  · rw [hsame, hlock]
  · rw [hnone] at hlock
    cases hlock
  · exact absurd (some.inj (hlock.symm.trans (h k hk))) hne

theorem Locked.step {a : QueueAct E K I} (h : Locked s) (hstep : queueStep s a = some s') :
    Locked s' := by
  cases a with
  | enqueue e i =>
    simp only [queueStep, workqueueEnqueue] at hstep
    split_ifs at hstep <;> cases hstep <;> exact h
  | enqueuer e =>
    simp only [queueStep, enqueuerStep, signalWorker] at hstep
    split at hstep
    · cases hstep
    · cases hstep
      exact h
    · split at hstep <;> cases hstep <;> exact h
  | worker k =>
    simp only [queueStep, workerStep] at hstep
    cases hpc : s.worker k <;> simp only [hpc] at hstep
    case dequeue => split at hstep <;> cases hstep <;> exact h.setWorker rfl nofun (.inl rfl)
    case decrement | execute | finish => cases hstep; exact h.setWorker rfl nofun (.inl rfl)
    case lock | relock =>
      obtain ⟨hnone, hstep⟩ := ite_none_right_eq_some.mp hstep
      cases hstep
      exact h.setWorker rfl (fun _ => rfl) (.inr (.inl hnone))
    case test =>
      cases hstep
      exact h.setWorker rfl (fun _ => h k (by rw [hpc]; rfl)) (.inl rfl)
    case register =>
      cases hstep
      exact h.setWorker rfl (fun _ => h k (by rw [hpc]; rfl)) (.inl rfl)
    case release | unlock =>
      cases hstep
      exact h.setWorker rfl nofun (.inr (.inr (by rw [hpc]; rfl)))
    case asleep =>
      obtain ⟨-, hstep⟩ := ite_none_right_eq_some.mp hstep
      cases hstep
      exact h.setWorker rfl nofun (.inl rfl)

theorem locked_of_run
    (hrun : ReflTransGen (fun s s' => ∃ a, queueStep s a = some s') Queue.init s) : Locked s := by
  induction hrun with
  | refl => exact fun k hk => by cases hk
  | tail _ hstep ih =>
    obtain ⟨a, hstep⟩ := hstep
    exact ih.step hstep

end

omit [Fintype K] in
/-- Every enqueuer signals before the worker registers. -/
private theorem reaches_stranded (hone : ∀ j k : K, j = k) (hnil : s.waiters = [])
    (hall : ∀ k, s.worker k = .register) (hne : s.works ≠ []) :
    ∃ s', ReflTransGen (fun s s' => ∃ a, queueStep s a = some s') s s' ∧ Stranded s' := by
  -- the enqueuers underway come to their end one step at a time
  induction hm : 2 * total counting s.enqueuer + total signalling s.enqueuer
    using Nat.strong_induction_on generalizing s with
  | _ m ih =>
    by_cases hbusy : ∃ e, s.enqueuer e ≠ .idle
    · obtain ⟨e, he⟩ := hbusy
      obtain ⟨p, n, hstep, hlt⟩ : ∃ p n,
          queueStep s (.enqueuer e) = some { s.setEnqueuer e p with numTasks := n } ∧
            2 * total counting (update s.enqueuer e p) +
              total signalling (update s.enqueuer e p) < m := by
        cases hpc : s.enqueuer e with
        | idle => exact absurd hpc he
        | count =>
          have hcount := total_update counting s.enqueuer e .signal
          have hsignal := total_update signalling s.enqueuer e .signal
          simp only [hpc, counting, signalling] at hcount hsignal
          exact ⟨.signal, s.numTasks + 1, by simp [queueStep, enqueuerStep, hpc], by omega⟩
        | signal =>
          have hcount := total_update counting s.enqueuer e .idle
          have hsignal := total_update signalling s.enqueuer e .idle
          simp only [hpc, counting, signalling] at hcount hsignal
          refine ⟨.idle, s.numTasks, ?_, by omega⟩
          simp [queueStep, enqueuerStep, hpc, signalWorker, hnil, Queue.setEnqueuer]
      obtain ⟨s', hreach, hs'⟩ := ih _ hlt (s := { s.setEnqueuer e p with numTasks := n })
        hnil hall hne rfl
      exact ⟨s', .head ⟨_, hstep⟩ hreach, hs'⟩
    have hidle : ∀ e, s.enqueuer e = .idle := by simpa using hbusy
    rcases isEmpty_or_nonempty K with hK | ⟨⟨k⟩⟩
    · exact ⟨s, .refl, hne, fun k => hK.elim k, hidle⟩
    obtain ⟨s₁, hs₁⟩ : ∃ s₁, s₁ = { s.setWorker k .release with
        waiters := s.waiters ++ [k]
        woken := update s.woken k false } := ⟨_, rfl⟩
    have hregister : queueStep s (.worker k) = some s₁ := by
      simp [queueStep, workerStep, hall k, hs₁]
    have hrelease : queueStep s₁ (.worker k) = some { s₁.setWorker k .asleep with
        lock := none } := by
      have hk : s₁.worker k = .release := by simp [hs₁, Queue.setWorker]
      simp [queueStep, workerStep, hk]
    refine ⟨_, .head ⟨_, hregister⟩ (.single ⟨_, hrelease⟩), ?_, fun j => ?_, ?_⟩
    · rw [hs₁]
      exact hne
    · rw [hone j k, hs₁]
      simp [Queue.setWorker]
    · rw [hs₁]
      exact hidle

omit [Fintype K] in
/-- A signal that is lost ends in stranded work, in some continuation of the run, whatever the run
was. -/
theorem stranded_of_lostSignal
    (hrun : ReflTransGen (fun s s' => ∃ a, queueStep s a = some s') Queue.init s)
    (hlost : LostSignal s e) :
    ∃ s', ReflTransGen (fun s s' => ∃ a, queueStep s a = some s') s s' ∧ Stranded s' := by
  obtain ⟨hpc, hnil, hall, hitems⟩ := hlost
  have hpos := le_total signalling s.enqueuer e
  rw [hpc] at hpos
  simp only [signalling] at hpos
  refine reaches_stranded (fun j k => ?_) hnil hall fun hworks => ?_
  · have hlock : ∀ k, s.lock = some k := fun k => locked_of_run hrun k (by rw [hall k]; rfl)
    exact some.inj ((hlock j).symm.trans (hlock k))
  · rw [hworks, length_nil] at hitems
    omega

/-- One signal is lost already, and another one is about to be. -/
theorem stranded_of_lostSignal_again : ∃ s s' : Queue (Fin 2) Unit (Fin 2),
    queueTrace Queue.init [.worker (), .worker (), .worker (), .enqueue 0 0, .enqueuer 0,
      .enqueuer 0, .enqueue 1 1, .enqueuer 1] = some s ∧ LostSignal s 1 ∧
    ReflTransGen (fun s s' => ∃ a, queueStep s a = some s') s s' ∧ Stranded s' := by
  obtain ⟨s, hs, hlost⟩ : ∃ s : Queue (Fin 2) Unit (Fin 2), queueTrace Queue.init
      [.worker (), .worker (), .worker (), .enqueue 0 0, .enqueuer 0, .enqueuer 0, .enqueue 1 1,
        .enqueuer 1] = some s ∧ LostSignal s 1 := ⟨_, rfl, by decide⟩
  have hrun : ReflTransGen (fun s s' => ∃ a, queueStep s a = some s') Queue.init s :=
    reflTransGen_of_trace hs fun _ a _ hstep => ⟨a, hstep⟩
  obtain ⟨s', hreach, hstranded⟩ := stranded_of_lostSignal hrun hlost
  exact ⟨s, s', hs, hlost, hreach, hstranded⟩

end Charmos.Workqueue
