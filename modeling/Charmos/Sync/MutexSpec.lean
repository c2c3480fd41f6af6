import Charmos.Sync.Mutex
import Mathlib.Data.List.Nodup

/-!
# Exclusion and wake-ups of the adaptive mutex

The word and the chain lock each belong to the thread whose place says so (`LockOk.owner`,
`LockOk.holder`), so there is one owner. A waiter joins the queue under the chain lock, with an
owner in the word; the owner needs the chain lock to clear the word, and empties the queue before it
lets go of the lock. Hence a queued thread has an owner that has yet to unlock, or an unlocker that
is about to wake it (`LockOk.kept`). A thread that left the queue is in one wake list until its wait
is satisfied (`WaitOk`).
-/

namespace Charmos.Sync

open List Mutex Option

variable {T : Type}

namespace MutexPc

/-- The word is the thread's. -/
def owns : MutexPc T → Bool
  | .holds | .unlockCheck | .unlockLock | .unlockClear _ => true
  | _ => false

/-- The chain lock is the thread's. -/
def inChain : MutexPc T → Bool
  | .chainRead _ | .chainState _ _ | .chainOwner _ | .boost | .unlockClear _ | .unlockWake _ => true
  | _ => false

/-- The thread has joined the queue and not gone on. -/
def parked : MutexPc T → Bool
  | .boost | .boostAway | .asleep => true
  | _ => false

/-- What an unlock found when it took the chain lock. -/
def found : MutexPc T → Option Bool
  | .unlockClear b | .unlockWake b => some b
  | _ => none

/-- The unlock has cleared the word and has the chain lock. -/
def clears : MutexPc T → Bool
  | .unlockWake _ => true
  | _ => false

/-- The threads that an unlock is still to wake. -/
def wakes : MutexPc T → List T
  | .waking l => l
  | _ => []

/-- All that a place decides but the chain lock. -/
def offChain (c : MutexPc T) : Bool × Bool × Bool × List T :=
  (c.owns, c.parked, c.clears, c.wakes)

end MutexPc

/-- Who owns the word and the chain lock. -/
structure LockOk (s : Mutex T) : Prop where
  owner : ∀ t, (s.pc t).owns = true ↔ s.word = some t
  holder : ∀ t, (s.pc t).inChain = true ↔ s.chain = some t
  /-- A queued thread has an owner, or an unlocker that is about to wake it. -/
  kept : s.queue ≠ [] → s.word ≠ none ∨ ∃ u, (s.pc u).clears = true
  /-- An unlocker knows whether there is a queued thread. -/
  found : ∀ u b, (s.pc u).found = some b → b = !s.queue.isEmpty
  safe : ∀ t, s.pc t ≠ .panicked

/-- Each thread that waits to be woken is in one place: the queue or one wake list. -/
structure WaitOk (s : Mutex T) : Prop where
  nodup : s.queue.Nodup
  queued : ∀ t ∈ s.queue, (s.pc t).parked = true ∧ s.satisfied t = false
  wakeNodup : ∀ u, (s.pc u).wakes.Nodup
  waking : ∀ u, ∀ t ∈ (s.pc u).wakes,
    ((s.pc t).parked = true ∧ s.satisfied t = false) ∧ t ∉ s.queue
  apart : ∀ u v t, t ∈ (s.pc u).wakes → t ∈ (s.pc v).wakes → u = v
  /-- A parked thread that is in neither has been woken. -/
  woken : ∀ t, (s.pc t).parked = true →
    s.satisfied t = true ∨ t ∈ s.queue ∨ ∃ u, t ∈ (s.pc u).wakes

variable {s s' : Mutex T} {t : T} {c : MutexPc T} {b : Bool} {q : List T}

private theorem MutexPc.inChain_of_found {c : MutexPc T} (h : c.found = some b) :
    c.inChain = true := by
  cases c with
  | unlockClear _ | unlockWake _ => rfl
  | _ => cases h

/-- While no thread has the chain lock, or one that is not unlocking, no unlocker is in its critical
section. -/
private theorem LockOk.no_unlocker (h : LockOk s) (hc : s.chain = none ∨ s.chain = some t)
    (ht : (s.pc t).found = none) (u : T) (b : Bool) : (s.pc u).found ≠ some b := by
  intro hf
  have hu := (h.holder u).mp (MutexPc.inChain_of_found hf)
  rcases hc with hc | hc
  · rw [hc] at hu
    cases hu
  · obtain rfl := some.inj (hc.symm.trans hu)
    rw [hf] at ht
    cases ht

/-- A priority requeue keeps what is said of the locks. -/
theorem LockOk.requeue (h : LockOk s) (hq : q.Perm s.queue) :
    LockOk { s with queue := q } := by
  refine ⟨h.owner, h.holder, fun hne => h.kept ?_, ?_, h.safe⟩
  · rintro hnil
    rw [hnil] at hq
    exact hne hq.eq_nil
  · intro u b hb
    rw [h.found u b hb, hq.isEmpty_eq]

/-- A priority requeue. -/
theorem WaitOk.requeue (h : WaitOk s) (hq : q.Perm s.queue) :
    WaitOk { s with queue := q } := by
  refine ⟨hq.nodup_iff.mpr h.nodup, fun u hu => h.queued u (hq.mem_iff.mp hu), h.wakeNodup, ?_,
    h.apart, ?_⟩
  · exact fun u v hv => ⟨(h.waking u v hv).1, fun hm => (h.waking u v hv).2 (hq.mem_iff.mp hm)⟩
  intro u hu
  rcases h.woken u hu with hs | hm | hw
  · exact .inl hs
  · exact .inr (.inl (hq.mem_iff.mpr hm))
  · exact .inr (.inr hw)

variable [DecidableEq T] {l : List T}

/-! ### One thread moves -/

private theorem goto_of_ne (hm : s'.pc = s.pc) {u : T} (hu : u ≠ t) : (s'.goto t c).pc u = s.pc u :=
  (goto_pc_of_ne hu).trans (congrFun hm u)

/-- What a place decides is the same for every thread if it is for the one that moves. -/
private theorem class_goto (hm : s'.pc = s.pc) {β : Type} (g : MutexPc T → β)
    (hg : g c = g (s.pc t)) (u : T) : g ((s'.goto t c).pc u) = g (s.pc u) := by
  by_cases hu : u = t
  · subst hu
    rw [goto_pc_self, hg]
  · rw [goto_of_ne hm hu]

/-- A thread that keeps its wake list moves. What is said of the threads to be woken holds if it
does of each of them. -/
private theorem WaitOk.goto (h : WaitOk s) (hm : s'.pc = s.pc) (hw : c.wakes = (s.pc t).wakes)
    (hn : s'.queue.Nodup)
    (hq : ∀ u ∈ s'.queue, ((s'.goto t c).pc u).parked = true ∧ s'.satisfied u = false)
    (hwk : ∀ u v, v ∈ (s.pc u).wakes →
      (((s'.goto t c).pc v).parked = true ∧ s'.satisfied v = false) ∧ v ∉ s'.queue)
    (hwo : ∀ u, ((s'.goto t c).pc u).parked = true →
      s'.satisfied u = true ∨ u ∈ s'.queue ∨ ∃ v, u ∈ (s.pc v).wakes) : WaitOk (s'.goto t c) := by
  have hwakes := class_goto (c := c) hm MutexPc.wakes hw
  refine ⟨hn, hq, ?_, ?_, ?_, ?_⟩
  · intro u
    rw [hwakes u]
    exact h.wakeNodup u
  · intro u v hv
    rw [hwakes u] at hv
    exact hwk u v hv
  · intro u v x hu hv
    rw [hwakes u] at hu
    rw [hwakes v] at hv
    exact h.apart u v x hu hv
  · simp only [hwakes]
    exact hwo

/-- A step that touches neither the queue nor a wait, of a thread that stays parked or not and keeps
its wake list. -/
theorem WaitOk.frame (h : WaitOk s) (hm : s'.pc = s.pc) (hq : s'.queue = s.queue)
    (hsat : s'.satisfied = s.satisfied) (hp : c.parked = (s.pc t).parked)
    (hw : c.wakes = (s.pc t).wakes) : WaitOk (s'.goto t c) := by
  have hparked := class_goto (c := c) hm MutexPc.parked hp
  refine h.goto hm hw (hq ▸ h.nodup) ?_ ?_ ?_
  all_goals simp only [hparked, hsat, hq]
  · exact h.queued
  · exact h.waking
  · exact h.woken

/-- A step of the word or the chain lock. What is said of the queue and of the unlockers is left to
the step. -/
private theorem LockOk.goto (h : LockOk s) (hm : s'.pc = s.pc)
    (ho : c.owns = true ↔ s'.word = some t)
    (ho' : ∀ u, u ≠ t → (s.word = some u ↔ s'.word = some u))
    (hi : c.inChain = true ↔ s'.chain = some t)
    (hi' : ∀ u, u ≠ t → (s.chain = some u ↔ s'.chain = some u))
    (hk : s'.queue ≠ [] → s'.word ≠ none ∨ ∃ u, ((s'.goto t c).pc u).clears = true)
    (hf : ∀ u b, ((s'.goto t c).pc u).found = some b → b = !s'.queue.isEmpty)
    (hs : c ≠ .panicked) : LockOk (s'.goto t c) := by
  refine ⟨fun u => ?_, fun u => ?_, hk, hf, fun u => ?_⟩
  all_goals by_cases hu : u = t
  case pos | pos | pos =>
    subst hu
    rwa [goto_pc_self]
  all_goals rw [goto_of_ne hm hu]
  · exact (h.owner u).trans (ho' u hu)
  · exact (h.holder u).trans (hi' u hu)
  · exact h.safe u

private theorem LockOk.kept_goto (h : LockOk s) (hm : s'.pc = s.pc) (hq : s'.queue = s.queue)
    (hw : s'.word = s.word) (hc : c.clears = (s.pc t).clears)
    (hne : s'.queue ≠ []) : s'.word ≠ none ∨ ∃ u, ((s'.goto t c).pc u).clears = true := by
  simp only [hw, class_goto (c := c) hm MutexPc.clears hc]
  exact h.kept (hq ▸ hne)

private theorem LockOk.found_goto (h : LockOk s) (hm : s'.pc = s.pc) (hq : s'.queue = s.queue)
    (hf : c.found = (s.pc t).found) (u : T) (b : Bool)
    (hb : ((s'.goto t c).pc u).found = some b) : b = !s'.queue.isEmpty := by
  rw [class_goto (c := c) hm MutexPc.found hf] at hb
  exact hq ▸ h.found u b hb

/-- A step that touches neither the word nor the chain lock nor the queue, of a thread that keeps
its part in them. -/
theorem LockOk.frame (h : LockOk s) (hm : s'.pc = s.pc) (hword : s'.word = s.word)
    (hchain : s'.chain = s.chain) (hq : s'.queue = s.queue) (ho : c.owns = (s.pc t).owns)
    (hi : c.inChain = (s.pc t).inChain) (hf : c.found = (s.pc t).found)
    (hc : c.clears = (s.pc t).clears) (hs : c ≠ .panicked) : LockOk (s'.goto t c) := by
  refine h.goto hm ?_ ?_ ?_ ?_ (h.kept_goto hm hq hword hc) (h.found_goto hm hq hf) hs
  · rw [ho, hword]
    exact h.owner t
  · exact fun _ _ => by rw [hword]
  · rw [hi, hchain]
    exact h.holder t
  · exact fun _ _ => by rw [hchain]

/-! ### The waits -/

/-- A thread that no one has to wake joins the queue. -/
theorem WaitOk.enqueue (h : WaitOk s) {r : List T} (hq : s.queue = l ++ r)
    (hp : (s.pc t).parked = false) (hw : (s.pc t).wakes = []) :
    WaitOk (({ s with queue := l ++ t :: r }.setSatisfied t false).goto t .boost) := by
  have hnot : t ∉ s.queue := fun hm => by simp [(h.queued t hm).1] at hp
  have hnw : ∀ u, t ∉ (s.pc u).wakes := fun u hm => by simp [(h.waking u t hm).1.1] at hp
  have hmem : ∀ u, u ∈ l ++ t :: r ↔ u = t ∨ u ∈ s.queue := by
    intro u
    rw [hq]
    simp only [mem_append, mem_cons]
    tauto
  refine h.goto rfl hw.symm ?_ ?_ ?_ ?_
  · have hperm : (l ++ t :: r).Perm (t :: s.queue) := hq ▸ perm_middle
    exact hperm.nodup_iff.mpr (nodup_cons.mpr ⟨hnot, h.nodup⟩)
  · intro u hu
    by_cases hut : u = t
    · subst hut
      exact ⟨by rw [goto_pc_self]; rfl, setSatisfied_self⟩
    · rw [goto_pc_of_ne hut, setSatisfied_of_ne hut]
      exact h.queued u (((hmem u).mp hu).resolve_left hut)
  · intro u v hv
    have hvt : v ≠ t := by
      rintro rfl
      exact hnw u hv
    rw [goto_pc_of_ne hvt, setSatisfied_of_ne hvt]
    have := h.waking u v hv
    exact ⟨this.1, fun hm => this.2 (((hmem v).mp hm).resolve_left hvt)⟩
  · intro u hu
    by_cases hut : u = t
    · exact .inr (.inl ((hmem u).mpr (.inl hut)))
    · rw [goto_pc_of_ne hut] at hu
      rw [setSatisfied_of_ne hut]
      exact (h.woken u hu).imp_right (.imp_left fun hm => (hmem u).mpr (.inr hm))

/-- A thread whose wait is satisfied goes on. -/
theorem WaitOk.resume (h : WaitOk s) (hsat : s.satisfied t = true) (hc : c.parked = false)
    (hw : c.wakes = (s.pc t).wakes) : WaitOk (s.goto t c) := by
  have hne : ∀ u, s.satisfied u = false → u ≠ t := by
    rintro u hu rfl
    simp [hsat] at hu
  refine h.goto rfl hw h.nodup ?_ ?_ ?_
  · intro u hu
    have hq := h.queued u hu
    rw [goto_pc_of_ne (hne u hq.2)]
    exact hq
  · intro u v hv
    have hwk := h.waking u v hv
    rw [goto_pc_of_ne (hne v hwk.1.2)]
    exact hwk
  · intro u hu
    by_cases hut : u = t
    · subst hut
      rw [goto_pc_self, hc] at hu
      cases hu
    · rw [goto_pc_of_ne hut] at hu
      exact h.woken u hu

/-- A thread gets another wake list. Each thread that waits to be woken must still be in one
place. -/
private theorem WaitOk.relist (h : WaitOk s) (hm : s'.pc = s.pc) (hp : c.parked = (s.pc t).parked)
    (hnodup : s'.queue.Nodup)
    (hqueued : ∀ u ∈ s'.queue, (s.pc u).parked = true ∧ s'.satisfied u = false)
    (hwakes : c.wakes.Nodup)
    (hself : ∀ u ∈ c.wakes, ((s.pc u).parked = true ∧ s'.satisfied u = false) ∧ u ∉ s'.queue)
    (hother : ∀ v, v ≠ t → ∀ u ∈ (s.pc v).wakes,
      (s'.satisfied u = false ∧ u ∉ s'.queue) ∧ u ∉ c.wakes)
    (hwoken : ∀ u, (s.pc u).parked = true → s'.satisfied u = true ∨ u ∈ s'.queue ∨
      u ∈ c.wakes ∨ ∃ v, v ≠ t ∧ u ∈ (s.pc v).wakes) : WaitOk (s'.goto t c) := by
  have hparked := class_goto (c := c) hm MutexPc.parked hp
  have hcase : ∀ v u, u ∈ ((s'.goto t c).pc v).wakes →
      v = t ∧ u ∈ c.wakes ∨ v ≠ t ∧ u ∈ (s.pc v).wakes := by
    intro v u hu
    by_cases hv : v = t
    · subst hv
      rw [goto_pc_self] at hu
      exact .inl ⟨rfl, hu⟩
    · rw [goto_of_ne hm hv] at hu
      exact .inr ⟨hv, hu⟩
  refine ⟨hnodup, ?_, fun v => ?_, fun v u hu => ?_, fun v w u hv hw => ?_, fun u hu => ?_⟩
  · simp only [hparked]
    exact hqueued
  · by_cases hv : v = t
    · subst hv
      rw [goto_pc_self]
      exact hwakes
    · rw [goto_of_ne hm hv]
      exact h.wakeNodup v
  · rw [hparked]
    rcases hcase v u hu with ⟨-, hu⟩ | ⟨hv, hu⟩
    · exact hself u hu
    · obtain ⟨⟨hsat, hq⟩, -⟩ := hother v hv u hu
      exact ⟨⟨(h.waking v u hu).1.1, hsat⟩, hq⟩
  · rcases hcase v u hv with ⟨rfl, hc⟩ | ⟨hvt, hc⟩ <;>
      rcases hcase w u hw with ⟨rfl, hd⟩ | ⟨hwt, hd⟩
    · rfl
    · exact absurd hc (hother w hwt u hd).2
    · exact absurd hd (hother v hvt u hc).2
    · exact h.apart v w u hc hd
  · rw [hparked] at hu
    refine (hwoken u hu).imp_right (.imp_right ?_)
    rintro (hc | ⟨v, hv, hc⟩)
    · exact ⟨t, by rw [goto_pc_self]; exact hc⟩
    · exact ⟨v, by rw [goto_of_ne hm hv]; exact hc⟩

/-- An unlock takes the whole queue to its wake list. -/
theorem WaitOk.collect (h : WaitOk s) (hp : (s.pc t).parked = false) (hw : (s.pc t).wakes = []) :
    WaitOk ({ s with chain := none, queue := [] }.goto t (.waking s.queue.reverse)) := by
  refine h.relist rfl hp.symm nodup_nil nofun (nodup_reverse.mpr h.nodup) ?_ ?_ ?_
  · exact fun u hu => ⟨h.queued u (mem_reverse.mp hu), not_mem_nil⟩
  · intro v _ u hu
    obtain ⟨⟨-, hsat⟩, hq⟩ := h.waking v u hu
    exact ⟨⟨hsat, not_mem_nil⟩, fun hm => hq (mem_reverse.mp hm)⟩
  intro u hu
  rcases h.woken u hu with hs | hm | ⟨v, hv⟩
  · exact .inl hs
  · exact .inr (.inr (.inl (mem_reverse.mpr hm)))
  refine .inr (.inr (.inr ⟨v, ?_, hv⟩))
  rintro rfl
  rw [hw] at hv
  cases hv

/-- An unlock wakes the next thread of its wake list, whose wait is not satisfied yet. -/
theorem WaitOk.wake (h : WaitOk s) {x : T} (hs : s.pc t = .waking (x :: l)) :
    s.satisfied x = false ∧ WaitOk ((s.setSatisfied x true).goto t (.waking l)) := by
  have hold : (s.pc t).wakes = x :: l := by
    rw [hs]
    rfl
  have hx : x ∈ (s.pc t).wakes := hold.symm ▸ mem_cons_self
  have hl : ∀ u ∈ l, u ∈ (s.pc t).wakes := fun u hu => hold.symm ▸ mem_cons_of_mem x hu
  obtain ⟨hxl, hnd⟩ := nodup_cons.mp (hold ▸ h.wakeNodup t)
  have hsat : ∀ u, u ≠ x → (s.setSatisfied x true).satisfied u = s.satisfied u :=
    fun u hu => setSatisfied_of_ne hu
  refine ⟨(h.waking t x hx).1.2, h.relist rfl (by rw [hs]; rfl) h.nodup (fun u hu => ?_) hnd
    (fun u hu => ?_) (fun v hv u hu => ?_) fun u hu => ?_⟩
  · rw [hsat u (ne_of_mem_of_not_mem hu (h.waking t x hx).2)]
    exact h.queued u hu
  · rw [hsat u (ne_of_mem_of_not_mem hu hxl)]
    exact h.waking t u (hl u hu)
  · have hux : u ≠ x := by
      rintro rfl
      exact hv (h.apart v t u hu hx)
    obtain ⟨⟨-, hfalse⟩, hq⟩ := h.waking v u hu
    rw [hsat u hux]
    exact ⟨⟨hfalse, hq⟩, fun hul => hv (h.apart v t u hu (hl u hul))⟩
  · by_cases hux : u = x
    · rw [hux]
      exact .inl setSatisfied_self
    rw [hsat u hux]
    refine (h.woken u hu).imp_right (.imp_right ?_)
    rintro ⟨v, hv⟩
    by_cases hvt : v = t
    · rw [hvt, hold] at hv
      exact .inl ((mem_cons.mp hv).resolve_left hux)
    · exact .inr ⟨v, hvt, hv⟩

/-! ### The word and the chain lock -/

omit [DecidableEq T] in
/-- A lock that is free or the thread's, before and after, is no other thread's. -/
private theorem others_iff {a b : Option T} (ha : a = none ∨ a = some t)
    (hb : b = none ∨ b = some t) (u : T) (hu : u ≠ t) : a = some u ↔ b = some u := by
  rcases ha with rfl | rfl <;> rcases hb with rfl | rfl <;> simp [Ne.symm hu]

variable (h : LockOk s)
include h

/-- The compare and swap of `mutex_try_lock` succeeds. -/
theorem LockOk.acquire (hw : s.word = none) (hi : (s.pc t).inChain = false)
    (hf : (s.pc t).found = none) : LockOk ({ s with word := some t }.goto t .holds) := by
  refine h.goto rfl (iff_of_true rfl rfl) (others_iff (.inl hw) (.inr rfl)) ?_ (fun _ _ => .rfl)
    (fun _ => .inl (some_ne_none t)) (h.found_goto rfl rfl hf.symm) nofun
  exact iff_of_false Bool.false_ne_true fun hc => by simp [(h.holder t).mpr hc] at hi

/-- A thread takes the free chain lock; an unlocker learns whether a thread is queued. -/
theorem LockOk.take (hfree : s.chain = none) (hi : c.inChain = true)
    (ho : c.owns = (s.pc t).owns) (hcl : c.clears = (s.pc t).clears)
    (hf : ∀ b, c.found = some b → b = !s.queue.isEmpty) (hs : c ≠ .panicked) :
    LockOk ({ s with chain := some t }.goto t c) := by
  refine h.goto rfl (ho ▸ h.owner t) (fun _ _ => .rfl) (iff_of_true hi rfl)
    (others_iff (.inl hfree) (.inr rfl)) (h.kept_goto rfl rfl rfl hcl) (fun u b hb => ?_) hs
  by_cases hu : u = t
  · subst hu
    rw [goto_pc_self] at hb
    exact hf b hb
  · rw [goto_pc_of_ne hu] at hb
    exact h.found u b hb

/-- A thread that is not unlocking lets go of the chain lock. -/
theorem LockOk.drop (hold : s.chain = some t) (hi : c.inChain = false)
    (ho : c.owns = (s.pc t).owns) (hcl : c.clears = (s.pc t).clears)
    (hf : c.found = (s.pc t).found) (hs : c ≠ .panicked) :
    LockOk ({ s with chain := none }.goto t c) :=
  h.goto rfl (ho ▸ h.owner t) (fun _ _ => .rfl) (iff_of_false (by simp [hi]) nofun)
    (others_iff (.inr hold) (.inl rfl)) (h.kept_goto rfl rfl rfl hcl) (h.found_goto rfl rfl hf) hs

/-- A waiter that sees an owner under the chain lock joins the queue. -/
theorem LockOk.enqueue (q : List T) (hold : s.chain = some t)
    (hw : s.word ≠ none) (ho : (s.pc t).owns = false) (hf : (s.pc t).found = none) :
    LockOk (({ s with queue := q }.setSatisfied t false).goto t .boost) := by
  refine h.goto rfl ?_ (fun _ _ => .rfl) (iff_of_true rfl hold) (fun _ _ => .rfl)
    (fun _ => .inl hw) (fun u b hb => ?_) nofun
  · exact iff_of_false Bool.false_ne_true fun hc => by simp [(h.owner t).mpr hc] at ho
  · have hkept := class_goto (s := s) (c := .boost) rfl MutexPc.found hf.symm u
    exact absurd (hkept.symm.trans hb) (h.no_unlocker (.inr hold) hf u b)

/-- The unlock clears the word. -/
theorem LockOk.clear (hs : s.pc t = .unlockClear b) :
    LockOk ({ s with word := none }.goto t (.unlockWake b)) := by
  have hown : s.word = some t := (h.owner t).mp (by rw [hs]; rfl)
  have hold : s.chain = some t := (h.holder t).mp (by rw [hs]; rfl)
  refine h.goto rfl (iff_of_false Bool.false_ne_true nofun) (others_iff (.inr hown) (.inl rfl))
    (iff_of_true rfl hold) (fun _ _ => .rfl) ?_ (h.found_goto rfl rfl (by rw [hs]; rfl)) nofun
  exact fun _ => .inr ⟨t, by rw [goto_pc_self]; rfl⟩

/-- The unlock leaves its critical section with the queue empty. -/
theorem LockOk.leave (hs : s.pc t = .unlockWake b) (ho : c.owns = false)
    (hi : c.inChain = false) (hf : c.found = none) (hp : c ≠ .panicked) :
    LockOk ({ s with chain := none, queue := [] }.goto t c) := by
  have hold : s.chain = some t := (h.holder t).mp (by rw [hs]; rfl)
  have hown : (s.pc t).owns = false := by rw [hs]; rfl
  refine h.goto rfl (by rw [ho, ← hown]; exact h.owner t) (fun _ _ => .rfl)
    (iff_of_false (by simp [hi]) nofun) (others_iff (.inr hold) (.inl rfl))
    (fun hne => absurd rfl hne) (fun u b' hb => ?_) hp
  by_cases hu : u = t
  · subst hu
    rw [goto_pc_self, hf] at hb
    cases hb
  · rw [goto_pc_of_ne hu] at hb
    have hh := (h.holder u).mp (MutexPc.inChain_of_found hb)
    exact absurd (some.inj (hold.symm.trans hh)).symm hu

end Charmos.Sync
