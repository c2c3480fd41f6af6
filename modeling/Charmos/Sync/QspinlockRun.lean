import Charmos.Lib.Trace
import Charmos.Sync.QspinlockSpec

/-!
# Runs of the queued spinlock

A waiter enters the loop that sets the pending bit with a word whose tail is empty, but takes over
whatever word its compare and swap finds. Three other waiters can bring a tail into that word, and
the head of the queue, which counts on the pending bit staying clear, then claims the lock beside
the pender (`qspinRun_broken`). In the runs in which a failing compare and swap of that loop finds
the tail empty or the pending bit set, the lock is exclusive and its word exact (`qspinRun_sound`).
-/

namespace Charmos.Sync

open Option Qspin Relation

variable {s s' : Qspin} {q : List Waiter} {own pnd : Option Waiter} {a : Waiter} {spurious : Bool}
  {p : QspinPc}

/-- A compare and swap of the pending loop that fails finds the tail empty or the pending bit
set. -/
def RereadMeets (s : Qspin) (a : Waiter) : QspinAct → Prop
  | .run spurious => ∀ val, s.pc a = .pend val → ¬ (s.word = val ∧ spurious = false) →
      s.word &&& tailMask = 0#32 ∨ s.word &&& pendingMask ≠ 0#32
  | _ => True

/-- One step of some waiter under that condition. -/
def RereadStep (s s' : Qspin) : Prop :=
  ∃ a act, qspinStep s a act = some s' ∧ RereadMeets s a act

section

variable (h : QspinOk s q own pnd)
include h

/-- The loop of the pending bit goes on with a word whose tail is empty, or ends. -/
private theorem QspinOk.pendLoop (hpc : s.pc a = p)
    (hs : p.queued = false) (ho : p.owns = false) (hp : p.pends = false)
    (hv : s.word &&& tailMask = 0#32 ∨ s.word &&& pendingMask ≠ 0#32) :
    QspinOk (s.goto a (Sync.pendLoop s.word)) q own pnd := by
  unfold Sync.pendLoop
  split
  case isTrue hpend =>
    refine h.moveOutside hpc hs rfl ho.symm hp.symm ?_
    simp only [PcOk, goto_pc_self]
    exact ⟨hv.resolve_right fun hn => hn hpend, hpend⟩
  case isFalse =>
    refine h.moveOutside hpc hs rfl ho.symm hp.symm ?_
    simp only [PcOk, goto_pc_self]

/-- A waiter of the queue moves on and stays on its side of the head. -/
private theorem QspinOk.moveInside {c : QspinPc} (hpc : s.pc a = p)
    (hq : c.queued = p.queued) (hl : c.linking = none) (hl' : p.linking = none)
    (hh : c.atHead (s.node a).locked = p.atHead (s.node a).locked) (ho : c.owns = p.owns)
    (hp : c.pends = p.pends) (hc : PcOk (s.goto a c) q own pnd a) :
    QspinOk (s.goto a c) q own pnd := by
  subst hpc
  exact h.move (h.queue.inside hq hl hl' hh) ho hp hc

/-- Each step inside `qspin_lock_slowpath` keeps the invariant. -/
theorem qspinRun_ok (hm : RereadMeets s a (.run spurious)) :
    match qspinRun s a spurious with
    | some s' => ∃ q own pnd, QspinOk s' q own pnd
    | none => True := by
  have hpcs := h.pcs a
  cases hc : s.pc a <;> simp only [qspinRun, hc] <;> simp only [PcOk, hc] at hpcs
  case pend val =>
    split_ifs with hcas
    · obtain rfl := hcas.1
      exact ⟨_, _, _, h.pend hc⟩
    · exact ⟨_, _, _, h.pendLoop hc rfl rfl rfl (hm val hc hcas)⟩
  case pendWait =>
    split_ifs with hfree
    · refine ⟨_, _, _, h.moveOutside hc rfl rfl rfl rfl ?_⟩
      simp only [PcOk, goto_pc_self]
      rw [h.word, enc_and_lockedMask (tailOf_and_tailMask q)] at hfree
      cases own with
      | none => rfl
      | some b => exact absurd hfree (by simp [lockedVal])
    · exact ⟨_, _, _, h⟩
  case pendAdd => exact ⟨_, _, _, h.add hc⟩
  case initLocked val =>
    have hnode := h.writeNode hc rfl { s.node a with locked := false }
      (by simp only [PcOk, setNode_pc, hc])
    refine ⟨_, _, _, hnode.moveOutside hc rfl rfl rfl rfl ?_⟩
    simp only [PcOk, goto_pc_self, goto_node, setNode_node_self]
  case initNext val =>
    have hnode := h.writeNode hc rfl { s.node a with next := none }
      (by simpa only [PcOk, setNode_pc, hc, setNode_node_self] using hpcs)
    refine ⟨_, _, _, hnode.moveOutside hc rfl rfl rfl rfl ?_⟩
    simp only [PcOk, goto_pc_self, goto_node, setNode_node_self]
    exact ⟨hpcs, trivial⟩
  case publish val =>
    split_ifs with hcas ht
    · obtain rfl := hcas.1
      rw [h.tail] at ht
      exact ⟨_, _, _, h.publish hc (.inl ⟨tailOf_eq_zero.mp ht, rfl⟩)⟩
    · obtain rfl := hcas.1
      rw [h.tail] at ht ⊢
      obtain ⟨b, hb⟩ : ∃ b, q.getLast? = some b := by
        cases hl : q.getLast? with
        | none => exact absurd (by simp [tailOf, hl]) ht
        | some b => exact ⟨b, rfl⟩
      rw [tailOf_eq_mkTail.mpr hb, tailNode_mkTail]
      exact ⟨_, _, _, h.publish hc (.inr ⟨b, hb, rfl⟩)⟩
    · refine ⟨_, _, _, h.moveOutside hc rfl rfl rfl rfl ?_⟩
      simpa only [PcOk, goto_pc_self, goto_node] using hpcs
  case link prev => exact ⟨_, _, _, h.link hc⟩
  case spin =>
    split_ifs with hl
    · refine ⟨_, _, _, h.moveInside hc rfl rfl rfl ?_ rfl rfl
        (by simp only [PcOk, goto_pc_self])⟩
      rw [hl]
      rfl
    · exact ⟨_, _, _, h⟩
  case headWait =>
    split_ifs with hfree
    · rw [h.word, enc_and_lockedPendingMask (tailOf_and_tailMask q)] at hfree
      refine ⟨_, _, _, h.moveInside hc rfl rfl rfl rfl rfl rfl ?_⟩
      simp only [PcOk, goto_pc_self]
      refine ⟨by simpa using hfree, ?_⟩
      rw [h.tail, ne_eq, tailOf_eq_mkTail]
      exact id
    · exact ⟨_, _, _, h⟩
  case claim val =>
    split_ifs with ht hcas
    · obtain rfl := hcas.1
      exact ⟨_, _, _, h.claimLast hc ht⟩
    · refine ⟨_, _, _, h.moveInside hc rfl rfl rfl rfl rfl rfl ?_⟩
      simp only [PcOk, goto_pc_self]
      refine ⟨hpcs.1, ?_⟩
      rw [h.tail, ne_eq, tailOf_eq_mkTail]
      exact id
    · exact ⟨_, _, _, h.claimShared hc ht⟩
  case waitNext =>
    split_ifs with hn
    · refine ⟨_, _, _, h.moveInside hc rfl rfl rfl rfl rfl rfl ?_⟩
      simp only [PcOk, goto_pc_self, goto_node]
      exact ⟨hpcs, isSome_iff_ne_none.mp hn⟩
    · exact ⟨_, _, _, h⟩
  case loadNext =>
    cases hn : (s.node a).next with
    | none => trivial
    | some n =>
      refine ⟨_, _, _, h.moveInside hc rfl rfl rfl rfl rfl rfl ?_⟩
      simp only [PcOk, goto_pc_self, goto_node]
      exact ⟨hpcs.1, hn⟩
  case handOff n =>
    obtain ⟨q', hq'⟩ := h.handOff hc
    exact ⟨q', _, _, hq'⟩

/-- Each step keeps the invariant. -/
theorem qspinStep_ok {act : QspinAct}
    (hs : qspinStep s a act = some s') (hm : RereadMeets s a act) :
    ∃ q own pnd, QspinOk s' q own pnd := by
  cases act with
  | lock =>
    obtain ⟨hc, hs⟩ := ite_none_right_eq_some.mp hs
    split at hs <;> obtain ⟨⟩ := hs
    case isTrue hw => exact ⟨_, _, _, h.fast hw⟩
    case isFalse =>
      unfold slowpath
      split
      case isTrue ht => exact ⟨_, _, _, h.pendLoop hc rfl rfl rfl (.inl ht)⟩
      case isFalse =>
        refine ⟨_, _, _, h.moveOutside hc rfl rfl rfl rfl ?_⟩
        simp only [PcOk, goto_pc_self]
  | trylock =>
    obtain ⟨hc, hs⟩ := ite_none_right_eq_some.mp hs
    split at hs <;> obtain ⟨⟩ := hs
    case isTrue hw => exact ⟨_, _, _, h.fast hw⟩
    case isFalse => exact ⟨_, _, _, h⟩
  | unlock =>
    obtain ⟨hc, ⟨⟩⟩ := ite_none_right_eq_some.mp hs
    exact ⟨_, _, _, h.unlock hc⟩
  | run spurious =>
    have hrun := qspinRun_ok h hm
    rwa [show qspinRun s a spurious = some s' from hs] at hrun
  | reuse contents =>
    obtain ⟨hc, ⟨⟩⟩ := ite_none_right_eq_some.mp hs
    rcases hc with hc | hc
    · exact ⟨_, _, _, h.writeNode hc rfl _ (by simp only [PcOk, setNode_pc, hc])⟩
    · exact ⟨_, _, _, h.writeNode hc rfl _ (by simp only [PcOk, setNode_pc, hc])⟩

end

/-- Every run under the condition keeps the invariant. -/
theorem qspinSteps_ok {node : Waiter → Qnode} (h : ReflTransGen RereadStep (qspinInit node) s) :
    ∃ q own pnd, QspinOk s q own pnd := by
  induction h with
  | refl =>
    refine ⟨[], none, none, by rfl, ⟨List.nodup_nil, ?_, by simp, fun _ _ hf => hf.elim, by simp⟩,
      ?_, ?_, fun _ => trivial⟩
    · exact fun _ => iff_of_false List.not_mem_nil Bool.false_ne_true
    · exact fun _ => iff_of_false Bool.false_ne_true (by simp)
    · exact fun _ => iff_of_false Bool.false_ne_true (by simp)
  | tail _ hstep ih =>
    obtain ⟨q, own, pnd, hok⟩ := ih
    obtain ⟨a, act, hs, hm⟩ := hstep
    exact qspinStep_ok hok hs hm

/-- Exclusion, the pending bit, and the word at rest. -/
structure QspinSound (s : Qspin) : Prop where
  /-- At most one waiter is between the completion of its acquisition and its unlock. -/
  held_once : ∀ a b, s.pc a = .holding → s.pc b = .holding → a = b
  /-- A compare and swap that is about to set the pending bit does so over an empty tail. -/
  pend_tail : ∀ a val, s.pc a = .pend val → s.word = val → s.word &&& tailMask = 0#32
  /-- The pending bit belongs to at most one waiter. -/
  pender_once : ∀ a b, (s.pc a).pends = true → (s.pc b).pends = true → a = b
  /-- The addition of the pender sets the locked byte, clears the pending bit and keeps the
  tail. -/
  add_exact : ∀ a, s.pc a = .pendAdd →
    s.word + (lockedVal - pendingVal) = lockedVal ||| (s.word &&& tailMask)
  /-- While nobody holds the lock or waits for it the word is zero. -/
  rest : (∀ a, s.pc a = .idle) → s.word = 0#32

theorem QspinOk.sound (h : QspinOk s q own pnd) : QspinSound s where
  held_once a b ha hb := by
    have hoa := (h.owner a).mp (by rw [ha]; rfl)
    have hob := (h.owner b).mp (by rw [hb]; rfl)
    exact some.inj (hoa.symm.trans hob)
  pend_tail a val ha hw := by
    have hpc := h.pcs a
    simp only [PcOk, ha] at hpc
    exact hw ▸ hpc.1
  pender_once a b ha hb :=
    some.inj (((h.pender a).mp ha).symm.trans ((h.pender b).mp hb))
  add_exact a ha := by
    have hfree := h.pcs a
    simp only [PcOk, ha] at hfree
    have hp : pnd = some a := (h.pender a).mp (by rw [ha]; rfl)
    rw [h.tail, h.word, hfree, hp]
    exact enc_pendingToLocked (tailOf_and_tailMask q)
  rest hidle := by
    have hown : own = none := by
      refine eq_none_iff_forall_ne_some.mpr fun a ha => absurd ((h.owner a).mpr ha) ?_
      rw [hidle a]
      exact Bool.false_ne_true
    have hpnd : pnd = none := by
      refine eq_none_iff_forall_ne_some.mpr fun a ha => absurd ((h.pender a).mpr ha) ?_
      rw [hidle a]
      exact Bool.false_ne_true
    have hq : q = [] := by
      refine List.eq_nil_iff_forall_not_mem.mpr fun a ha => ?_
      have := (h.queue.mem a).mp ha
      rw [hidle a] at this
      cases this
    rw [h.word, hown, hpnd, hq]
    rfl

/-- In every state reached by steps under the condition, the lock is exclusive, the pending bit is
set over an empty tail only and belongs to one waiter, its addition is exact, and the word is zero
at rest. -/
theorem qspinRun_sound (node : Waiter → Qnode) (s : Qspin)
    (h : ReflTransGen RereadStep (qspinInit node) s) : QspinSound s := by
  obtain ⟨q, own, pnd, hok⟩ := qspinSteps_ok h
  exact hok.sound

private def waiterOn (cpu : Fin 65535) : Waiter := ⟨cpu, 0⟩

private def emptyNode : Qnode := ⟨none, false⟩

/-- One CPU holds the lock and another has set the pending bit. -/
theorem qspinRun_sound_pender : ∃ s,
    ReflTransGen RereadStep (qspinInit fun _ => emptyNode) s ∧
      s.word = 0x00000101#32 ∧ QspinSound s := by
  obtain ⟨s₁, h₁, hpc₁, hw₁⟩ : ∃ s₁, qspinStep (qspinInit fun _ => emptyNode) (waiterOn 0) .lock =
      some s₁ ∧ s₁.pc (waiterOn 1) = .idle ∧ s₁.word = lockedVal :=
    ⟨_, rfl, goto_pc_of_ne (by decide), rfl⟩
  obtain ⟨s₂, h₂, hpc₂, hw₂⟩ : ∃ s₂, qspinStep s₁ (waiterOn 1) .lock = some s₂ ∧
      s₂.pc (waiterOn 1) = .pend lockedVal ∧ s₂.word = lockedVal := by
    refine ⟨s₁.goto (waiterOn 1) (slowpath s₁.word), ?_, ?_, hw₁⟩
    · rw [qspinStep, if_pos hpc₁, if_neg (by rw [hw₁]; decide)]
    · rw [goto_pc_self, hw₁]
      decide
  obtain ⟨s₃, h₃, hw₃⟩ : ∃ s₃, qspinStep s₂ (waiterOn 1) (.run false) = some s₃ ∧
      s₃.word = 0x00000101#32 := by
    refine ⟨(s₂.setWord (lockedVal ||| pendingVal)).goto (waiterOn 1) .pendWait, ?_, rfl⟩
    simp only [qspinStep, qspinRun, hpc₂, hw₂, and_self, if_true]
  have hmeets : RereadMeets s₂ (waiterOn 1) (.run false) := by
    intro val hval hfail
    obtain rfl := QspinPc.pend.inj (hpc₂.symm.trans hval)
    exact absurd ⟨hw₂, rfl⟩ hfail
  have hrun : ReflTransGen RereadStep (qspinInit fun _ => emptyNode) s₃ :=
    .tail (.tail (.tail .refl ⟨_, _, h₁, trivial⟩) ⟨_, _, h₂, trivial⟩) ⟨_, _, h₃, hmeets⟩
  exact ⟨s₃, hrun, hw₃, qspinRun_sound _ s₃ hrun⟩

/-- A failing compare and swap of the pending loop that finds a tail and no pending bit is one step
before the pending bit is set over that tail. -/
theorem rereadMeets_of_sound (hc : ∃ val, s.pc a = .pend val)
    (hs : qspinStep s a (.run spurious) = some s') (h : QspinSound s') :
    RereadMeets s a (.run spurious) := by
  obtain ⟨val, hc⟩ := hc
  intro val' hc' hfail
  obtain rfl := QspinPc.pend.inj (hc.symm.trans hc')
  simp only [qspinStep, qspinRun, hc, if_neg hfail] at hs
  obtain ⟨⟩ := hs
  by_cases hp : s.word &&& pendingMask = 0#32
  · refine .inl (h.pend_tail a s.word ?_ rfl)
    rw [goto_pc_self, Sync.pendLoop, if_pos hp]
  · exact .inr hp

/-! ### Two runs -/

/-- The steps of a list, one after the other. -/
def qspinTrace (s : Qspin) : List (Waiter × QspinAct) → Option Qspin
  | [] => some s
  | (a, act) :: l => (qspinStep s a act).bind fun s' => qspinTrace s' l

private theorem qspinTrace_run {l : List (Waiter × QspinAct)} (h : qspinTrace s l = some s') :
    ReflTransGen (fun s s' => ∃ a act, qspinStep s a act = some s') s s' :=
  reflTransGen_of_trace h fun _ a _ hs => ⟨a.1, a.2, hs⟩

/-- CPU 0 holds the lock, CPU 1 has the pending bit, CPU 2 is queued, and CPU 3 carries the word it
found before. The two releases leave the tail alone in the word; CPU 2 sees it free, CPU 3 takes it
over and sets the pending bit, and both acquire. -/
private def brokenTrace : List (Waiter × QspinAct) :=
  [(waiterOn 0, .lock), (waiterOn 1, .lock), (waiterOn 3, .lock), (waiterOn 1, .run false),
    (waiterOn 2, .lock), (waiterOn 2, .run false), (waiterOn 2, .run false),
    (waiterOn 2, .run false), (waiterOn 0, .unlock), (waiterOn 1, .run false),
    (waiterOn 1, .run false), (waiterOn 1, .unlock), (waiterOn 2, .run false),
    (waiterOn 3, .run false), (waiterOn 3, .run false), (waiterOn 3, .run false),
    (waiterOn 2, .run false), (waiterOn 2, .run false), (waiterOn 3, .run false)]

/-- Two CPUs hold the lock, and the addition of the pender has borrowed from the tail. -/
theorem qspinRun_broken : ∃ s,
    ReflTransGen (fun s s' => ∃ a act, qspinStep s a act = some s')
      (qspinInit fun _ => emptyNode) s ∧
    (∃ a b, a ≠ b ∧ s.pc a = .holding ∧ s.pc b = .holding) ∧ s.word = 0xFFFFFF02#32 := by
  have hrun : (qspinTrace (qspinInit fun _ => emptyNode) brokenTrace).map
      (fun s => (s.pc (waiterOn 2), s.pc (waiterOn 3), s.word)) =
        some (.holding, .holding, 0xFFFFFF02#32) := by
    decide +kernel
  obtain ⟨s, hs, hobs⟩ := map_eq_some_iff.mp hrun
  simp only [Prod.mk.injEq] at hobs
  exact ⟨s, qspinTrace_run hs, ⟨waiterOn 2, waiterOn 3, by decide, hobs.1, hobs.2.1⟩, hobs.2.2⟩

end Charmos.Sync
