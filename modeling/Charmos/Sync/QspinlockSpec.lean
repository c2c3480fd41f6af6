import Charmos.Lib.Follows
import Charmos.Sync.Qspinlock
import Mathlib.Data.List.Nodup

/-!
# Mutual exclusion of the queued spinlock

The invariant names what the word stands for: the waiter that owns the lock, the one that owns the
pending bit, and the queue of the waiters whose node is published, first to claim first. The word is
the encoding of these three (`QspinOk.word`), so each atomic step is a change of one of them, and
the addition of the pender is exact.

The invariant needs that the pending bit is set over an empty tail only. A waiter that is about to
set it knows that its `val` has none (`PcOk`), and each other step is shown here to keep the
invariant.
-/

namespace Charmos.Sync

open Function List Option Qspin

namespace QspinPc

/-- The waiter's node is in the queue. -/
def queued : QspinPc → Bool
  | .link _ | .spin | .headWait | .claim _ | .waitNext | .loadNext | .handOff _ => true
  | _ => false

/-- The locked byte is the waiter's. -/
def owns : QspinPc → Bool
  | .holding | .waitNext | .loadNext | .handOff _ => true
  | _ => false

/-- The pending bit is the waiter's. -/
def pends : QspinPc → Bool
  | .pendWait | .pendAdd => true
  | _ => false

/-- The waiter has published its node and not linked it. -/
def linking : QspinPc → Option Waiter
  | .link b => some b
  | _ => none

/-- The waiter is past the wait for its node's `locked`, which is `locked` while it spins. -/
def atHead (locked : Bool) : QspinPc → Bool
  | .spin => locked
  | .headWait | .claim _ | .waitNext | .loadNext | .handOff _ => true
  | _ => false

/-- A waiter that is queued and linked and not past the wait for its node spins. -/
theorem eq_spin {c : QspinPc} (locked : Bool) (hq : c.queued = true) (hl : c.linking = none)
    (hh : c.atHead locked ≠ true) : c = .spin := by
  cases c with
  | spin => rfl
  | link b => cases hl
  | headWait | claim _ | waitNext | loadNext | handOff _ => exact absurd rfl hh
  | idle | holding | pend _ | pendWait | pendAdd | initLocked _ | initNext _ | publish _ => cases hq

end QspinPc

/-- The tail field of a word whose queue is `q`. -/
def tailOf (q : List Waiter) : BitVec 32 := (q.getLast?.map mkTail).getD 0#32

theorem tailOf_and_tailMask (q : List Waiter) : tailOf q &&& tailMask = tailOf q := by
  unfold tailOf
  cases q.getLast? with
  | none => rfl
  | some a => exact mkTail_and_tailMask a

variable {q : List Waiter}

theorem tailOf_eq_zero : tailOf q = 0#32 ↔ q = [] := by
  constructor
  · intro h
    cases hq : q.getLast? with
    | none => exact getLast?_eq_none_iff.mp hq
    | some a => exact absurd (by simpa [tailOf, hq] using h) (mkTail_ne_zero a)
  · rintro rfl
    rfl

theorem tailOf_eq_mkTail {a : Waiter} : tailOf q = mkTail a ↔ q.getLast? = some a := by
  unfold tailOf
  cases q.getLast? with
  | none => simpa using (mkTail_ne_zero a).symm
  | some b => simpa using mkTail_injective.eq_iff

@[simp] theorem tailOf_concat (q : List Waiter) (a : Waiter) : tailOf (q ++ [a]) = mkTail a := by
  simp [tailOf]

theorem tailNode_mkTail (a : Waiter) : tailNode (mkTail a) = some a := by
  unfold tailNode
  rw [dif_pos ⟨by rw [tailCpu_mkTail]; exact a.cpu.isLt, by rw [tailLvl_mkTail]; exact a.lvl.isLt⟩]
  simp only [tailCpu_mkTail, tailLvl_mkTail]

/-! ### The invariant -/

/-- `y` has published its node behind `x`: it is about to link it, or has. -/
def Linked (s : Qspin) (x y : Waiter) : Prop :=
  (s.pc y = .link x ∧ (s.node x).next = none) ∨
    ((s.pc y).linking = none ∧ (s.node x).next = some y)

/-- The published nodes form the queue `q`. -/
structure QueueOk (s : Qspin) (q : List Waiter) : Prop where
  nodup : q.Nodup
  mem : ∀ a, a ∈ q ↔ (s.pc a).queued = true
  head : ∀ a ∈ q, (s.pc a).atHead (s.node a).locked = true ↔ q.head? = some a
  linked : ∀ x y, Follows q x y → Linked s x y
  last : ∀ a, q.getLast? = some a → (s.node a).next = none

/-- What a waiter knows where it stands. -/
def PcOk (s : Qspin) (q : List Waiter) (own pnd : Option Waiter) (a : Waiter) : Prop :=
  match s.pc a with
  | .pend val => val &&& tailMask = 0#32 ∧ val &&& pendingMask = 0#32
  | .pendAdd => own = none
  | .initNext _ => (s.node a).locked = false
  | .publish _ => (s.node a).locked = false ∧ (s.node a).next = none
  | .link _ => (s.node a).locked = false
  | .claim val =>
    (own = none ∧ pnd = none) ∧ (val &&& tailMask ≠ mkTail a → q.getLast? ≠ some a)
  | .waitNext => q.getLast? ≠ some a
  | .loadNext => q.getLast? ≠ some a ∧ (s.node a).next ≠ none
  | .handOff n => q.getLast? ≠ some a ∧ (s.node a).next = some n
  | _ => True

/-- The word stands for the owner, the pender and the queue. -/
structure QspinOk (s : Qspin) (q : List Waiter) (own pnd : Option Waiter) : Prop where
  word : s.word = enc own.isSome pnd.isSome (tailOf q)
  queue : QueueOk s q
  owner : ∀ a, (s.pc a).owns = true ↔ own = some a
  pender : ∀ a, (s.pc a).pends = true ↔ pnd = some a
  pcs : ∀ a, PcOk s q own pnd a

section Frame

variable {s s' : Qspin} {q : List Waiter} {own pnd own' pnd' : Option Waiter} {a : Waiter}

/-- A step of a waiter outside the queue keeps the queue, if it touches no node of it. -/
theorem QueueOk.outside (h : QueueOk s q) (ha : a ∉ q) (hc : (s'.pc a).queued = false)
    (hpc : ∀ b, b ≠ a → s'.pc b = s.pc b) (hnode : ∀ b, b ≠ a → s'.node b = s.node b) :
    QueueOk s' q := by
  have hne : ∀ b ∈ q, b ≠ a := by
    rintro b hb rfl
    exact ha hb
  refine ⟨h.nodup, ?_, ?_, ?_, ?_⟩
  · intro b
    by_cases hb : b = a
    · subst hb
      simp [ha, hc]
    · rw [hpc b hb]
      exact h.mem b
  · intro b hb
    rw [hpc b (hne b hb), hnode b (hne b hb)]
    exact h.head b hb
  · intro x y hxy
    have hl := h.linked x y hxy
    unfold Linked
    rw [hpc y (hne y hxy.mem_right), hnode x (hne x hxy.mem_left)]
    exact hl
  · intro b hb
    rw [hnode b (hne b (mem_of_getLast? hb))]
    exact h.last b hb

/-- A step of a waiter in the queue that keeps its node and its side of the head. -/
theorem QueueOk.inside (h : QueueOk s q) {c : QspinPc} (hq : c.queued = (s.pc a).queued)
    (hl : c.linking = none) (hl' : (s.pc a).linking = none)
    (hh : c.atHead (s.node a).locked = (s.pc a).atHead (s.node a).locked) :
    QueueOk (s.goto a c) q := by
  refine ⟨h.nodup, ?_, ?_, ?_, h.last⟩
  · refine (forall_update_iff s.pc fun b p => b ∈ q ↔ p.queued = true).mpr ⟨?_, fun b _ => h.mem b⟩
    rw [hq]
    exact h.mem a
  · refine (forall_update_iff s.pc fun b p => b ∈ q →
      (p.atHead (s.node b).locked = true ↔ q.head? = some b)).mpr ⟨?_, fun b _ => h.head b⟩
    rw [hh]
    exact h.head a
  intro x y hxy
  by_cases hy : y = a
  · subst hy
    rcases h.linked x y hxy with ⟨hlink, -⟩ | ⟨-, hn⟩
    · rw [hlink] at hl'
      cases hl'
    · exact .inr ⟨by rw [goto_pc_self]; exact hl, hn⟩
  · unfold Linked
    rw [goto_pc_of_ne hy]
    exact h.linked x y hxy

/-- What a waiter knows survives the steps of others. Its node may be written where it waits for
that: `locked` while it spins, `next` while it has no successor. -/
theorem PcOk.frame {q' : List Waiter} {b : Waiter} (h : PcOk s q own pnd b) (hpc : s'.pc b = s.pc b)
    (hlocked : (s'.node b).locked = (s.node b).locked ∨ s.pc b = .spin)
    (hnext : (s'.node b).next = (s.node b).next ∨
      (s.pc b).queued = true ∧ (s.node b).next = none ∧ (s'.node b).next ≠ none)
    (hadd : s.pc b = .pendAdd → own' = none)
    (hclaim : ∀ v, s.pc b = .claim v → own' = none ∧ pnd' = none)
    (hlast : (s.pc b).queued = true → q'.getLast? = some b → q.getLast? = some b) :
    PcOk s' q' own' pnd' b := by
  unfold PcOk at h ⊢
  rw [hpc]
  cases hc : s.pc b with
  | idle | holding | pendWait | initLocked | spin | headWait => trivial
  | pend val =>
    rw [hc] at h
    exact h
  | pendAdd => exact hadd hc
  | initNext val | link val =>
    rw [hc] at h hlocked
    rcases hlocked with hl | hl
    · exact hl.trans h
    · cases hl
  | publish val =>
    rw [hc] at h hlocked hnext
    refine ⟨?_, ?_⟩
    · rcases hlocked with hl | hl
      · exact hl.trans h.1
      · cases hl
    · rcases hnext with hn | ⟨hq, -⟩
      · exact hn.trans h.2
      · cases hq
  | claim val =>
    rw [hc] at h hlast
    exact ⟨hclaim val hc, fun hv hl => h.2 hv (hlast rfl hl)⟩
  | waitNext =>
    rw [hc] at h hlast
    exact fun hl => h (hlast rfl hl)
  | loadNext =>
    rw [hc] at h hlast
    refine ⟨fun hl => h.1 (hlast rfl hl), ?_⟩
    rcases hnext with hn | ⟨-, -, hn⟩
    · exact hn ▸ h.2
    · exact hn
  | handOff n =>
    rw [hc] at h hlast
    refine ⟨fun hl => h.1 (hlast rfl hl), ?_⟩
    rcases hnext with hn | ⟨-, hn, -⟩
    · exact hn.trans h.2
    · exact absurd (hn.symm.trans h.2) (by simp)

end Frame

/-! ### Steps -/

section Steps

variable {s : Qspin} {q : List Waiter} {own pnd : Option Waiter} {a : Waiter} {c : QspinPc}
variable {v : BitVec 32} {q' : List Waiter} {prev n : Waiter} {p : QspinPc}

theorem QspinOk.tail (h : QspinOk s q own pnd) : s.word &&& tailMask = tailOf q := by
  rw [h.word, enc_and_tailMask (tailOf_and_tailMask q)]

theorem QspinOk.not_mem (h : QspinOk s q own pnd) (hc : (s.pc a).queued = false) : a ∉ q := by
  rw [h.queue.mem, hc]
  exact Bool.false_ne_true

/-- Where a waiter of the queue claims, it is the first. -/
theorem QspinOk.head_of_claim (h : QspinOk s q own pnd) (hc : s.pc a = .claim v) :
    q.head? = some a :=
  (h.queue.head a ((h.queue.mem a).mpr (by rw [hc]; rfl))).mp (by rw [hc]; rfl)

/-- A role is kept by the others when one waiter gives it up or never had it. -/
private theorem role_goto {f : QspinPc → Bool} {o : Option Waiter} (o' : Option Waiter)
    (ho : ∀ b, f (s.pc b) = true ↔ o = some b) (hc : f c = true ↔ o' = some a)
    (hne : ∀ b, b ≠ a → (o = some b ↔ o' = some b)) (b : Waiter) :
    f (update s.pc a c b) = true ↔ o' = some b := by
  exact (forall_update_iff s.pc fun b p => f p = true ↔ o' = some b).mpr
    ⟨hc, fun b hb => (ho b).trans (hne b hb)⟩ b

/-- What the other waiters know after a step. A pender before its addition and a waiter about to
claim count on the lock being free, so a step that takes it must rule them out. -/
theorem QspinOk.other {s' : Qspin} {own' pnd' : Option Waiter} {b : Waiter}
    (h : QspinOk s q own pnd) (hpc : s'.pc b = s.pc b)
    (hlocked : (s'.node b).locked = (s.node b).locked ∨ s.pc b = .spin)
    (hnext : (s'.node b).next = (s.node b).next ∨
      (s.pc b).queued = true ∧ (s.node b).next = none ∧ (s'.node b).next ≠ none)
    (hadd : pnd = some b → own = none → own' = none)
    (hclaim : own = none → pnd = none → q.head? = some b → own' = none ∧ pnd' = none)
    (hlast : (s.pc b).queued = true → q'.getLast? = some b → q.getLast? = some b) :
    PcOk s' q' own' pnd' b := by
  have hb := h.pcs b
  refine hb.frame hpc hlocked hnext ?_ ?_ hlast
  · intro hc
    simp only [PcOk, hc] at hb
    exact hadd ((h.pender b).mp (by rw [hc]; rfl)) hb
  · intro w hc
    simp only [PcOk, hc] at hb
    exact hclaim hb.1.1 hb.1.2 (h.head_of_claim hc)

/-- A waiter moves on and keeps its roles and the word. It may write the node of another waiter
where that one waits for it. -/
theorem QspinOk.step {s' : Qspin} (h : QspinOk s q own pnd) (hw : s'.word = s.word)
    (hpc : s'.pc = update s.pc a c) (hq : QueueOk s' q') (hlast : q'.getLast? = q.getLast?)
    (ho : c.owns = (s.pc a).owns) (hp : c.pends = (s.pc a).pends) (hc : PcOk s' q' own pnd a)
    (hnode : ∀ b, b ≠ a → ((s'.node b).locked = (s.node b).locked ∨ s.pc b = .spin) ∧
      ((s'.node b).next = (s.node b).next ∨
        (s.pc b).queued = true ∧ (s.node b).next = none ∧ (s'.node b).next ≠ none)) :
    QspinOk s' q' own pnd := by
  refine ⟨?_, hq, ?_, ?_, fun b => ?_⟩
  · rw [hw, h.word, tailOf, tailOf, hlast]
  · rw [hpc]
    exact role_goto own h.owner (by rw [ho]; exact h.owner a) fun _ _ => .rfl
  · rw [hpc]
    exact role_goto pnd h.pender (by rw [hp]; exact h.pender a) fun _ _ => .rfl
  by_cases hb : b = a
  · exact hb ▸ hc
  · exact h.other (by rw [hpc, update_of_ne hb]) (hnode b hb).1 (hnode b hb).2 (fun _ => id)
      (fun ho hp _ => ⟨ho, hp⟩) fun _ hl => hlast ▸ hl

/-- A waiter moves on and changes neither the word nor a node. -/
theorem QspinOk.move (h : QspinOk s q own pnd) (hq : QueueOk (s.goto a c) q)
    (ho : c.owns = (s.pc a).owns) (hp : c.pends = (s.pc a).pends)
    (hc : PcOk (s.goto a c) q own pnd a) : QspinOk (s.goto a c) q own pnd :=
  h.step rfl rfl hq rfl ho hp hc fun _ _ => ⟨.inl rfl, .inl rfl⟩

/-- A waiter outside the queue moves on. -/
theorem QspinOk.moveOutside (h : QspinOk s q own pnd) (hpc : s.pc a = p) (hs : p.queued = false)
    (hq : c.queued = false) (ho : c.owns = p.owns) (hp : c.pends = p.pends)
    (hc : PcOk (s.goto a c) q own pnd a) : QspinOk (s.goto a c) q own pnd := by
  subst hpc
  refine h.move ?_ ho hp hc
  exact h.queue.outside (h.not_mem hs) (by rw [goto_pc_self]; exact hq)
    (fun b hb => goto_pc_of_ne hb) fun _ _ => rfl

/-- A waiter outside the queue writes its own node. -/
theorem QspinOk.writeNode (h : QspinOk s q own pnd) (hpc : s.pc a = p) (hs : p.queued = false)
    (n : Qnode) (hc : PcOk (s.setNode a n) q own pnd a) : QspinOk (s.setNode a n) q own pnd := by
  subst hpc
  have hnode : ∀ b, b ≠ a → (s.setNode a n).node b = s.node b := fun b hb => setNode_node_of_ne hb
  refine h.step rfl (update_eq_self a s.pc).symm ?_ rfl rfl rfl hc fun b hb => ?_
  · exact h.queue.outside (h.not_mem hs) hs (fun _ _ => rfl) hnode
  · rw [hnode b hb]
    exact ⟨.inl rfl, .inl rfl⟩

/-- The word is zero only if nobody owns the lock or the pending bit and the queue is empty. -/
theorem QspinOk.of_word_eq_zero (h : QspinOk s q own pnd) (hw : s.word = 0#32) :
    own = none ∧ pnd = none ∧ q = [] := by
  rw [h.word, enc_eq_zero (tailOf_and_tailMask q), tailOf_eq_zero] at hw
  exact ⟨by simpa using hw.1.1, by simpa using hw.1.2, hw.2⟩

/-- A waiter changes the word and moves on. The word must encode the new owner, pender and queue;
the roles of the others are kept; and a pender about to add or a waiter about to claim, which count
on the lock being free, are ruled out if the lock is taken. -/
theorem QspinOk.writeWord {w : BitVec 32} {own' pnd' : Option Waiter}
    (h : QspinOk s q own pnd) (hw : w = enc own'.isSome pnd'.isSome (tailOf q'))
    (hq : QueueOk ((s.setWord w).goto a c) q')
    (ho : c.owns = true ↔ own' = some a) (ho' : ∀ b, b ≠ a → (own = some b ↔ own' = some b))
    (hp : c.pends = true ↔ pnd' = some a) (hp' : ∀ b, b ≠ a → (pnd = some b ↔ pnd' = some b))
    (hc : PcOk ((s.setWord w).goto a c) q' own' pnd' a)
    (hadd : ∀ b, b ≠ a → pnd = some b → own = none → own' = none)
    (hclaim : ∀ b, b ≠ a → own = none → pnd = none → q.head? = some b →
      own' = none ∧ pnd' = none)
    (hlast : ∀ b, b ≠ a → q'.getLast? = some b → q.getLast? = some b) :
    QspinOk ((s.setWord w).goto a c) q' own' pnd' := by
  refine ⟨hw, hq, role_goto own' h.owner ho ho', role_goto pnd' h.pender hp hp', ?_⟩
  intro b
  by_cases hb : b = a
  · exact hb ▸ hc
  · exact h.other (goto_pc_of_ne hb) (.inl rfl) (.inl rfl) (hadd b hb) (hclaim b hb)
      fun _ => hlast b hb

/-- The queue when a waiter outside it changes the word and stays outside. -/
theorem QueueOk.writeWord (h : QueueOk s q) (ha : a ∉ q) (hc : c.queued = false) (w : BitVec 32) :
    QueueOk ((s.setWord w).goto a c) q :=
  h.outside ha (by rw [goto_pc_self]; exact hc) (fun b hb => goto_pc_of_ne hb)
    fun _ _ => rfl

section

variable (h : QspinOk s q own pnd)
include h

/-- The compare and swap from zero to `Q_SPIN_LOCKED_VAL`. -/
theorem QspinOk.fast (hw : s.word = 0#32) :
    QspinOk ((s.setWord lockedVal).goto a .holding) [] (some a) none := by
  obtain ⟨rfl, rfl, rfl⟩ := h.of_word_eq_zero hw
  have hword : lockedVal = enc true false (tailOf []) := by decide
  refine h.writeWord hword (h.queue.writeWord (by simp) rfl _) (by simp [QspinPc.owns])
    (fun b hb => by simp [Ne.symm hb]) (by simp [QspinPc.pends]) (fun _ _ => Iff.rfl) ?_ (by simp)
    (by simp) fun _ _ => id
  simp only [PcOk, goto_pc_self]

/-- The compare and swap that sets the pending bit, over an empty tail. -/
theorem QspinOk.pend (hs : s.pc a = .pend s.word) :
    QspinOk ((s.setWord (s.word ||| pendingVal)).goto a .pendWait) q own (some a) := by
  have hval := h.pcs a
  simp only [PcOk, hs] at hval
  obtain rfl : q = [] := by rw [← tailOf_eq_zero, ← h.tail, hval.1]
  obtain rfl : pnd = none := by
    have hp := hval.2
    rw [h.word, enc_and_pendingMask (tailOf_and_tailMask _)] at hp
    cases pnd with
    | none => rfl
    | some b => exact absurd hp (by simp [pendingVal])
  have hword : s.word ||| pendingVal = enc own.isSome (some a).isSome (tailOf []) := by
    rw [h.word]
    exact enc_or_pendingVal
  refine h.writeWord hword (h.queue.writeWord (by simp) rfl _) ?_ (fun _ _ => Iff.rfl)
    (by simp [QspinPc.pends]) (fun b hb => by simp [Ne.symm hb]) ?_ (by simp) (by simp)
    fun _ _ => id
  · rw [← h.owner a, hs]
    rfl
  · simp only [PcOk, goto_pc_self]

/-- The addition of the pender. -/
theorem QspinOk.add (hs : s.pc a = .pendAdd) :
    QspinOk ((s.setWord (s.word + (lockedVal - pendingVal))).goto a .holding) q (some a) none := by
  have hfree := h.pcs a
  simp only [PcOk, hs] at hfree
  obtain rfl := hfree
  obtain rfl : pnd = some a := (h.pender a).mp (by rw [hs]; rfl)
  have hword : s.word + (lockedVal - pendingVal) = enc true false (tailOf q) := by
    rw [h.word]
    exact enc_pendingToLocked (tailOf_and_tailMask q)
  refine h.writeWord hword (h.queue.writeWord (h.not_mem (by rw [hs]; rfl)) rfl _)
    (by simp [QspinPc.owns]) (fun b hb => by simp [Ne.symm hb]) (by simp [QspinPc.pends])
    (fun b hb => by simp [Ne.symm hb]) ?_ (fun b hb => by simp [Ne.symm hb]) (by simp)
    fun _ _ => id
  simp only [PcOk, goto_pc_self]

/-- The store to the locked byte. -/
theorem QspinOk.unlock (hs : s.pc a = .holding) :
    QspinOk ((s.setWord (clearLocked s.word)).goto a .idle) q none pnd := by
  obtain rfl : own = some a := (h.owner a).mp (by rw [hs]; rfl)
  have hword : clearLocked s.word = enc false pnd.isSome (tailOf q) := by
    rw [h.word]
    exact clearLocked_enc (tailOf_and_tailMask q)
  refine h.writeWord hword (h.queue.writeWord (h.not_mem (by rw [hs]; rfl)) rfl _)
    (by simp [QspinPc.owns]) (fun b hb => by simp [Ne.symm hb]) ?_ (fun _ _ => Iff.rfl) ?_
    (by simp) (by simp) fun _ _ => id
  · rw [← h.pender a, hs]
    rfl
  · simp only [PcOk, goto_pc_self]

end

/-! ### Steps of the queue -/

/-- A waiter joins the queue at its end: as the head if the queue was empty, else behind the last.
-/
theorem QueueOk.join (h : QueueOk s q) (ha : a ∉ q) (hn : (s.node a).next = none)
    (hc : q = [] ∧ c = .headWait ∨ ∃ b, q.getLast? = some b ∧ c = .link b) (w : BitVec 32) :
    QueueOk ((s.setWord w).goto a c) (q ++ [a]) := by
  have hne : ∀ b ∈ q, b ≠ a := by
    rintro b hb rfl
    exact ha hb
  have hpc : ∀ b, b ≠ a → ((s.setWord w).goto a c).pc b = s.pc b := fun b hb => goto_pc_of_ne hb
  have hpca : ((s.setWord w).goto a c).pc a = c := goto_pc_self
  have hcq : c.queued = true := by
    rcases hc with ⟨-, rfl⟩ | ⟨b, -, rfl⟩ <;> rfl
  refine ⟨?_, ?_, ?_, ?_, ?_⟩
  · exact nodup_append.mpr ⟨h.nodup, nodup_singleton a,
      fun b hb x hx => mem_singleton.mp hx ▸ hne b hb⟩
  · intro b
    by_cases hb : b = a
    · subst hb
      simp [hcq]
    · rw [hpc b hb, ← h.mem b]
      simp [hb]
  · intro b hb
    rcases mem_append.mp hb with hbq | hba
    · have hqne : q ≠ [] := ne_nil_of_mem hbq
      rw [hpc b (hne b hbq), head?_append_of_ne_nil _ hqne]
      exact h.head b hbq
    obtain rfl := mem_singleton.mp hba
    rw [hpca]
    rcases hc with ⟨rfl, rfl⟩ | ⟨x, hx, rfl⟩
    · exact iff_of_true rfl rfl
    have hqne : q ≠ [] := ne_nil_of_mem (mem_of_getLast? hx)
    rw [head?_append_of_ne_nil _ hqne]
    refine ⟨fun hf => absurd hf Bool.false_ne_true, fun hh => ?_⟩
    exact absurd (mem_of_head? hh) ha
  · intro x y hxy
    rcases Follows.concat_iff.mp hxy with hxy | ⟨hx, rfl⟩
    · have hl := h.linked x y hxy
      unfold Linked
      rw [hpc y (hne y hxy.mem_right)]
      exact hl
    · rcases hc with ⟨rfl, -⟩ | ⟨b, hb, rfl⟩
      · cases hx
      · obtain rfl := some.inj (hx.symm.trans hb)
        exact .inl ⟨hpca, h.last x hx⟩
  · intro b hb
    rw [getLast?_concat] at hb
    exact some.inj hb ▸ hn

/-- The exchange of the tail. -/
theorem QspinOk.publish (h : QspinOk s q own pnd) (hs : s.pc a = .publish s.word)
    (hc : q = [] ∧ c = .headWait ∨ ∃ b, q.getLast? = some b ∧ c = .link b) :
    QspinOk ((s.setWord ((s.word &&& ~~~tailMask) ||| mkTail a)).goto a c) (q ++ [a]) own pnd := by
  have hfresh := h.pcs a
  simp only [PcOk, hs] at hfresh
  have hword : (s.word &&& ~~~tailMask) ||| mkTail a =
      enc own.isSome pnd.isSome (tailOf (q ++ [a])) := by
    rw [h.word, enc_withTail (tailOf_and_tailMask q), tailOf_concat]
  have hrole : c.owns = false ∧ c.pends = false := by
    rcases hc with ⟨-, rfl⟩ | ⟨b, -, rfl⟩ <;> exact ⟨rfl, rfl⟩
  refine h.writeWord hword (h.queue.join (h.not_mem (by rw [hs]; rfl)) hfresh.2 hc _) ?_
    (fun _ _ => .rfl) ?_ (fun _ _ => .rfl) ?_ (fun _ _ _ => id) (fun _ _ ho hp _ => ⟨ho, hp⟩)
    ?_
  · rw [hrole.1, ← h.owner a, hs]
    rfl
  · rw [hrole.2, ← h.pender a, hs]
    rfl
  · rcases hc with ⟨-, rfl⟩ | ⟨b, -, rfl⟩
    · simp only [PcOk, goto_pc_self]
    · simpa only [PcOk, goto_pc_self, goto_node, setWord_node] using hfresh.1
  · intro b hb hl
    rw [getLast?_concat] at hl
    exact absurd (some.inj hl).symm hb

/-- The store to `prev_node->next`: `prev` is the neighbour of the waiter and learns of it. -/
theorem QueueOk.link (h : QueueOk s q) (hs : s.pc a = .link prev) (hl : (s.node a).locked = false) :
    prev ∈ q ∧ (s.node prev).next = none ∧
      QueueOk ((s.setNode prev { s.node prev with next := some a }).goto a .spin) q := by
  have ha : a ∈ q := (h.mem a).mpr (by rw [hs]; rfl)
  have hhead : q.head? ≠ some a := by
    rw [ne_eq, ← h.head a ha, hs]
    exact Bool.false_ne_true
  obtain ⟨x, hx⟩ := Follows.exists_left ha hhead
  obtain ⟨rfl, hnone⟩ : x = prev ∧ (s.node x).next = none := by
    rcases h.linked x a hx with ⟨hlink, hn⟩ | ⟨hlink, -⟩
    · exact ⟨(QspinPc.link.inj (hs.symm.trans hlink)).symm, hn⟩
    · rw [hs] at hlink
      cases hlink
  have hlocked : ∀ b, ((s.setNode x { s.node x with next := some a }).node b).locked =
      (s.node b).locked := by
    intro b
    by_cases hb : b = x
    · subst hb
      rw [setNode_node_self]
    · rw [setNode_node_of_ne hb]
  refine ⟨hx.mem_left, hnone, h.nodup, ?_, ?_, ?_, ?_⟩
  · exact (forall_update_iff s.pc fun b p => b ∈ q ↔ p.queued = true).mpr
      ⟨iff_of_true ha rfl, fun b _ => h.mem b⟩
  · intro b hb
    rw [goto_node, hlocked b]
    by_cases hba : b = a
    · subst hba
      rw [goto_pc_self, hl]
      exact iff_of_false Bool.false_ne_true hhead
    · rw [goto_pc_of_ne hba]
      exact h.head b hb
  · intro y z hyz
    by_cases hy : y = x
    · subst hy
      obtain rfl := hx.right_unique h.nodup hyz
      exact .inr ⟨by rw [goto_pc_self]; rfl, by rw [goto_node, setNode_node_self]⟩
    have hz : z ≠ a := by
      rintro rfl
      exact hy (hyz.left_unique h.nodup hx)
    unfold Linked
    rw [goto_pc_of_ne hz, goto_node, setNode_node_of_ne hy]
    exact h.linked y z hyz
  · intro b hb
    have hbx : b ≠ x := by
      rintro rfl
      exact hx.ne_last h.nodup hb
    rw [goto_node, setNode_node_of_ne hbx]
    exact h.last b hb

/-- The waiter links its node. -/
theorem QspinOk.link (h : QspinOk s q own pnd) (hs : s.pc a = .link prev) :
    QspinOk ((s.setNode prev { s.node prev with next := some a }).goto a .spin) q own pnd := by
  have hl := h.pcs a
  simp only [PcOk, hs] at hl
  obtain ⟨hmem, hnone, hq⟩ := h.queue.link hs hl
  refine h.step rfl rfl hq rfl (by rw [hs]; rfl) (by rw [hs]; rfl)
    (by simp only [PcOk, goto_pc_self]) fun b _ => ?_
  rw [goto_node]
  by_cases hbp : b = prev
  · subst hbp
    rw [setNode_node_self]
    exact ⟨.inl rfl, .inr ⟨(h.queue.mem b).mp hmem, hnone, some_ne_none a⟩⟩
  · rw [setNode_node_of_ne hbp]
    exact ⟨.inl rfl, .inl rfl⟩

/-- The head of the queue is its last element too: it clears the tail and claims the lock. -/
theorem QspinOk.claimLast (h : QspinOk s q own pnd) (hs : s.pc a = .claim s.word)
    (ht : s.word &&& tailMask = mkTail a) :
    QspinOk ((s.setWord lockedVal).goto a .holding) [] (some a) none := by
  have hfree := h.pcs a
  simp only [PcOk, hs] at hfree
  obtain ⟨rfl, rfl⟩ := hfree.1
  have hhead := h.head_of_claim hs
  have hlast : q.getLast? = some a := tailOf_eq_mkTail.mp (h.tail.symm.trans ht)
  obtain rfl : q = [a] := by
    cases q with
    | nil => cases hhead
    | cons b q =>
      obtain ⟨⟩ := hhead
      cases q with
      | nil => rfl
      | cons c q =>
        rw [getLast?_cons_cons] at hlast
        exact absurd (mem_of_getLast? hlast) (nodup_cons.mp h.queue.nodup).1
  have hword : lockedVal = enc true false (tailOf []) := by decide
  refine h.writeWord hword ?_ (by simp [QspinPc.owns]) (fun b hb => by simp [Ne.symm hb])
    (by simp [QspinPc.pends]) (fun _ _ => Iff.rfl) ?_ (by simp) ?_ (by simp)
  · refine ⟨nodup_nil, ?_, by simp, fun _ _ hf => hf.elim, by simp⟩
    intro b
    refine iff_of_false (not_mem_nil) ?_
    by_cases hb : b = a
    · subst hb
      rw [goto_pc_self]
      exact Bool.false_ne_true
    · rw [goto_pc_of_ne hb, setWord_pc, ← h.queue.mem b, mem_singleton]
      exact hb
  · simp only [PcOk, goto_pc_self]
  · intro b hb _ _ hbh
    exact absurd (some.inj hbh).symm hb

/-- The head of the queue has a successor: it claims the lock and leaves the tail. -/
theorem QspinOk.claimShared (h : QspinOk s q own pnd) (hs : s.pc a = .claim v)
    (ht : v &&& tailMask ≠ mkTail a) :
    QspinOk ((s.setWord (s.word ||| lockedVal)).goto a .waitNext) q (some a) none := by
  have hfree := h.pcs a
  simp only [PcOk, hs] at hfree
  obtain ⟨rfl, rfl⟩ := hfree.1
  have hhead := h.head_of_claim hs
  have hword : s.word ||| lockedVal = enc true false (tailOf q) := by
    rw [h.word]
    exact enc_or_lockedVal
  have hq : QueueOk (s.setWord (s.word ||| lockedVal)) q :=
    { h.queue with }
  refine h.writeWord hword (hq.inside ?_ rfl ?_ ?_) (by simp [QspinPc.owns])
    (fun b hb => by simp [Ne.symm hb]) (by simp [QspinPc.pends]) (fun _ _ => Iff.rfl) ?_ (by simp)
    ?_ fun _ _ => id
  · rw [setWord_pc, hs]
    rfl
  · rw [setWord_pc, hs]
    rfl
  · rw [setWord_pc, hs]
    rfl
  · simpa only [PcOk, goto_pc_self] using hfree.2 ht
  · intro b hb _ _ hbh
    exact absurd (some.inj (hbh.symm.trans hhead)) hb

/-- The queue after its head hands over to its neighbour. -/
theorem QueueOk.leave (h : QueueOk s q) (ha : q.head? = some a) (hlast : q.getLast? ≠ some a)
    (hn : (s.node a).next = some n) (hc : c.queued = false) :
    ∃ q', q = a :: q' ∧ q'.getLast? = q.getLast? ∧ s.pc n = .spin ∧ n ≠ a ∧
      QueueOk ((s.setNode n { s.node n with locked := true }).goto a c) q' := by
  obtain ⟨b, q', rfl⟩ : ∃ b q', q = a :: b :: q' := by
    cases q with
    | nil => cases ha
    | cons x q =>
      obtain ⟨⟩ := ha
      cases q with
      | nil => exact absurd rfl hlast
      | cons b q' => exact ⟨b, q', rfl⟩
  obtain ⟨hanot, hnd⟩ := nodup_cons.mp h.nodup
  have hlink := h.linked a b (.inl ⟨rfl, rfl⟩)
  obtain ⟨hbl, rfl⟩ : (s.pc b).linking = none ∧ b = n := by
    rcases hlink with ⟨-, hnone⟩ | ⟨hl, hsome⟩
    · rw [hnone] at hn
      cases hn
    · exact ⟨hl, some.inj (hsome.symm.trans hn)⟩
  have hbq : b ∈ a :: b :: q' := mem_cons_of_mem _ mem_cons_self
  have hba : b ≠ a := by
    rintro rfl
    exact hanot mem_cons_self
  -- the neighbour is queued, linked and not at the head: it spins
  have hspin : s.pc b = .spin := by
    refine QspinPc.eq_spin (s.node b).locked ((h.mem b).mp hbq) hbl ?_
    rw [ne_eq, h.head b hbq]
    exact fun hh => hba (some.inj hh).symm
  have hnext : ∀ x, ((s.setNode b { s.node b with locked := true }).node x).next =
      (s.node x).next := by
    intro x
    by_cases hxb : x = b
    · subst hxb
      rw [setNode_node_self]
    · rw [setNode_node_of_ne hxb]
  refine ⟨b :: q', rfl, (getLast?_cons_cons).symm, hspin, hba, hnd, ?_, ?_, ?_, ?_⟩
  · intro x
    by_cases hx : x = a
    · subst hx
      rw [goto_pc_self, hc]
      exact iff_of_false hanot Bool.false_ne_true
    · rw [goto_pc_of_ne hx, setNode_pc, ← h.mem x, mem_cons (a := x) (b := a)]
      simp [hx]
  · intro x hx
    have hxa : x ≠ a := by
      rintro rfl
      exact hanot hx
    rw [goto_pc_of_ne hxa, setNode_pc, goto_node]
    by_cases hxb : x = b
    · subst hxb
      rw [setNode_node_self, hspin]
      exact iff_of_true rfl rfl
    · rw [setNode_node_of_ne hxb, h.head x (mem_cons_of_mem _ hx)]
      exact iff_of_false (fun hh => hxa (some.inj hh).symm)
        fun hh => hxb (some.inj hh).symm
  · intro x y hxy
    have hya : y ≠ a := by
      rintro rfl
      exact hanot hxy.mem_right
    unfold Linked
    rw [goto_pc_of_ne hya, setNode_pc, goto_node, hnext x]
    exact h.linked x y (.inr hxy)
  · intro x hx
    rw [goto_node, hnext x]
    exact h.last x (by rw [getLast?_cons_cons]; exact hx)

/-- The head of the queue hands it to its successor and returns. -/
theorem QspinOk.handOff (h : QspinOk s q own pnd) (hs : s.pc a = .handOff n) :
    ∃ q', QspinOk ((s.setNode n { s.node n with locked := true }).goto a .holding) q' own pnd := by
  have hpc := h.pcs a
  simp only [PcOk, hs] at hpc
  have hmem : a ∈ q := (h.queue.mem a).mpr (by rw [hs]; rfl)
  have hhead : q.head? = some a := (h.queue.head a hmem).mp (by rw [hs]; rfl)
  obtain ⟨q', hq, hlast, hspin, hna, hok⟩ := h.queue.leave (c := .holding) hhead hpc.1 hpc.2 rfl
  refine ⟨q', h.step rfl rfl hok hlast (by rw [hs]; rfl) (by rw [hs]; rfl)
    (by simp only [PcOk, goto_pc_self]) fun b _ => ?_⟩
  rw [goto_node]
  by_cases hbn : b = n
  · subst hbn
    rw [setNode_node_self]
    exact ⟨.inr hspin, .inl rfl⟩
  · rw [setNode_node_of_ne hbn]
    exact ⟨.inl rfl, .inl rfl⟩

end Steps

end Charmos.Sync
