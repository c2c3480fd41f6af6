import Charmos.Sync.QspinWord
import Mathlib.Logic.Function.Basic
import Mathlib.Logic.Relation

/-!
# The queued spinlock

`qspin_lock_physical`, `qspin_trylock_physical`, `qspin_unlock_physical` and `qspin_lock_slowpath`
of `sync/qspinlock.c`, one atomic step at a time, for the waiters of all CPUs and levels on one
lock. A weak compare and swap may fail although the word has the expected value. The per-CPU nodes
are initialised, so the fallback for early boot is not reached; between acquisitions of this lock a
node may be used for another lock, which leaves any contents in it.
-/

namespace Charmos.Sync

open Function

/-- `struct qnode`. -/
structure Qnode where
  next : Option Waiter
  locked : Bool

/-- Where a waiter stands, with the local `val` it carries. -/
inductive QspinPc
  | idle
  /-- Between the completion of the acquisition and the unlock. -/
  | holding
  /-- Before the compare and swap that sets the pending bit. -/
  | pend (val : BitVec 32)
  /-- The pender, waiting for the locked byte to clear. -/
  | pendWait
  /-- The pender, before the addition. -/
  | pendAdd
  | initLocked (val : BitVec 32)
  | initNext (val : BitVec 32)
  /-- In `qspinlock_exchange_tail`. -/
  | publish (val : BitVec 32)
  /-- Before the store to `prev_node->next`. -/
  | link (prev : Waiter)
  | spin
  /-- At the head of the queue, waiting for the locked byte and the pending bit to clear. -/
  | headWait
  | claim (val : BitVec 32)
  /-- The lock is claimed and the successor has not linked itself. -/
  | waitNext
  | loadNext
  | handOff (next : Waiter)
  deriving DecidableEq

/-- The lock word, the nodes, and the waiters. -/
structure Qspin where
  word : BitVec 32
  node : Waiter → Qnode
  pc : Waiter → QspinPc

/-- What a waiter does next: one of the calls, one step of the call it is in, with or without a
spurious failure of its compare and swap, or the use of its node for another lock. -/
inductive QspinAct
  | lock
  | trylock
  | unlock
  | run (spurious : Bool)
  | reuse (contents : Qnode)

namespace Qspin

def goto (s : Qspin) (a : Waiter) (c : QspinPc) : Qspin :=
  { s with pc := update s.pc a c }

def setWord (s : Qspin) (v : BitVec 32) : Qspin := { s with word := v }

def setNode (s : Qspin) (a : Waiter) (n : Qnode) : Qspin :=
  { s with node := update s.node a n }

variable {s : Qspin} {a b : Waiter} {c : QspinPc} {n : Qnode} {v : BitVec 32}

@[simp] theorem goto_pc_self : (s.goto a c).pc a = c := update_self _ _ _

theorem goto_pc_of_ne (h : b ≠ a) : (s.goto a c).pc b = s.pc b := update_of_ne h _ _

@[simp] theorem goto_node : (s.goto a c).node = s.node := rfl

@[simp] theorem setWord_pc : (s.setWord v).pc = s.pc := rfl

@[simp] theorem setWord_node : (s.setWord v).node = s.node := rfl

@[simp] theorem setNode_pc : (s.setNode a n).pc = s.pc := rfl

@[simp] theorem setNode_node_self : (s.setNode a n).node a = n := update_self _ _ _

theorem setNode_node_of_ne (h : b ≠ a) : (s.setNode a n).node b = s.node b :=
  update_of_ne h _ _

end Qspin

/-- The condition of the loop that sets the pending bit. -/
def pendLoop (val : BitVec 32) : QspinPc :=
  if val &&& pendingMask = 0#32 then .pend val else .initLocked val

/-- The entry of `qspin_lock_slowpath`. -/
def slowpath (val : BitVec 32) : QspinPc :=
  if val &&& tailMask = 0#32 then pendLoop val else .initLocked val

/-- The node that a tail names, if there is one. -/
def tailNode (t : BitVec 32) : Option Waiter :=
  if h : (tailCpu t).toNat < 65535 ∧ (tailLvl t).toNat < 3 then
    some ⟨⟨(tailCpu t).toNat, h.1⟩, ⟨(tailLvl t).toNat, h.2⟩⟩
  else none

/-- One step of a waiter inside `qspin_lock_slowpath`. -/
def qspinRun (s : Qspin) (a : Waiter) (spurious : Bool) : Option Qspin :=
  match s.pc a with
  | .idle | .holding => none
  | .pend val =>
    if s.word = val ∧ spurious = false then
      some ((s.setWord (val ||| pendingVal)).goto a .pendWait)
    else
      -- `val = old`: the tail of the word found is not looked at
      some (s.goto a (pendLoop s.word))
  | .pendWait =>
    if s.word &&& lockedMask = 0#32 then some (s.goto a .pendAdd) else some s
  | .pendAdd => some ((s.setWord (s.word + (lockedVal - pendingVal))).goto a .holding)
  | .initLocked val =>
    some ((s.setNode a { s.node a with locked := false }).goto a (.initNext val))
  | .initNext val => some ((s.setNode a { s.node a with next := none }).goto a (.publish val))
  | .publish val =>
    if s.word = val ∧ spurious = false then
      let s' := s.setWord ((val &&& ~~~tailMask) ||| mkTail a)
      let oldTail := val &&& tailMask
      if oldTail = 0#32 then some (s'.goto a .headWait)
      else (tailNode oldTail).map fun prev => s'.goto a (.link prev)
    else some (s.goto a (.publish s.word))
  | .link prev => some ((s.setNode prev { s.node prev with next := some a }).goto a .spin)
  | .spin => if (s.node a).locked then some (s.goto a .headWait) else some s
  | .headWait =>
    if s.word &&& lockedPendingMask = 0#32 then some (s.goto a (.claim s.word)) else some s
  | .claim val =>
    if val &&& tailMask = mkTail a then
      if s.word = val ∧ spurious = false then some ((s.setWord lockedVal).goto a .holding)
      else some (s.goto a (.claim s.word))
    else some ((s.setWord (s.word ||| lockedVal)).goto a .waitNext)
  | .waitNext => if (s.node a).next.isSome then some (s.goto a .loadNext) else some s
  | .loadNext => (s.node a).next.map fun n => s.goto a (.handOff n)
  | .handOff n => some ((s.setNode n { s.node n with locked := true }).goto a .holding)

/-- One atomic step of a waiter, if it can be taken. -/
def qspinStep (s : Qspin) (a : Waiter) : QspinAct → Option Qspin
  | .lock =>
    if s.pc a = .idle then
      if s.word = 0#32 then some ((s.setWord lockedVal).goto a .holding)
      else some (s.goto a (slowpath s.word))
    else none
  | .trylock =>
    if s.pc a = .idle then
      if s.word = 0#32 then some ((s.setWord lockedVal).goto a .holding) else some s
    else none
  | .unlock =>
    if s.pc a = .holding then some ((s.setWord (clearLocked s.word)).goto a .idle) else none
  | .run spurious => qspinRun s a spurious
  | .reuse contents =>
    if s.pc a = .idle ∨ s.pc a = .holding then some (s.setNode a contents) else none

/-- The unlocked word, with all waiters idle. -/
def qspinInit (node : Waiter → Qnode) : Qspin where
  word := 0#32
  node := node
  pc _ := .idle

end Charmos.Sync
