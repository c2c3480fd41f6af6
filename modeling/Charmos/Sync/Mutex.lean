import Mathlib.Data.Nat.Notation
import Mathlib.Logic.Function.Basic
import Mathlib.Logic.Relation

/-!
# The adaptive mutex

`mutex_lock_subclass_full`, `mutex_try_lock` and `mutex_unlock_full` of `sync/mutex.c`, one atomic
step at a time, with the lock of the mutex's turnstile chain explicit. A waiter spins while the
owner runs; otherwise it takes the chain lock, looks at the owner again and, if it is the one it saw
before and is not running, joins the turnstile's queue and sleeps. An unlock takes the chain lock,
clears the word and wakes all the threads it finds queued; in between, a thread that does not need
the chain lock may take the mutex.

Of the turnstile, the model keeps the threads queued on it; there is one in the hash table while
there is such a thread. Where a waiter joins and how priority changes reorder the queue is left
open. The priority propagation of `turnstile_block` may let go of the chain lock and take it again
after the waiter is queued. The backoff counters and `last_owner` only set how long a waiter delays,
and are left out.
-/

namespace Charmos.Sync

open Function

/-- Who calls `mutex_try_lock`: the entry of the lock path, its loop, or a caller that only tries.
-/
inductive TryFrom
  | entry
  | loop
  | only
  deriving DecidableEq

/-- Where a thread stands. `cur` is the local `current_owner`. -/
inductive MutexPc (T : Type)
  | idle
  | holds
  | tryLoad (k : TryFrom)
  | tryCas (k : TryFrom)
  /-- At the head of the loop, before `current_owner` is read. -/
  | spinRead
  /-- In the first `mutex_owner_running`, before it reads the owner and before it reads its state.
  -/
  | ownerRead (cur : T)
  | ownerState (cur o : T)
  /-- Before the second test of the loop's `continue`. -/
  | ownerExists (cur : T)
  /-- Before `turnstile_lookup` takes the chain lock. -/
  | chainLock (cur : T)
  /-- In the second `mutex_owner_running`, under the chain lock. -/
  | chainRead (cur : T)
  | chainState (cur o : T)
  /-- Before the owner is compared with `current_owner`. -/
  | chainOwner (cur : T)
  /-- Queued, in `turnstile_propagate_boost` with the chain lock and without it. -/
  | boost
  | boostAway
  /-- In `thread_wait_complete`. -/
  | asleep
  /-- In the unlock, before the owner is checked and before the chain lock is taken. -/
  | unlockCheck
  | unlockLock
  /-- Under the chain lock, before the word is cleared; `found` is whether there is a turnstile. -/
  | unlockClear (found : Bool)
  | unlockWake (found : Bool)
  /-- With the chain lock released and the threads in `wake_list` still to wake. -/
  | waking (wakeList : List T)
  /-- `panic("non-owner thread tried to unlock mutex")`. -/
  | panicked

/-- The mutex and its threads. -/
structure Mutex (T : Type) where
  /-- The owner in `lock_word`. -/
  word : Option T
  /-- The thread that has the chain lock. -/
  chain : Option T
  /-- The threads queued on the mutex's turnstile. -/
  queue : List T
  /-- The thread's wait has been satisfied. -/
  satisfied : T → Bool
  /-- The thread's state is `THREAD_STATE_RUNNING`. -/
  running : T → Bool
  pc : T → MutexPc T

/-- The steps of the system. `fail` is what a step may meet by chance: the weak compare and swap
fails although the word is as expected, no reference to the owner can be taken, or the propagation
of priorities leaves the chain. `pos` is where a waiter joins the queue. -/
inductive MutexAct (T : Type)
  | lock (t : T)
  | trylock (t : T)
  | unlock (t : T)
  | run (t : T) (fail : Bool) (pos : ℕ)
  /-- A thread is put on a CPU or taken off it. -/
  | switch (t : T)
  /-- A priority requeue in a critical section of the chain. -/
  | requeue (queue : List T)

variable {T : Type} [DecidableEq T]

namespace Mutex

def goto (s : Mutex T) (t : T) (c : MutexPc T) : Mutex T :=
  { s with pc := update s.pc t c }

def setSatisfied (s : Mutex T) (t : T) (b : Bool) : Mutex T :=
  { s with satisfied := update s.satisfied t b }

variable {s : Mutex T} {t u : T} {c : MutexPc T} {b : Bool}

@[simp] theorem goto_pc_self : (s.goto t c).pc t = c := update_self _ _ _

theorem goto_pc_of_ne (h : u ≠ t) : (s.goto t c).pc u = s.pc u := update_of_ne h _ _

@[simp] theorem setSatisfied_self : (s.setSatisfied t b).satisfied t = b :=
  update_self _ _ _

theorem setSatisfied_of_ne (h : u ≠ t) : (s.setSatisfied t b).satisfied u = s.satisfied u :=
  update_of_ne h _ _

end Mutex

/-- Where a thread goes whose `mutex_try_lock` returns false. -/
def TryFrom.failed : TryFrom → MutexPc T
  | .entry | .loop => .spinRead
  | .only => .idle

/-- One step of a thread inside a call. A thread that waits for the chain lock or for its wake-up
can take none. -/
def mutexRun (s : Mutex T) (t : T) (fail : Bool) (pos : ℕ) : Option (Mutex T) :=
  match s.pc t with
  | .idle | .holds | .panicked => none
  | .tryLoad k => if s.word.isSome then some (s.goto t k.failed) else some (s.goto t (.tryCas k))
  | .tryCas k =>
    match s.word with
    | some _ => some (s.goto t k.failed)
    | none => if fail then some s else some ({ s with word := some t }.goto t .holds)
  | .spinRead =>
    match s.word with
    | none => some (s.goto t (.tryLoad .loop))
    | some cur => some (s.goto t (.ownerRead cur))
  | .ownerRead cur =>
    match s.word with
    | some o =>
      if fail then some (s.goto t (.chainLock cur)) else some (s.goto t (.ownerState cur o))
    | none => some (s.goto t (.chainLock cur))
  | .ownerState cur o =>
    if s.running o then some (s.goto t (.ownerExists cur)) else some (s.goto t (.chainLock cur))
  | .ownerExists cur =>
    if s.word.isSome then some (s.goto t .spinRead) else some (s.goto t (.chainLock cur))
  | .chainLock cur =>
    if s.chain.isNone then some ({ s with chain := some t }.goto t (.chainRead cur)) else none
  | .chainRead cur =>
    match s.word with
    | some o =>
      if fail then some (s.goto t (.chainOwner cur)) else some (s.goto t (.chainState cur o))
    | none => some (s.goto t (.chainOwner cur))
  | .chainState cur o =>
    if s.running o then some ({ s with chain := none }.goto t .spinRead)
    else some (s.goto t (.chainOwner cur))
  | .chainOwner cur =>
    if s.word = some cur ∧ fail = false then
      some (({ s with queue := s.queue.take pos ++ t :: s.queue.drop pos }.setSatisfied t
        false).goto t .boost)
    else some ({ s with chain := none }.goto t .spinRead)
  | .boost =>
    if fail then some ({ s with chain := none }.goto t .boostAway)
    else some ({ s with chain := none }.goto t .asleep)
  | .boostAway => if s.chain.isNone then some ({ s with chain := some t }.goto t .boost) else none
  | .asleep => if s.satisfied t then some (s.goto t .spinRead) else none
  | .unlockCheck =>
    if s.word = some t then some (s.goto t .unlockLock) else some (s.goto t .panicked)
  | .unlockLock =>
    if s.chain.isNone then
      some ({ s with chain := some t }.goto t (.unlockClear (!s.queue.isEmpty)))
    else none
  | .unlockClear found => some ({ s with word := none }.goto t (.unlockWake found))
  | .unlockWake found =>
    -- `turnstile_wake` of `ts->waiters` threads, the last of the queue first
    if found then
      some ({ s with chain := none, queue := [] }.goto t (.waking s.queue.reverse))
    else some ({ s with chain := none }.goto t .idle)
  | .waking [] => some (s.goto t .idle)
  | .waking (u :: l) => some ((s.setSatisfied u true).goto t (.waking l))

/-- The start of a call. -/
def mutexCall (s : Mutex T) (t : T) (start next : MutexPc T) : Option (Mutex T) :=
  match start, s.pc t with
  | .idle, .idle | .holds, .holds => some (s.goto t next)
  | _, _ => none

/-- One atomic step, if it can be taken. -/
def mutexStep (s : Mutex T) : MutexAct T → Option (Mutex T)
  | .lock t => mutexCall s t .idle (.tryLoad .entry)
  | .trylock t => mutexCall s t .idle (.tryLoad .only)
  | .unlock t => mutexCall s t .holds .unlockCheck
  | .run t fail pos => mutexRun s t fail pos
  | .switch t => some { s with running := update s.running t (!s.running t) }
  | .requeue q => if s.chain.isNone ∧ q.isPerm s.queue then some { s with queue := q } else none

end Charmos.Sync
