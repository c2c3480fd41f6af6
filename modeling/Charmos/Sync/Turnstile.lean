import Charmos.Lib.KeyedQueue

/-!
# Turnstiles

`turnstile_block`, `turnstile_wake`, `turnstile_wake_handoff` and `turnstile_requeue_waiter` of
`sync/turnstile.c`. Each thread is born with a turnstile. The first thread that blocks on a lock
object lends its own to the hash table, the later ones put theirs on its freelist; a woken thread
leaves with one from the freelist, the last one with the hashed turnstile itself.

A critical section of a hash chain is one step. The threads that a wake has dequeued are woken after
it has let go of the chain (`TsSys.wakeList`), and a thread can block again once its wait is
satisfied. A wait queue is the in-order sequence of its tree, in the order of `wq_prio`. Failures of
an `enforce` are results of the step (`TsError`). The owner of a turnstile and the priority it
donates are left out: nothing here depends on them.
-/

namespace Charmos.Sync

open Function

/-- `enum thread_prio_class`. -/
inductive PrioClass
  | background
  | timeshare
  | realtime
  | urgent
  deriving DecidableEq

/-- `turnstile_thread_priority`; `weight` is a `size_t`. -/
def turnstileThreadPriority (c : PrioClass) (weight : ℕ) : ℕ :=
  match c with
  | .background => 1
  | .timeshare => if (2 + weight) % 2 ^ 64 > 100000 then 100000 else (2 + weight) % 2 ^ 64
  | .realtime => 100001
  | .urgent => 100002

/-- `enum turnstile_state`. -/
inductive TsState
  | unused
  | inHashTable
  | inFreeList
  deriving DecidableEq

/-- The two wait queues of a turnstile. -/
inductive TsQueue
  | writer
  | reader
  deriving DecidableEq

/-- `struct turnstile`, for threads `T`, turnstiles `U` and lock objects `O`. -/
structure Turnstile (T U O : Type) where
  state : TsState
  lockObj : Option O
  waiters : ℕ
  freelist : List U
  queues : TsQueue → List T
  nextWaitSeq : ℕ
  handoffs : ℕ

/-- `turnstile_init`. -/
def turnstileInit {T U O : Type} : Turnstile T U O where
  state := .unused
  lockObj := none
  waiters := 0
  freelist := []
  queues _ := []
  nextWaitSeq := 0
  handoffs := 0

/-- The hash table with chains `H`, the turnstiles, and what the threads keep of them. -/
structure TsSys (T U O H : Type) where
  ts : U → Turnstile T U O
  chains : H → List U
  /-- `thread->turnstile`. -/
  turnstile : T → Option U
  blockedTs : T → Option U
  wqPrio : T → ℕ
  wqSeq : T → ℕ
  prioClass : T → PrioClass
  weight : T → ℕ
  /-- The thread's wait is prepared and not satisfied. -/
  waiting : T → Bool
  /-- The threads that have been dequeued and are still to be woken. -/
  wakeList : List T

/-- The `enforce` that failed. -/
inductive TsError
  /-- `enforce(my_turnstile)`. -/
  | noTurnstile
  /-- `enforce(ts->waiters == 0)`. -/
  | waitersLeft
  /-- `enforce(ts->waiters > 0)`. -/
  | noWaiters
  /-- `enforce(ts->lock_obj == lock_obj)`. -/
  | otherObject
  /-- `enforce(!atomic_load_acq(&curr->blocked_ts))`. -/
  | stillBlocked
  /-- `enforce(!t->active_wait_blocks)` of the wait. -/
  | stillWaiting
  /-- `enforce(list_head_empty(&ts->freelist))`. -/
  | freelistLeft
  /-- `enforce(!list_head_empty(&ts->freelist))`. -/
  | freelistEmpty
  /-- The queue has no last node to dequeue. -/
  | nullNode
  /-- `enforce(rbt_has_node(&ts->queues[queue], first))`. -/
  | notQueued
  /-- `enforce(thread_wait_satisfy(...))`. -/
  | notSatisfied
  deriving DecidableEq

variable {T U O H : Type} [DecidableEq T] [DecidableEq U] [DecidableEq O] [DecidableEq H]

namespace TsSys

def setTs (s : TsSys T U O H) (u : U) (x : Turnstile T U O) : TsSys T U O H :=
  { s with ts := update s.ts u x }

end TsSys

/-- A queue of a turnstile is replaced. -/
def Turnstile.setQueue (x : Turnstile T U O) (q : TsQueue) (l : List T) : Turnstile T U O :=
  { x with queues := update x.queues q l }

variable (hash : O → H)

/-- `turnstile_lookup_internal`. -/
def turnstileLookup (s : TsSys T U O H) (obj : O) : Option U :=
  (s.chains (hash obj)).find? fun u => (s.ts u).lockObj = some obj

/-- The thread `t` takes its place in queue `q` of `u`: `turnstile_block_on`, after the donation. -/
def turnstileBlockOn (s : TsSys T U O H) (t : T) (u : U) (q : TsQueue) : TsSys T U O H :=
  let prio := turnstileThreadPriority (s.prioClass t) (s.weight t)
  let key := update s.wqPrio t prio
  let x := s.ts u
  { s.setTs u { x.setQueue q (insertByKey key t (x.queues q)) with
      waiters := x.waiters + 1
      nextWaitSeq := x.nextWaitSeq + 1 } with
    turnstile := update s.turnstile t none
    blockedTs := update s.blockedTs t (some u)
    wqPrio := key
    wqSeq := update s.wqSeq t x.nextWaitSeq
    waiting := update s.waiting t true }

/-- `turnstile_insert`. -/
def turnstileInsert (s : TsSys T U O H) (u : U) (obj : O) : TsSys T U O H :=
  { s.setTs u { s.ts u with state := .inHashTable, lockObj := some obj, handoffs := 0 } with
    chains := update s.chains (hash obj) (s.chains (hash obj) ++ [u]) }

/-- `turnstile_insert_to_freelist`. -/
def turnstileInsertToFreelist (s : TsSys T U O H) (u v : U) : TsSys T U O H :=
  (s.setTs u { s.ts u with freelist := (s.ts u).freelist ++ [v] }).setTs v
    { s.ts v with state := .inFreeList }

/-- The checks of `turnstile_block_on` and the preparation of the wait. -/
def turnstileBlockChecks (s : TsSys T U O H) (t : T) : Except TsError Unit :=
  if (s.blockedTs t).isSome then .error .stillBlocked
  else if s.waiting t then .error .stillWaiting
  else .ok ()

/-- `turnstile_block` of the thread `t`, up to its sleep. -/
def turnstileBlock (s : TsSys T U O H) (t : T) (obj : O) (q : TsQueue) :
    Except TsError (TsSys T U O H) :=
  match s.turnstile t with
  | none => .error .noTurnstile
  | some my =>
    match turnstileLookup hash s obj with
    | none =>
      if (s.ts my).waiters ≠ 0 then .error .waitersLeft
      else
        (turnstileBlockChecks s t).map fun _ =>
          turnstileBlockOn (turnstileInsert hash s my obj) t my q
    | some u =>
      if (s.ts u).waiters = 0 then .error .noWaiters
      else if (s.ts u).lockObj ≠ some obj then .error .otherObject
      else
        (turnstileBlockChecks s t).map fun _ =>
          turnstileBlockOn (turnstileInsertToFreelist s u my) t u q

/-- The thread leaves its queue with the turnstile `got`; the waiters are counted down. -/
def turnstileLeave (s : TsSys T U O H) (u : U) (q : TsQueue) (t : T) (got : U) :
    TsSys T U O H :=
  let x := s.ts u
  { s.setTs u { x.setQueue q ((x.queues q).erase t) with waiters := x.waiters - 1 } with
    turnstile := update s.turnstile t (some got)
    blockedTs := update s.blockedTs t none
    wakeList := s.wakeList ++ [t] }

/-- `turnstile_remove`. -/
def turnstileRemove (s : TsSys T U O H) (u : U) (obj : O) : TsSys T U O H :=
  { s.setTs u { s.ts u with state := .unused, lockObj := none } with
    chains := update s.chains (hash obj) ((s.chains (hash obj)).erase u) }

/-- `turnstile_dequeue` of the thread `t`. -/
def turnstileDequeue (s : TsSys T U O H) (u : U) (obj : O) (q : TsQueue) (t : T) :
    Except TsError (TsSys T U O H) :=
  if (s.ts u).waiters = 1 then
    if (s.ts u).freelist ≠ [] then .error .freelistLeft
    else .ok (turnstileLeave (turnstileRemove hash s u obj) u q t u)
  else
    match (s.ts u).freelist with
    | [] => .error .freelistEmpty
    | v :: rest =>
      .ok (turnstileLeave ((s.setTs u { s.ts u with freelist := rest }).setTs v
        { s.ts v with state := .unused }) u q t v)

/-- The loop of `turnstile_wake`: the last of the queue first. -/
def turnstileWake (s : TsSys T U O H) (u : U) (obj : O) (q : TsQueue) :
    ℕ → Except TsError (TsSys T U O H)
  | 0 => .ok s
  | n + 1 =>
    match ((s.ts u).queues q).getLast? with
    | none => .error .nullNode
    | some t => (turnstileDequeue hash s u obj q t).bind fun s' => turnstileWake s' u obj q n

/-- `turnstile_wake_handoff`, to the head of the queue if there is no target. -/
def turnstileWakeHandoff (s : TsSys T U O H) (u : U) (obj : O) (q : TsQueue)
    (target : Option T) : Except TsError (TsSys T U O H) :=
  match ((s.ts u).queues q).getLast? with
  | none => .error .nullNode
  | some head =>
    let first := target.getD head
    if first ∉ (s.ts u).queues q then .error .notQueued
    else turnstileDequeue hash s u obj q first

/-- `turnstile_requeue_waiter`: the first queue that has the thread is reordered. -/
def turnstileRequeueWaiter (s : TsSys T U O H) (u : U) (t : T) : TsSys T U O H :=
  let prio := turnstileThreadPriority (s.prioClass t) (s.weight t)
  let key := update s.wqPrio t prio
  let x := s.ts u
  if s.wqPrio t = prio then s
  else if t ∈ x.queues .writer then
    { s.setTs u (x.setQueue .writer (reinsert key t (x.queues .writer))) with wqPrio := key }
  else if t ∈ x.queues .reader then
    { s.setTs u (x.setQueue .reader (reinsert key t (x.queues .reader))) with wqPrio := key }
  else s

/-- `thread_wait_satisfy` of a dequeued thread. -/
def turnstileSatisfy (s : TsSys T U O H) (t : T) : Except TsError (TsSys T U O H) :=
  if s.waiting t then
    .ok { s with
      waiting := update s.waiting t false
      wakeList := s.wakeList.erase t }
  else .error .notSatisfied

/-- The steps of the system. -/
inductive TsAct (T U O : Type)
  | block (t : T) (obj : O) (q : TsQueue)
  | wake (obj : O) (q : TsQueue) (n : ℕ)
  | handoff (obj : O) (q : TsQueue) (target : Option T)
  | requeue (obj : O) (t : T)
  | satisfy (t : T)
  /-- A thread's priority changes without the chain lock. -/
  | prio (t : T) (c : PrioClass) (weight : ℕ)

/-- One step, if it can be taken: a thread blocks when it runs, at most the queued number is woken,
a hand-off is to a queued target, and a thread that was dequeued is woken. -/
def tsStep (s : TsSys T U O H) : TsAct T U O → Option (Except TsError (TsSys T U O H))
  | .block t obj q => if s.waiting t then none else some (turnstileBlock hash s t obj q)
  | .wake obj q n =>
    match turnstileLookup hash s obj with
    | none => none
    | some u =>
      if n ≤ ((s.ts u).queues q).length then some (turnstileWake hash s u obj q n) else none
  | .handoff obj q target =>
    match turnstileLookup hash s obj with
    | none => none
    | some u =>
      if (s.ts u).queues q ≠ [] ∧ (∀ t ∈ target, t ∈ (s.ts u).queues q) then
        some (turnstileWakeHandoff hash s u obj q target)
      else none
  | .requeue obj t =>
    (turnstileLookup hash s obj).map fun u => .ok (turnstileRequeueWaiter s u t)
  | .satisfy t => if t ∈ s.wakeList then some (turnstileSatisfy s t) else none
  | .prio t c weight =>
    some (.ok { s with
      prioClass := update s.prioClass t c
      weight := update s.weight t weight })

/-- Every thread owns the turnstile it was born with. -/
def tsInit (born : T → U) (prioClass : T → PrioClass) (weight : T → ℕ) : TsSys T U O H where
  ts _ := turnstileInit
  chains _ := []
  turnstile t := some (born t)
  blockedTs _ := none
  wqPrio _ := 0
  wqSeq _ := 0
  prioClass := prioClass
  weight := weight
  waiting _ := false
  wakeList := []

end Charmos.Sync
