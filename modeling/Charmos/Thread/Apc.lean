import Mathlib

/-!
# Asynchronous procedure calls

An asynchronous procedure call is put on a queue of a thread by `apc_enqueue` and leaves it in one
of three ways: the thread executes it (`deliver_apc_type`), somebody withdraws it (`apc_cancel`), or
the thread gives up its queues (`apc_rundown_thread`). The field `state` keeps a call from being
enqueued twice, and a queue keeps a reference to each of its calls.

What happens under the lock of a thread is one step; what happens after the lock is dropped are
steps of their own. Any number of these functions can be underway. Who enqueues or withdraws a call
holds a reference to it, as a user or in the running procedure, and the thread is not an idle
thread. A queue is the list of its members from the head to the tail; the links between them are
kept as well, for the check before a call is destroyed. The reference count is a number, so the
results are about runs in which it does not reach `2 ^ 32`.
-/

namespace Charmos.Apc

open Function

/-- `enum apc_type`. -/
inductive ApcType
  | specialKernel
  | kernel
  | user
  | boundary
  deriving DecidableEq

/-- All types, in the order of their numbers. -/
def apcTypes : List ApcType :=
  [.specialKernel, .kernel, .user, .boundary]

/-- `enum apc_state`. -/
inductive ApcState
  | idle
  | queued
  | executing
  deriving DecidableEq

/-- The checks that can fail. -/
inductive Fault
  /-- In `apc_enqueue`: the call has an owner. -/
  | enqueueOwner
  /-- In `deliver_apc_type` and `try_cancel_from_queue`: a call on the queue has another owner, or
  it is not queued. -/
  | queueOwner
  | queueState
  /-- In `refcount_dec_and_test`: there is no reference. -/
  | putrefZero
  /-- In `apc_putref`: the last reference goes, and the call is not idle, has an owner or a link. -/
  | destroyState
  | destroyOwner
  | destroyNext
  deriving DecidableEq

/-- Where a call of one of the functions is, outside the lock. -/
inductive Call (A : Type)
  | idle
  /-- `apc_enqueue` failed, before it gives its reference back. -/
  | putFail (a : A)
  /-- `apc_cancel` has removed the call, before the state is stored and before the reference
  goes. -/
  | cancelIdle (a : A)
  | cancelPut (a : A)
  /-- In the loop of `apc_rundown_thread`, with what is left in `drained`; with a call before its
  state is stored and before the reference goes. -/
  | runNext (drained : List A)
  | runIdle (a : A) (drained : List A)
  | runPut (a : A) (drained : List A)
  | ret (result : Bool)

/-- Where the delivery on a thread is, outside the lock. -/
inductive Delivery (A : Type)
  | idle
  /-- In `thread_exec_apcs`, before it looks at a type. -/
  | check (type : ApcType)
  | loop (type : ApcType) (budget : ℕ)
  /-- In the procedure, and before the reference goes. -/
  | exec (a : A) (type : ApcType) (budget : ℕ)
  | put (a : A) (type : ApcType) (budget : ℕ)

/-- `APC_DELIVER_BUDGET`. -/
def apcDeliverBudget : ℕ := 32

/-- The threads, the calls and the functions that are underway. -/
structure Sys (T A K : Type) where
  queue : T → ApcType → List A
  pending : T → ApcType → Bool
  dying : T → Bool
  specialApcDisable : T → ℕ
  kernelApcDisable : T → ℕ
  owner : A → Option T
  next : A → Option A
  state : A → ApcState
  refs : A → ℕ
  call : K → Call A
  delivery : T → Delivery A
  /-- History: the references that users hold. -/
  users : A → ℕ
  /-- History: how often `destroy` has run. -/
  destroyed : A → ℕ
  /-- History: the number of the next enqueue, the number of the last enqueue of a call, and the
  numbers of the enqueues that were delivered. -/
  clock : ℕ
  seq : A → ℕ
  delivered : T → ApcType → List ℕ
  /-- History: the successful enqueues, and what became of them. -/
  enqueues : A → ℕ
  executions : A → ℕ
  cancels : A → ℕ
  rundowns : A → ℕ

section

variable {T A K : Type} [DecidableEq T] [DecidableEq A] [DecidableEq K]

/-- The queue of a thread gets other members. -/
def Sys.setQueue (s : Sys T A K) (t : T) (type : ApcType) (l : List A) : Sys T A K :=
  { s with queue := update s.queue t (update (s.queue t) type l) }

def Sys.setPending (s : Sys T A K) (t : T) (type : ApcType) (value : Bool) : Sys T A K :=
  { s with pending := update s.pending t (update (s.pending t) type value) }

/-- The links after `apc_enqueue_tail`. -/
def linkTail (next : A → Option A) (l : List A) (a : A) : A → Option A :=
  let next := update next a none
  match l.getLast? with
  | none => next
  | some tail => update next tail (some a)

def Sys.setCall (s : Sys T A K) (k : K) (pc : Call A) : Sys T A K :=
  { s with call := update s.call k pc }

def Sys.setDelivery (s : Sys T A K) (t : T) (pc : Delivery A) : Sys T A K :=
  { s with delivery := update s.delivery t pc }

def Sys.storeState (s : Sys T A K) (a : A) (state : ApcState) : Sys T A K :=
  { s with state := update s.state a state }

/-- `apc_getref`, if there is a reference. -/
def apcGetref (s : Sys T A K) (a : A) : Option (Sys T A K) :=
  if s.refs a = 0 then none
  else some { s with refs := update s.refs a (s.refs a + 1) }

def apcPutref (s : Sys T A K) (a : A) : Except Fault (Sys T A K) :=
  if s.refs a = 0 then .error .putrefZero
  else
    let s := { s with refs := update s.refs a (s.refs a - 1) }
    if s.refs a ≠ 0 then .ok s
    else if s.state a ≠ .idle then .error .destroyState
    else if s.owner a ≠ none then .error .destroyOwner
    else if s.next a ≠ none then .error .destroyNext
    else .ok { s with destroyed := update s.destroyed a (s.destroyed a + 1) }

def addApcToThread (s : Sys T A K) (t : T) (a : A) (type : ApcType) : Sys T A K :=
  let s := { s with
    owner := update s.owner a (some t)
    next := linkTail s.next (s.queue t type) a
    seq := update s.seq a s.clock
    clock := s.clock + 1
    enqueues := update s.enqueues a (s.enqueues a + 1) }
  (s.setQueue t type (s.queue t type ++ [a])).setPending t type true

/-- `apc_enqueue` up to the release of the lock, with where it goes on. `ok` is whether the thread
could be acquired. -/
def apcEnqueue (s : Sys T A K) (t : T) (a : A) (type : ApcType) (ok : Bool) :
    Except Fault (Call A × Sys T A K) :=
  if ok = false ∨ s.dying t then .ok (.ret false, s)
  else
    match apcGetref s a with
    | none => .ok (.ret false, s)
    | some s =>
      if s.state a ≠ .idle then .ok (.putFail a, s)
      else if s.owner a ≠ none then .error .enqueueOwner
      else .ok (.ret true, addApcToThread (s.storeState a .queued) t a type)

/-- The links after a call is taken out of a queue: its predecessor gets its link. -/
def unlink (next : A → Option A) (l : List A) (a : A) : A → Option A :=
  match (l.takeWhile (· ≠ a)).getLast? with
  | none => update next a none
  | some prev => update (update next prev (next a)) a none

/-- `try_cancel_from_queue`, if the call is on the queue. -/
def tryCancelFromQueue (s : Sys T A K) (t : T) (a : A) (type : ApcType) :
    Except Fault (Sys T A K) :=
  if s.owner a ≠ some t then .error .queueOwner
  else if s.state a ≠ .queued then .error .queueState
  else
    let s := { s with
      next := unlink s.next (s.queue t type) a
      owner := update s.owner a none
      cancels := update s.cancels a (s.cancels a + 1) }
    .ok (s.setQueue t type ((s.queue t type).erase a))

def updatePendingMask (s : Sys T A K) (t : T) (type : ApcType) : Sys T A K :=
  if s.queue t type = [] then s.setPending t type false else s

/-- `apc_cancel` up to the release of the lock. -/
def apcCancel (s : Sys T A K) (t : T) (a : A) (ok : Bool) : Except Fault (Call A × Sys T A K) :=
  if ok = false then .ok (.ret false, s)
  else
    match apcTypes.find? (a ∈ s.queue t ·) with
    | none => .ok (.ret false, s)
    | some type =>
      (tryCancelFromQueue s t a type).map fun s => (.cancelIdle a, updatePendingMask s t type)

/-- `apc_queue_splice`: what `drained` has afterwards, and the links. -/
def apcQueueSplice (drained : List A) (next : A → Option A) (l : List A) :
    List A × (A → Option A) :=
  l.foldl (fun r a => (r.1 ++ [a], linkTail r.2 r.1 a)) (drained, next)

/-- `apc_rundown_thread` up to the release of the lock. -/
def apcRundownThread (s : Sys T A K) (t : T) : Call A × Sys T A K :=
  let r := apcTypes.foldl (fun r type => apcQueueSplice r.1 r.2 (s.queue t type)) ([], s.next)
  (.runNext r.1, { s with
    queue := update s.queue t fun _ => []
    pending := update s.pending t fun _ => false
    next := r.2
    rundowns := fun a => if a ∈ r.1 then s.rundowns a + 1 else s.rundowns a })

/-- The next step of a function that has dropped the lock. -/
def callStep (s : Sys T A K) (k : K) : Option (Except Fault (Sys T A K)) :=
  match s.call k with
  | .idle => none
  | .ret _ => none
  | .putFail a => some ((apcPutref s a).map (·.setCall k (.ret false)))
  | .cancelIdle a => some (.ok ((s.storeState a .idle).setCall k (.cancelPut a)))
  | .cancelPut a => some ((apcPutref s a).map (·.setCall k (.ret true)))
  | .runNext [] => some (.ok (s.setCall k (.ret true)))
  | .runNext (a :: drained) =>
    let s := { s with
      next := update s.next a none
      owner := update s.owner a none }
    some (.ok (s.setCall k (.runIdle a drained)))
  | .runIdle a drained => some (.ok ((s.storeState a .idle).setCall k (.runPut a drained)))
  | .runPut a drained => some ((apcPutref s a).map (·.setCall k (.runNext drained)))

def threadCanExecSpecialApcs (s : Sys T A K) (t : T) : Bool :=
  s.specialApcDisable t = 0 ∧ s.pending t .specialKernel

def threadCanExecKernelApcs (s : Sys T A K) (t : T) : Bool :=
  s.kernelApcDisable t = 0 ∧ s.pending t .kernel

/-- Where `thread_exec_apcs` goes on after a type; it never delivers the last two. -/
def Delivery.after : ApcType → Delivery A
  | .specialKernel => .check .kernel
  | _ => .idle

/-- Whether `thread_exec_apcs` delivers a type. -/
def threadCanExec (s : Sys T A K) (t : T) : ApcType → Bool
  | .specialKernel => threadCanExecSpecialApcs s t
  | .kernel => threadCanExecKernelApcs s t
  | _ => false

/-- What `deliver_apc_type` does under the lock with the head of the queue. -/
def deliverHead (s : Sys T A K) (t : T) (type : ApcType) (a : A) (l : List A) : Sys T A K :=
  let s := { s with
    next := update s.next a none
    owner := update s.owner a none
    executions := update s.executions a (s.executions a + 1)
    delivered := update s.delivered t
      (update (s.delivered t) type (s.delivered t type ++ [s.seq a])) }
  (s.setQueue t type l).storeState a .executing

/-- The next step of `thread_exec_apcs` and of `deliver_apc_type` in it. `ok` is whether the thread
could be acquired. -/
def deliverStep (s : Sys T A K) (t : T) (ok : Bool) : Option (Except Fault (Sys T A K)) :=
  match s.delivery t with
  | .idle => none
  | .check type =>
    some (.ok (s.setDelivery t
      (if threadCanExec s t type then .loop type apcDeliverBudget else .after type)))
  | .loop type budget =>
    if budget = 0 ∨ ok = false then some (.ok (s.setDelivery t (.after type)))
    else
      match s.queue t type with
      | [] => some (.ok ((s.setPending t type false).setDelivery t (.after type)))
      | a :: l =>
        some (
          if s.owner a ≠ some t then .error .queueOwner
          else if s.state a ≠ .queued then .error .queueState
          else .ok ((deliverHead s t type a l).setDelivery t (.exec a type (budget - 1))))
  | .exec a type budget => some (.ok ((s.storeState a .idle).setDelivery t (.put a type budget)))
  | .put a type budget => some ((apcPutref s a).map (·.setDelivery t (.loop type budget)))

/-- What can happen next. -/
inductive Act (T A K : Type)
  | enqueue (k : K) (t : T) (a : A) (type : ApcType) (ok : Bool)
  | cancel (k : K) (t : T) (a : A) (ok : Bool)
  | rundown (k : K) (t : T)
  | call (k : K)
  | apcCheckAndDeliver (t : T)
  | deliverStep (t : T) (ok : Bool)
  /-- A user takes another reference, or gives one back. -/
  | getref (a : A)
  | putref (a : A)
  /-- The thread gets the flag `THREAD_FLAG_DYING`. -/
  | die (t : T)
  | apcDisableSpecial (t : T)
  | apcEnableSpecial (t : T)
  | apcDisableKernel (t : T)
  | apcEnableKernel (t : T)

/-- No function is underway here. -/
def Call.isIdle : Call A → Bool
  | .idle | .ret _ => true
  | _ => false

/-- Somebody who can call the functions holds a reference: a user, or the procedure itself. -/
def Sys.inReach (s : Sys T A K) (a : A) : Bool :=
  0 < s.users a ∨ s.state a = .executing

/-- A step, if it is possible. A delivery starts only on a thread on which none runs: that is what
`THREAD_FLAG_DELIVERING_APCS` and `THREAD_FLAG_EXECUTING_APC` say. -/
def apcStep (s : Sys T A K) : Act T A K → Option (Except Fault (Sys T A K))
  | .enqueue k t a type ok =>
    if (s.call k).isIdle ∧ s.inReach a then
      some ((apcEnqueue s t a type ok).map fun r => r.2.setCall k r.1)
    else none
  | .cancel k t a ok =>
    if (s.call k).isIdle ∧ s.inReach a then
      some ((apcCancel s t a ok).map fun r => r.2.setCall k r.1)
    else none
  | .rundown k t =>
    if (s.call k).isIdle then
      let r := apcRundownThread s t
      some (.ok (r.2.setCall k r.1))
    else none
  | .call k => callStep s k
  | .apcCheckAndDeliver t =>
    match s.delivery t with
    | .idle =>
      if (threadCanExecSpecialApcs s t ∨ threadCanExecKernelApcs s t) ∧ s.dying t = false then
        some (.ok (s.setDelivery t (.check .specialKernel)))
      else none
    | _ => none
  | .deliverStep t ok => deliverStep s t ok
  | .getref a =>
    if s.inReach a then
      match apcGetref s a with
      | none => some (.ok s)
      | some s => some (.ok { s with users := update s.users a (s.users a + 1) })
    else none
  | .putref a =>
    if 0 < s.users a then
      some (apcPutref { s with users := update s.users a (s.users a - 1) } a)
    else none
  | .die t => some (.ok { s with dying := update s.dying t true })
  | .apcDisableSpecial t =>
    some (.ok { s with
      specialApcDisable := update s.specialApcDisable t (s.specialApcDisable t + 1) })
  | .apcEnableSpecial t =>
    if 0 < s.specialApcDisable t then
      some (.ok { s with
        specialApcDisable := update s.specialApcDisable t (s.specialApcDisable t - 1) })
    else none
  | .apcDisableKernel t =>
    some (.ok { s with
      kernelApcDisable := update s.kernelApcDisable t (s.kernelApcDisable t + 1) })
  | .apcEnableKernel t =>
    if 0 < s.kernelApcDisable t then
      some (.ok { s with
        kernelApcDisable := update s.kernelApcDisable t (s.kernelApcDisable t - 1) })
    else none

/-- After `apc_init`: every call has the reference of its creator. -/
def Sys.init : Sys T A K where
  queue _ _ := []
  pending _ _ := false
  dying _ := false
  specialApcDisable _ := 0
  kernelApcDisable _ := 0
  owner _ := none
  next _ := none
  state _ := .idle
  refs _ := 1
  call _ := .idle
  delivery _ := .idle
  users _ := 1
  destroyed _ := 0
  clock := 0
  seq _ := 0
  delivered _ _ := []
  enqueues _ := 0
  executions _ := 0
  cancels _ := 0
  rundowns _ := 0

/-- The states that a run reaches. -/
def Reachable (s : Sys T A K) : Prop :=
  Relation.ReflTransGen (fun s s' => ∃ a, apcStep s a = some (.ok s')) Sys.init s

end

end Charmos.Apc
