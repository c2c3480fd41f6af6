import Mathlib

/-!
# Object waits

A thread waits for several objects at once. `prepare_wait` links one wait block for each object on
the object's header, in storage that the thread provides and that its next wait may use again. The
wait ends when one of the objects is signalled, when its timer expires, when the thread is alerted,
or when the thread cancels it. All of these can be tried at the same time: a signaller drops the
lock of the header before it takes the lock of the wait, and recognises the wait that it saw by the
thread's `wait_epoch`, the number of the waits it has prepared, which does not wrap here.

The sections under the lock of a wait and those under the lock of a header are single steps.
`try_acquire` may succeed or fail for any object, and the callbacks, the resume reasons and the
thread states of the scheduler are left out. A wait's end is also recorded in `ended` and a block's
header in `registered`; no step reads these.
-/

namespace Charmos.Thread

open Function

/-- `enum thread_wait_block_state`. -/
inductive BlockState
  | inactive
  | active
  | satisfied
  deriving DecidableEq

/-- `struct thread_wait_block`; the node is in the list that has the block. -/
structure WaitBlock (T H : Type) where
  thread : T
  key : ℕ
  state : BlockState
  header : H

/-- `enum thread_wait_type`. -/
inductive WaitType
  | none
  | interruptible
  | uninterruptible
  deriving DecidableEq

/-- `enum thread_wait_status`. -/
inductive WaitStatus
  | satisfied
  | timedOut
  | alerted
  deriving DecidableEq

/-- How a wait has ended: with a status and a key, or cancelled. -/
inductive WaitEnd
  | done (status : WaitStatus) (key : Option ℕ)
  | cancelled
  deriving DecidableEq

/-- Where a thread is in the calls it makes for its own wait. -/
inductive WaiterPc
  | running
  /-- In `thread_wait_complete_timeout`, before the timer is set. -/
  | arming
  /-- In the loop of `thread_wait_complete`; a timer is to be deleted after it. -/
  | completing (armed : Bool)
  | deleting
  deriving DecidableEq

/-- What a thread keeps of its wait; `KEY_NONE` is no key. -/
structure ThreadWait (St : Type) where
  activeWaitBlocks : Option St
  waitBlockCount : ℕ
  waitKey : Option ℕ
  waitDone : Bool
  waitStatus : WaitStatus
  waitEpoch : ℕ
  waitType : WaitType
  alertPending : Bool
  waitTimerEpoch : ℕ
  /-- The timer is set and has not expired. -/
  waitTimer : Bool
  /-- `THREAD_FLAG_DYING`. -/
  dying : Bool
  pc : WaiterPc

/-- Where a call of `satisfy_one`, `satisfy_all` or `satisfy_epoch` is. -/
inductive Signaller (T H : Type)
  | idle
  /-- At the head of the loop of `satisfy_one`. -/
  | one (h : H)
  /-- `satisfy_one` has read a block, and dropped the lock of the header. -/
  | oneGot (h : H) (t : T) (epoch key : ℕ)
  | allStart (h : H)
  /-- At the head of the loop of `satisfy_all`. -/
  | allNext (h : H)
  | allGot (h : H) (t : T) (epoch key : ℕ) (last : Bool)
  /-- The epoch is read for `satisfy_epoch`. -/
  | epochGot (t : T) (epoch : ℕ)
  deriving DecidableEq

/-- A list that wait blocks are linked on. -/
inductive WaitList (H S : Type)
  | waiters (h : H)
  | snapshot (r : S)
  deriving DecidableEq

/-- Threads `T`, headers `H`, storages `St` for wait blocks and signalling calls `S`. A wait block
is an index of a storage. -/
structure WaitSys (T H St S : Type) where
  th : T → ThreadWait St
  blocks : St → ℕ → WaitBlock T H
  lists : WaitList H S → List (St × ℕ)
  sig : S → Signaller T H
  /-- The runs of `empty_locked` for each header. -/
  emptied : H → ℕ
  /-- The ends of the wait of a thread that has a number. -/
  ended : T → ℕ → List WaitEnd
  /-- The header that a block of a wait was linked on. -/
  registered : T → ℕ → ℕ → Option H

variable {T H St S : Type} [DecidableEq T] [DecidableEq H] [DecidableEq St] [DecidableEq S]

namespace WaitSys

def setTh (s : WaitSys T H St S) (t : T) (x : ThreadWait St) : WaitSys T H St S :=
  { s with th := update s.th t x }

def setBlock (s : WaitSys T H St S) (st : St) (i : ℕ) (b : WaitBlock T H) : WaitSys T H St S :=
  { s with blocks := update s.blocks st (update (s.blocks st) i b) }

def setList (s : WaitSys T H St S) (p : WaitList H S) (l : List (St × ℕ)) : WaitSys T H St S :=
  { s with lists := update s.lists p l }

def setSig (s : WaitSys T H St S) (r : S) (x : Signaller T H) : WaitSys T H St S :=
  { s with sig := update s.sig r x }

/-- The history of the thread's wait gets an end. -/
def logEnd (s : WaitSys T H St S) (t : T) (e : WaitEnd) : WaitSys T H St S :=
  let n := (s.th t).waitEpoch
  let own := update (s.ended t) n (s.ended t n ++ [e])
  { s with ended := update s.ended t own }

/-- The history of the thread's wait gets the header of a block. -/
def register (s : WaitSys T H St S) (t : T) (i : ℕ) (h : H) : WaitSys T H St S :=
  let n := (s.th t).waitEpoch
  let own := update (s.registered t) n (update (s.registered t n) i (some h))
  { s with registered := update s.registered t own }

/-- `list_node_delete_init`: whichever list has the block. -/
def unlink (s : WaitSys T H St S) (b : St × ℕ) : WaitSys T H St S :=
  { s with lists := fun p => (s.lists p).erase b }

end WaitSys

/-! ### Ending a wait -/

/-- An iteration of `unlink_blocks`. -/
def unlinkBlock (s : WaitSys T H St S) (st : St) (got : Option ℕ) (i : ℕ) : WaitSys T H St S :=
  let b := s.blocks st i
  if b.state ≠ .active then s
  else
    (s.unlink (st, i)).setBlock st i
      { b with state := if some i = got then .satisfied else .inactive }

/-- The first `n` iterations of `unlink_blocks`. -/
def unlinkUpTo (s : WaitSys T H St S) (st : St) (got : Option ℕ) : ℕ → WaitSys T H St S
  | 0 => s
  | n + 1 => unlinkBlock (unlinkUpTo s st got n) st got n

/-- `unlink_blocks`. -/
def unlinkBlocks (s : WaitSys T H St S) (t : T) (got : Option ℕ) : WaitSys T H St S :=
  match (s.th t).activeWaitBlocks with
  | none => s
  | some st => unlinkUpTo s st got (s.th t).waitBlockCount

/-- The stores that make a wait done. -/
def setDone (s : WaitSys T H St S) (t : T) (status : WaitStatus) (key : Option ℕ) :
    WaitSys T H St S :=
  (s.setTh t { s.th t with waitKey := key, waitDone := true, waitStatus := status }).logEnd t
    (.done status key)

/-- `deliver_alert_locked`. -/
def deliverAlertLocked (s : WaitSys T H St S) (t : T) : WaitSys T H St S :=
  let x := s.th t
  if !x.alertPending || x.activeWaitBlocks.isNone || x.waitDone || x.waitType ≠ .interruptible then
    s
  else
    let s₁ := unlinkBlocks s t none
    setDone (s₁.setTh t { s₁.th t with alertPending := false }) t .alerted none

/-- `satisfy_at_prepare`, with storage `st`. -/
def satisfyAtPrepare (s : WaitSys T H St S) (t : T) (st : St) (key : ℕ) : WaitSys T H St S :=
  let s₁ := s.setBlock st key { s.blocks st key with state := .inactive }
  let s₂ := unlinkBlocks (s₁.setTh t { s₁.th t with waitBlockCount := key + 1 }) t (some key)
  setDone (s₂.setBlock st key { s₂.blocks st key with state := .satisfied }) t .satisfied (some key)

/-- The loop of `prepare_wait` from the object `i` on. An object is its header and whether
`try_acquire` succeeds. -/
def prepareFrom (s : WaitSys T H St S) (t : T) (st : St) (i : ℕ) :
    List (H × Bool) → WaitSys T H St S
  | [] => s
  | (h, acquired) :: objects =>
    let s₁ := s.setBlock st i ⟨t, i, .active, h⟩
    if acquired then satisfyAtPrepare s₁ t st i
    else
      let s₂ := s₁.setList (.waiters h) (s₁.lists (.waiters h) ++ [(st, i)])
      prepareFrom (s₂.register t i h) t st (i + 1) objects

/-- `prepare_wait`. -/
def prepareWait (s : WaitSys T H St S) (t : T) (st : St) (objects : List (H × Bool))
    (type : WaitType) : WaitSys T H St S :=
  let x := s.th t
  let s₁ := s.setTh t { x with
    activeWaitBlocks := some st
    waitBlockCount := objects.length
    waitKey := none
    waitDone := false
    waitStatus := .satisfied
    waitEpoch := x.waitEpoch + 1
    waitType := type }
  deliverAlertLocked (prepareFrom s₁ t st 0 objects) t

/-- `satisfy`: whether it has ended the wait. -/
def satisfy (s : WaitSys T H St S) (t : T) (epoch key : ℕ) : Bool × WaitSys T H St S :=
  let x := s.th t
  match x.activeWaitBlocks with
  | none => (false, s)
  | some st =>
    if x.waitEpoch ≠ epoch || x.waitBlockCount ≤ key || (s.blocks st key).state ≠ .active then
      (false, s)
    else (true, setDone (unlinkBlocks s t (some key)) t .satisfied (some key))

/-- `finish_locked`. -/
def finishLocked (s : WaitSys T H St S) (t : T) : WaitSys T H St S :=
  s.setTh t { s.th t with
    activeWaitBlocks := none
    waitBlockCount := 0
    waitType := .none }

/-- `wait_timeout_send`. -/
def waitTimeoutSend (s : WaitSys T H St S) (t : T) : WaitSys T H St S :=
  let x := s.th t
  if !x.waitDone && x.waitEpoch = x.waitTimerEpoch then
    setDone (unlinkBlocks s t none) t .timedOut none
  else s

/-- `thread_wait_cancel`; a wait that is done has ended before. -/
def threadWaitCancel (s : WaitSys T H St S) (t : T) : WaitSys T H St S :=
  let s₁ := unlinkBlocks s t none
  finishLocked (if (s.th t).waitDone then s₁ else s₁.logEnd t .cancelled) t

/-- `thread_alert`. -/
def threadAlert (s : WaitSys T H St S) (t : T) : WaitSys T H St S :=
  if (s.th t).dying then s
  else deliverAlertLocked (s.setTh t { s.th t with alertPending := true }) t

/-! ### Signalling -/

/-- A turn of the loop of `satisfy_all` under the lock of the header. -/
def snapshotNext (s : WaitSys T H St S) (r : S) (h : H) : WaitSys T H St S :=
  match s.lists (.snapshot r) with
  | [] => s.setSig r .idle
  | (st, i) :: rest =>
    let b := s.blocks st i
    (s.unlink (st, i)).setSig r
      (.allGot h b.thread (s.th b.thread).waitEpoch b.key rest.isEmpty)

/-- The next section of a signalling call; `key` is read from the block by `satisfy_epoch`. -/
def signallerRun (s : WaitSys T H St S) (r : S) (key : ℕ) : WaitSys T H St S :=
  match s.sig r with
  | .idle => s
  | .one h =>
    match s.lists (.waiters h) with
    | [] => { s.setSig r .idle with emptied := update s.emptied h (s.emptied h + 1) }
    | (st, i) :: _ =>
      let b := s.blocks st i
      s.setSig r (.oneGot h b.thread (s.th b.thread).waitEpoch b.key)
  | .oneGot h t epoch k =>
    let won := satisfy s t epoch k
    won.2.setSig r (if won.1 then .idle else .one h)
  | .allStart h =>
    snapshotNext ((s.setList (.snapshot r) (s.lists (.waiters h))).setList (.waiters h) []) r h
  | .allNext h => snapshotNext s r h
  | .allGot h t epoch k last =>
    (satisfy s t epoch k).2.setSig r (if last then .idle else .allNext h)
  | .epochGot t epoch => (satisfy s t epoch key).2.setSig r .idle

/-! ### Steps -/

/-- The steps of the threads for their own waits, of timers and alerts, and of signallers. -/
inductive WaitAct (T H St S : Type)
  | prepare (t : T) (st : St) (objects : List (H × Bool)) (type : WaitType)
  | complete (t : T)
  | completeTimeout (t : T)
  | armTimer (t : T)
  /-- A pass of the loop of `thread_wait_complete`. -/
  | pass (t : T)
  | deleteSync (t : T)
  | cancel (t : T)
  | expire (t : T)
  | alert (t : T)
  | exit (t : T)
  /-- `thread_wait_satisfy` of the block `key`. -/
  | satisfyBlock (t : T) (key : ℕ)
  | callOne (r : S) (h : H)
  | callAll (r : S) (h : H)
  | readEpoch (r : S) (t : T)
  | run (r : S) (key : ℕ)

/-- One step, if it can be taken. A thread prepares a wait in storage of its own and ends it before
it prepares another, and a timer expires while it is set. -/
def waitStep (owner : St → T) (s : WaitSys T H St S) :
    WaitAct T H St S → Option (WaitSys T H St S)
  | .prepare t st objects type =>
    if (s.th t).pc = .running ∧ (s.th t).activeWaitBlocks = none ∧ owner st = t ∧
        objects.length ≤ 65535 ∧ type ≠ .none then
      some (prepareWait s t st objects type)
    else none
  | .complete t =>
    if (s.th t).pc = .running ∧ (s.th t).activeWaitBlocks ≠ none then
      some (s.setTh t { s.th t with pc := .completing false })
    else none
  | .completeTimeout t =>
    if (s.th t).pc = .running ∧ (s.th t).activeWaitBlocks ≠ none then
      some (s.setTh t { s.th t with
        waitTimerEpoch := (s.th t).waitEpoch
        pc := if (s.th t).waitDone then .completing false else .arming })
    else none
  | .armTimer t =>
    if (s.th t).pc = .arming then
      some (s.setTh t { s.th t with waitTimer := true, pc := .completing true })
    else none
  | .pass t =>
    match (s.th t).pc with
    | .completing armed =>
      if (s.th t).waitDone then
        let s₁ := finishLocked s t
        some (s₁.setTh t { s₁.th t with pc := if armed then .deleting else .running })
      else some s
    | _ => none
  | .deleteSync t =>
    if (s.th t).pc = .deleting then
      some (s.setTh t { s.th t with waitTimer := false, pc := .running })
    else none
  | .cancel t =>
    if (s.th t).pc = .running ∧ (s.th t).activeWaitBlocks ≠ none then
      some (threadWaitCancel s t)
    else none
  | .expire t =>
    if (s.th t).waitTimer then
      let s₁ := waitTimeoutSend s t
      some (s₁.setTh t { s₁.th t with waitTimer := false })
    else none
  | .alert t => some (threadAlert s t)
  | .exit t =>
    if (s.th t).pc = .running ∧ (s.th t).activeWaitBlocks = none then
      some (s.setTh t { s.th t with dying := true })
    else none
  | .satisfyBlock t key => some (satisfy s t (s.th t).waitEpoch key).2
  | .callOne r h => if s.sig r = .idle then some (s.setSig r (.one h)) else none
  | .callAll r h => if s.sig r = .idle then some (s.setSig r (.allStart h)) else none
  | .readEpoch r t =>
    if s.sig r = .idle then some (s.setSig r (.epochGot t (s.th t).waitEpoch)) else none
  | .run r key => if s.sig r = .idle then none else some (signallerRun s r key)

/-- No thread waits; what the storages hold is arbitrary. -/
def waitInit (blocks : St → ℕ → WaitBlock T H) : WaitSys T H St S where
  th _ :=
    { activeWaitBlocks := none
      waitBlockCount := 0
      waitKey := none
      waitDone := false
      waitStatus := .satisfied
      waitEpoch := 0
      waitType := .none
      alertPending := false
      waitTimerEpoch := 0
      waitTimer := false
      dying := false
      pc := .running }
  blocks := blocks
  lists _ := []
  sig _ := .idle
  emptied _ := 0
  ended _ _ := []
  registered _ _ _ := none

end Charmos.Thread
