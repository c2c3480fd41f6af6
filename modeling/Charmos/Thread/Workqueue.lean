import Charmos.Lib.AgentSum

/-!
# Workqueues

`workqueue_enqueue` puts a work item at the end of a list, counts it, and signals `queue_cv`.
A worker takes items from the front and executes them; when there is none it takes the lock of
the queue, and as long as `num_tasks` is zero it registers with `queue_cv`, gives the lock up and
sleeps. The list has a lock of its own, `work_lock`. An enqueuer takes only that one, and counts
and signals after it has given it up.

Modelled is a queue like the permanent ones, which does not spawn workers and does not time them
out. The sections under `work_lock` are one step each, and so is a signal, which wakes the first
waiter; everything else is a step for each access to shared memory. Spawning, the exit of workers
and the flag `enqueued`, which nothing here reads, are left out.
-/

namespace Charmos.Workqueue

open AgentSum Function

/-- Where an enqueuer is: in no call, before it counts its item, and before it signals. -/
inductive EnqueuePc
  | idle
  | count
  | signal
deriving DecidableEq, Repr

/-- Where a worker is in `worker_main`. -/
inductive WorkerPc (I : Type)
  | dequeue
  /-- It has an item and has not taken it from the count yet. -/
  | decrement (i : I)
  /-- In `work_execute`: before the function is called, and before `active` is cleared. -/
  | execute (i : I)
  | finish (i : I)
  | lock
  /-- Before the test of `workqueue_empty`. -/
  | test
  /-- The queue was empty; before `condvar_prepare_wait`. -/
  | register
  /-- Before the lock is given up in `condvar_finish_wait`. -/
  | release
  | asleep
  /-- It was woken; before the lock is taken again. -/
  | relock
  | unlock
deriving DecidableEq, Repr

/-- A queue with its enqueuers `E`, its workers `K` and the work items `I`. -/
structure Queue (E K I : Type) where
  works : List I
  /-- `work->active`. -/
  active : I → Bool
  numTasks : BitVec 32
  /-- `queue->lock`. -/
  lock : Option K
  /-- The waiters of `queue_cv`. -/
  waiters : List K
  /-- The wait of the worker has been satisfied. -/
  woken : K → Bool
  enqueuer : E → EnqueuePc
  worker : K → WorkerPc I
  /-- History: the items in the order in which they were put on the list, taken from it and
  executed. -/
  pushed : List I
  popped : List I
  executed : List I

variable {E K I : Type} [Fintype E] [DecidableEq E] [Fintype K] [DecidableEq K] [DecidableEq I]

/-- An empty queue. -/
def Queue.init : Queue E K I where
  works := []
  active := fun _ => false
  numTasks := 0
  lock := none
  waiters := []
  woken := fun _ => false
  enqueuer := fun _ => .idle
  worker := fun _ => .dequeue
  pushed := []
  popped := []
  executed := []

def Queue.setEnqueuer (s : Queue E K I) (e : E) (p : EnqueuePc) : Queue E K I :=
  { s with enqueuer := update s.enqueuer e p }

def Queue.setWorker (s : Queue E K I) (k : K) (p : WorkerPc I) : Queue E K I :=
  { s with worker := update s.worker k p }

/-- What can happen. -/
inductive QueueAct (E K I : Type)
  /-- An enqueuer calls `workqueue_enqueue`. -/
  | enqueue (e : E) (i : I)
  /-- It goes on. -/
  | enqueuer (e : E)
  | worker (k : K)

/-- `workqueue_enqueue`, up to the end of the section under `work_lock`. An item that is active is
not taken. -/
def workqueueEnqueue (s : Queue E K I) (e : E) (i : I) : Queue E K I :=
  if s.active i then s
  else
    { s.setEnqueuer e .count with
      works := s.works ++ [i]
      active := update s.active i true
      pushed := s.pushed ++ [i] }

/-- `signal_worker`. -/
def signalWorker (s : Queue E K I) (e : E) : Queue E K I :=
  match s.waiters with
  | [] => s.setEnqueuer e .idle
  | k :: waiters =>
    { s.setEnqueuer e .idle with
      waiters
      woken := update s.woken k true }

/-- The rest of `workqueue_enqueue`. -/
def enqueuerStep (s : Queue E K I) (e : E) : Option (Queue E K I) :=
  match s.enqueuer e with
  | .idle => none
  | .count => some { s.setEnqueuer e .signal with numTasks := s.numTasks + 1 }
  | .signal => some (signalWorker s e)

/-- `worker_main`, with `workqueue_dequeue_task`, `work_execute` and `condvar_wait`. -/
def workerStep (s : Queue E K I) (k : K) : Option (Queue E K I) :=
  match s.worker k with
  | .dequeue =>
    match s.works with
    | [] => some (s.setWorker k .lock)
    | i :: works => some { s.setWorker k (.decrement i) with works, popped := s.popped ++ [i] }
  | .decrement i => some { s.setWorker k (.execute i) with numTasks := s.numTasks - 1 }
  | .execute i => some { s.setWorker k (.finish i) with executed := s.executed ++ [i] }
  | .finish i =>
    some { s.setWorker k .dequeue with active := update s.active i false }
  | .lock => if s.lock = none then some { s.setWorker k .test with lock := some k } else none
  | .test => some (s.setWorker k (if s.numTasks = 0 then .register else .unlock))
  | .register =>
    some { s.setWorker k .release with
      waiters := s.waiters ++ [k]
      woken := update s.woken k false }
  | .release => some { s.setWorker k .asleep with lock := none }
  | .asleep => if s.woken k then some (s.setWorker k .relock) else none
  | .relock => if s.lock = none then some { s.setWorker k .test with lock := some k } else none
  | .unlock => some { s.setWorker k .dequeue with lock := none }

/-- A call begins, or an enqueuer or a worker goes on. -/
def queueStep (s : Queue E K I) : QueueAct E K I → Option (Queue E K I)
  | .enqueue e i => if s.enqueuer e = .idle then some (workqueueEnqueue s e i) else none
  | .enqueuer e => enqueuerStep s e
  | .worker k => workerStep s k

/-! ### What the queue is for -/

/-- The item a worker has taken and not executed. -/
def WorkerPc.inProgress : WorkerPc I → Multiset I
  | .decrement i | .execute i => {i}
  | _ => 0

/-- Work is stranded: every worker sleeps, and no enqueuer is on its way to wake one. -/
def Stranded (s : Queue E K I) : Prop :=
  s.works ≠ [] ∧ (∀ k, s.worker k = .asleep ∧ s.woken k = false) ∧ ∀ e, s.enqueuer e = .idle

/-- What the queue promises. -/
structure QueueOk (s : Queue E K I) : Prop where
  /-- Items leave the list in the order in which they came. -/
  fifo : s.pushed = s.popped ++ s.works
  /-- Every item that was taken was executed once, or is about to be. -/
  once : (s.popped : Multiset I) = s.executed + total WorkerPc.inProgress s.worker
  not_stranded : ¬ Stranded s

end Charmos.Workqueue
