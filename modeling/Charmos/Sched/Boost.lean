import Mathlib

/-!
# Boost state of threads that change CPU

Two kinds of boost keep state with a CPU. A thread with pressure on it is in the CLIMB tree of a
CPU, and a thread that is switched out while it holds read locks is registered with the
writer-to-reader boost of a CPU, which counts the readers of each lock. `thread_post_migrate` takes
both along when a thread goes to another CPU. Modelled are the operations on handles, the waits, the
switches, and the paths by which a thread changes CPU: `migrate_to_destination`, stealing, pushing,
`resume_thread` and `thread_migrate`.

A section under the run-queue locks is one step, except that a pass over the tree of a CPU is a step
for each thread, and that a CPU lets its thread go and takes the next one in two steps. `schedule`
reads `migrate_to` before it has a lock, so that is a step of its own. The pressures and what is
computed from them, the order in the queues and the priority classes are left out; what a thread
has recorded about its read locks can become anything while it runs. `panicked` says that an
`enforce` or a `panic` has been reached.
-/

namespace Charmos.Boost

open Function

variable {C T : Type} [DecidableEq C] [DecidableEq T]

/-- What is kept of `struct wroost_thread_data`, for a reader. -/
structure WroostThreadData where
  readNestingDepth : ℕ
  /-- The lock ids of the entries, `none` for one that is not valid. -/
  fineEntries : List (Option ℕ)
  counters : List ℕ

/-- The lock ids that `update_reader` counts: the fine entries up to the nesting depth, and if they
are fewer, all ids of the counters that are set and that no fine entry belongs to. -/
def readerIds (coarseFactor : ℕ) (wtd : WroostThreadData) : List ℕ :=
  let fine := (wtd.fineEntries.filterMap id).take wtd.readNestingDepth
  if fine.length = wtd.readNestingDepth then fine
  else
    let skipMap := fine.map (· / coarseFactor)
    fine ++ ((List.range wtd.counters.length).filter fun i =>
      wtd.counters.getD i 0 ≠ 0 ∧ i ∉ skipMap).flatMap fun i =>
        (List.range coarseFactor).map (i * coarseFactor + ·)

/-- The states of a thread; the ones it waits in are one. -/
inductive ThreadState
  | ready
  | running
  | waiting
deriving DecidableEq, Repr

/-- How far the current thread of a CPU has got in a switch. -/
inductive Phase (C : Type)
  | running
  /-- `wroost_switch_out` has been called for it. -/
  | switchedOut
  /-- `schedule` has read where it is to migrate to. -/
  | going (dst : Option C)
  /-- It is current again, before `wroost_switch_in`. -/
  | switchedIn
deriving DecidableEq, Repr

/-- Where a thread is: on a CPU, in the queues of a CPU, or neither. -/
inductive Place (C : Type)
  | on (cpu : C) (phase : Phase C)
  | queued (cpu : C)
  | off
deriving DecidableEq, Repr

/-- What is kept of `struct thread`. -/
structure BoostThread (C : Type) where
  state : ThreadState
  /-- `THREAD_FLAG_YIELDED`. -/
  yielded : Bool
  scheduler : C
  migrateTo : Option C
  place : Place C
  onClimbTree : Bool
  pressurePeriods : ℤ
  /-- How many handles are applied. -/
  handles : ℕ
  wroost : WroostThreadData
  /-- The CPU on one of whose reader lists the thread is. -/
  mapNode : Option C
  /-- `blocked_ts` is set. -/
  blockedTs : Bool
  inBlockedTsList : Bool
  /-- Pinned by anything but `update_reader`. -/
  pinned : Bool

/-- The threads and the boost state of the CPUs. -/
structure BoostSys (C T : Type) where
  threads : T → BoostThread C
  /-- The current threads, `none` for an idle thread. -/
  current : C → Option T
  climbThreads : C → T → Bool
  /-- The threads on the reader lists of the CPU. -/
  readers : C → List T
  rqBucketCounts : C → ℕ → ℕ
  panicked : Bool

/-- What does not change: the CPUs a thread may run on, and `WROOST_COARSE_FACTOR`. -/
structure BoostConfig (C T : Type) where
  allowedCpus : T → C → Bool
  coarseFactor : ℕ

variable (cfg : BoostConfig C T) (s : BoostSys C T)

/-- The record of one thread is replaced. -/
def setThread (s : BoostSys C T) (t : T) (x : BoostThread C) : BoostSys C T :=
  { s with threads := update s.threads t x }

/-- `scheduler_can_take_thread`. -/
def schedulerCanTakeThread (c : C) (t : T) : Bool :=
  let x := s.threads t
  !(x.pinned || x.inBlockedTsList) && cfg.allowedCpus t c && x.migrateTo.isNone

/-! ### Readers -/

/-- `percpu_inc_id`, for each of the ids. The counts are bytes. -/
def percpuIncIds (counts : ℕ → ℕ) (ids : List ℕ) : ℕ → ℕ :=
  ids.foldl (fun f id => update f id ((f id + 1) % 256)) counts

/-- `percpu_dec_id`, for each of the ids, until one has no count. -/
def percpuDecIds (counts : ℕ → ℕ) (ids : List ℕ) : Option (ℕ → ℕ) :=
  ids.foldlM (fun f id => if f id = 0 then none else some (update f id (f id - 1))) counts

/-- `update_reader` with `add`. -/
def addReader (c : C) (t : T) : BoostSys C T :=
  let x := s.threads t
  { setThread s t
      { x with
        mapNode := some c
        inBlockedTsList := x.blockedTs || x.inBlockedTsList } with
    rqBucketCounts := update s.rqBucketCounts c
      (percpuIncIds (s.rqBucketCounts c) (readerIds cfg.coarseFactor x.wroost))
    readers := update s.readers c (t :: s.readers c) }

/-- `update_reader` without `add`. The thread leaves the list that it is on, whichever CPU has it;
there is no list to take it from if it is on none. -/
def removeReader (c : C) (t : T) : BoostSys C T :=
  let x := s.threads t
  match percpuDecIds (s.rqBucketCounts c) (readerIds cfg.coarseFactor x.wroost), x.mapNode with
  | some counts, some c' =>
    { setThread s t { x with mapNode := none, inBlockedTsList := false } with
      rqBucketCounts := update s.rqBucketCounts c counts
      readers := update s.readers c' ((s.readers c').erase t) }
  | _, _ => { s with panicked := true }

/-! ### Hooks -/

/-- The thread is put into the tree of a CPU, or taken out of it. -/
def setClimb (s : BoostSys C T) (c : C) (t : T) (b : Bool) : BoostSys C T :=
  { s with
    climbThreads := update s.climbThreads c (update (s.climbThreads c) t b) }

/-- `climb_post_migrate_hook`. -/
def climbPostMigrateHook (t : T) (old new : C) : BoostSys C T :=
  let x := s.threads t
  if s.climbThreads old t = false then
    if x.onClimbTree || x.pressurePeriods ≠ 0 then { s with panicked := true } else s
  else setClimb (setClimb s old t false) new t true

/-- `wroost_post_migrate_hook`. -/
def wroostPostMigrateHook (t : T) (src dst : C) : BoostSys C T :=
  let x := s.threads t
  if x.wroost.readNestingDepth = 0 then s
  else if x.blockedTs then { s with panicked := true }
  else
    let s₁ := removeReader cfg s src t
    if s₁.panicked then s₁ else addReader cfg s₁ dst t

/-- `thread_post_migrate`. -/
def threadPostMigrate (t : T) (old new : C) : BoostSys C T :=
  let s₁ := climbPostMigrateHook s t old new
  if s₁.panicked then s₁ else wroostPostMigrateHook cfg s₁ t old new

/-! ### Handles -/

/-- `apply_handle`. -/
def applyHandle (t : T) : BoostSys C T :=
  let x := s.threads t
  if x.pressurePeriods = 0 then
    if x.onClimbTree then { s with panicked := true }
    else
      setClimb
        (setThread s t
          { x with handles := x.handles + 1, pressurePeriods := 1, onClimbTree := true })
        x.scheduler t true
  else if x.pressurePeriods < 0 then
    setThread s t { x with handles := x.handles + 1, pressurePeriods := 1 }
  else setThread s t { x with handles := x.handles + 1 }

/-- `remove_handle`, for a handle that is applied. -/
def removeHandle (t : T) : BoostSys C T :=
  let x := s.threads t
  if x.handles = 1 ∧ x.onClimbTree then
    setThread s t { x with handles := 0, pressurePeriods := -1 }
  else setThread s t { x with handles := x.handles - 1 }

/-- The thread leaves the tree of a CPU for good. -/
def dropClimb (c : C) (t : T) : BoostSys C T :=
  setClimb (setThread s t { s.threads t with pressurePeriods := 0, onClimbTree := false }) c t false

/-- `climb_thread_remove`. -/
def climbThreadRemove (t : T) : BoostSys C T :=
  let c := (s.threads t).scheduler
  if s.climbThreads c t then dropClimb s c t else s

/-- `CLIMB_MAX_DECAY_PERIODS`. -/
def climbMaxDecayPeriods : ℤ := 20

/-- `summarize_and_advance` for one thread of the tree, with `maybe_remove_node`: whether it has no
boost left, and whether the batch of dropped threads is full. -/
def summarizeAndAdvance (c : C) (t : T) (noBoost full : Bool) : BoostSys C T :=
  let x := s.threads t
  if 0 < x.pressurePeriods then setThread s t { x with pressurePeriods := x.pressurePeriods + 1 }
  else if x.pressurePeriods < -climbMaxDecayPeriods ∨ noBoost then
    if full then s else dropClimb s c t
  else setThread s t { x with pressurePeriods := x.pressurePeriods - 1 }

/-! ### Switches and moves -/

/-- `wroost_switch_out`, for a reader. -/
def wroostSwitchOut (c : C) (t : T) : BoostSys C T :=
  let s₁ := setThread s t { s.threads t with place := .on c .switchedOut }
  if (s.threads t).wroost.readNestingDepth = 0 then s₁ else addReader cfg s₁ c t

/-- `wroost_switch_in`. -/
def wroostSwitchIn (c : C) (t : T) : BoostSys C T :=
  let s₁ := setThread s t { s.threads t with place := .on c .running }
  if (s.threads t).wroost.readNestingDepth = 0 then s₁ else removeReader cfg s₁ c t

/-- `migrate_to_destination` up to the locks: the target is taken, and it counts if it is another
CPU. -/
def takeMigrationTarget (c : C) (t : T) : BoostSys C T :=
  let x := s.threads t
  let dst := if x.migrateTo = some c then none else x.migrateTo
  setThread s t { x with migrateTo := none, place := .on c (.going dst) }

/-- `save_thread` on a CPU. A thread that does not run is not put into a queue, and one that is done
for the period is put there without `thread_set_runqueue`. -/
def saveThread (x : BoostThread C) (c : C) (retire : Bool) : BoostThread C :=
  if x.state = .running then
    { x with
      state := .ready
      place := .queued c
      scheduler := if retire then x.scheduler else c }
  else { x with place := .off }

/-- The rest of `migrate_to_destination`, or else `save_thread`, and `context_switch`. -/
def leaveCpu (c : C) (t : T) (dst : Option C) (retire : Bool) : BoostSys C T :=
  let x := s.threads t
  let s₁ : BoostSys C T := { s with current := update s.current c none }
  match dst with
  | none => setThread s₁ t { saveThread x c retire with yielded := true }
  | some d =>
    threadPostMigrate cfg
      (setThread s₁ t { saveThread x d retire with yielded := true, scheduler := d }) t c d

/-- `load_thread`. -/
def loadThread (c : C) (t : T) : BoostSys C T :=
  { setThread s t
      { s.threads t with state := .running, scheduler := c, place := .on c .switchedIn } with
    current := update s.current c (some t) }

/-- `scheduler_steal_work` of a thread in the queues of another CPU, which is then loaded. -/
def schedulerStealWork (new victim : C) (t : T) : BoostSys C T :=
  let s₁ := threadPostMigrate cfg (setThread s t { s.threads t with scheduler := new }) t victim new
  if s₁.panicked then s₁ else loadThread s₁ new t

/-- `move_ts_thread_raw`, and the same in `migrate_from_prio_class`. -/
def pushThread (dest source : C) (t : T) : BoostSys C T :=
  threadPostMigrate cfg
    (setThread s t { s.threads t with place := .queued dest, scheduler := dest }) t source dest

/-- `resume_thread`, where the thread is put into the queues of the best CPU. -/
def resumeQueued (t : T) (best : C) : BoostSys C T :=
  let x := s.threads t
  let s₁ := setThread s t { x with state := .ready, place := .queued best, scheduler := best }
  if x.scheduler = best then s₁ else threadPostMigrate cfg s₁ t x.scheduler best

/-- `thread_migrate`. A thread that is ready and has yielded goes to the other queues. -/
def threadMigrate (t : T) (dst : C) : BoostSys C T :=
  let x := s.threads t
  if x.scheduler = dst ∨ schedulerCanTakeThread cfg s dst t = false then s
  else if x.state = .running ∨ x.yielded = false then
    setThread s t { x with migrateTo := some dst, scheduler := dst }
  else if x.state = .ready then setThread s t { x with place := .queued dst, scheduler := dst }
  else setThread s t { x with scheduler := dst }

/-! ### Steps -/

/-- The steps. -/
inductive BoostAct (C T : Type)
  | apply (t : T)
  | remove (t : T)
  | climbRemove (t : T)
  | period (c : C) (t : T) (noBoost full : Bool)
  /-- A running thread takes or releases read locks. -/
  | read (t : T) (wtd : WroostThreadData)
  /-- A running thread sets `blocked_ts`. -/
  | blockOn (t : T)
  /-- `turnstile_dequeue`. -/
  | dequeue (t : T)
  | pin (t : T) (pinned : Bool)
  /-- `prepare_wait`. -/
  | prepare (t : T)
  /-- `thread_wait_complete`, where the thread is going to wait. -/
  | wait (t : T)
  | switchOut (c : C)
  | target (c : C)
  | leave (c : C) (retire : Bool)
  | pick (c : C) (t : T)
  | steal (c : C) (t : T)
  | switchIn (c : C)
  | push (t : T) (dest : C)
  /-- A waiting thread, or one that is ready with a wait prepared. A thread that waits on a
  turnstile has been dequeued before. The CPU has been chosen before the locks were taken. -/
  | resume (t : T) (best : C)
  | migrate (t : T) (dst : C)

/-- One step, if it can be taken. -/
def boostStep (s : BoostSys C T) (a : BoostAct C T) : Option (BoostSys C T) :=
  if s.panicked then none
  else
    match a with
    | .apply t => some (applyHandle s t)
    | .remove t => if 0 < (s.threads t).handles then some (removeHandle s t) else none
    | .climbRemove t => some (climbThreadRemove s t)
    | .period c t noBoost full =>
      if s.climbThreads c t then some (summarizeAndAdvance s c t noBoost full) else none
    | .read t wtd =>
      match (s.threads t).place with
      | .on _ .running => some (setThread s t { s.threads t with wroost := wtd })
      | _ => none
    | .blockOn t =>
      match (s.threads t).place with
      | .on _ .running => some (setThread s t { s.threads t with blockedTs := true })
      | _ => none
    | .dequeue t => some (setThread s t { s.threads t with blockedTs := false })
    | .pin t p => some (setThread s t { s.threads t with pinned := p })
    | .prepare t =>
      match (s.threads t).place with
      | .on _ .running => some (setThread s t { s.threads t with yielded := false })
      | _ => none
    | .wait t =>
      match (s.threads t).place with
      | .on _ .running =>
        some (setThread s t { s.threads t with yielded := false, state := .waiting })
      | _ => none
    | .switchOut c =>
      match s.current c with
      | some t =>
        if (s.threads t).place = .on c .running then some (wroostSwitchOut cfg s c t) else none
      | none => none
    | .target c =>
      match s.current c with
      | some t =>
        if (s.threads t).place = .on c .switchedOut then some (takeMigrationTarget s c t) else none
      | none => none
    | .leave c retire =>
      match s.current c with
      | some t =>
        match (s.threads t).place with
        | .on c' (.going dst) => if c' = c then some (leaveCpu cfg s c t dst retire) else none
        | _ => none
      | none => none
    | .pick c t =>
      if s.current c = none ∧ (s.threads t).place = .queued c then some (loadThread s c t) else none
    | .steal c t =>
      match (s.threads t).place with
      | .queued v =>
        if s.current c = none ∧ v ≠ c ∧ schedulerCanTakeThread cfg s c t then
          some (schedulerStealWork cfg s c v t)
        else none
      | _ => none
    | .switchIn c =>
      match s.current c with
      | some t =>
        if (s.threads t).place = .on c .switchedIn then some (wroostSwitchIn cfg s c t) else none
      | none => none
    | .push t dest =>
      match (s.threads t).place with
      | .queued v =>
        if v ≠ dest ∧ schedulerCanTakeThread cfg s dest t then some (pushThread cfg s dest v t)
        else none
      | _ => none
    | .resume t best =>
      if (s.threads t).blockedTs then none
      else
        match (s.threads t).place with
        | .on _ _ =>
          if (s.threads t).state = .waiting then
            some (setThread s t { s.threads t with state := .running })
          else none
        | .queued _ => if (s.threads t).yielded then some (resumeQueued cfg s t best) else none
        | .off => some (resumeQueued cfg s t best)
    | .migrate t dst => some (threadMigrate cfg s t dst)

/-- Every thread has just been put into the queues of a CPU, and has no boost. -/
def boostInit (scheduler : T → C) : BoostSys C T where
  threads t :=
    { state := .ready
      yielded := false
      scheduler := scheduler t
      migrateTo := none
      place := .queued (scheduler t)
      onClimbTree := false
      pressurePeriods := 0
      handles := 0
      wroost := ⟨0, [], []⟩
      mapNode := none
      blockedTs := false
      inBlockedTsList := false
      pinned := false }
  current _ := none
  climbThreads _ _ := false
  readers _ := []
  rqBucketCounts _ _ := 0
  panicked := false

end Charmos.Boost
