import Charmos.Time.Wheel

/-!
# Timers

A timer base keeps its armed timers in the buckets of its wheel. `timer_base_run` collects the
buckets whose time has come, takes their timers off one by one, and calls those of the interrupt
kind with the lock of the base dropped; the others are put on the list of the CPU's DPC and called
from there. While a callback runs, timers of the base can be armed, modified and deleted, by the
callback or by anyone else, those among them that have been collected and not been called.

Sections under the lock of the base are single steps, as are those of the DPC. The hardware is left
out, as are the CPUs and the other bases. `armed`, `fired` and `cancelled` count what happened to a
timer, and `bucketExpiration`, `armedClock` and `capped` are of its last arming; no step reads
these.
-/

namespace Charmos.Time

open Function

variable {T : Type} [DecidableEq T]

/-- `struct timer_base`, without the timer that runs. -/
structure TimerBase (T : Type) where
  clock : ℕ
  nextExpiration : Option ℕ
  pending : Bool
  pendingMap : ℕ → Bool
  buckets : ℕ → List T

/-- `timer_enqueue_internal`. -/
def timerEnqueueInternal (b : TimerBase T) (t : T) (idx bucketExpiration : ℕ) : TimerBase T :=
  let b₁ := { b with
    buckets := update b.buckets idx (t :: b.buckets idx)
    pendingMap := update b.pendingMap idx true }
  if !b.pending || b.nextExpiration.all (bucketExpiration < ·) then
    { b₁ with nextExpiration := some bucketExpiration, pending := true }
  else b₁

/-- The clock that `timer_add_internal` counts from. -/
def timerAddClock (b : TimerBase T) (now : ℕ) : ℕ :=
  if !b.pending || b.nextExpiration.all (now < ·) then now else b.clock

/-- `timer_add_internal`. -/
def timerAddInternal (b : TimerBase T) (t : T) (now expiration : ℕ) : TimerBase T :=
  let clock := timerAddClock b now
  let idx := wheelIndexFor expiration clock
  timerEnqueueInternal { b with clock := clock } t idx.1 idx.2

/-- The loop of `timer_collect_expired` for `n` levels from `level` on: the buckets that it takes.
-/
def timerCollectFrom (b : TimerBase T) : ℕ → ℕ → ℕ → TimerBase T × List (List T)
  | 0, _, _ => (b, [])
  | n + 1, level, clock =>
    let idx := level * 64 + clock % 64
    let b₁ := { b with
      pendingMap := update b.pendingMap idx false
      buckets := if b.pendingMap idx then update b.buckets idx [] else b.buckets }
    let head := if b.pendingMap idx then [b.buckets idx] else []
    if clock % 16 ≠ 0 then (b₁, head)
    else
      let rest := timerCollectFrom b₁ n (level + 1) (clock / 16)
      (rest.1, head ++ rest.2)

/-- `timer_collect_expired`, when the next expiration is `clock`. -/
def timerCollectExpired (b : TimerBase T) (clock : ℕ) : TimerBase T × List (List T) :=
  timerCollectFrom { b with clock := clock } timerLevels 0 clock

/-- `timer_recalc_next_expiration`. -/
def timerRecalcNextExpiration (b : TimerBase T) : TimerBase T :=
  let next := timerRecalcNext b.pendingMap b.clock
  { b with nextExpiration := next, pending := next.isSome }

/-- Where `timer_base_run` is, with the time it read. -/
inductive RunPhase (T : Type)
  | idle
  /-- At the condition of the loop. -/
  | looping (time : ℕ)
  /-- In `timer_expire_bucket`, with the timers that are still to be called. -/
  | expiring (time : ℕ) (heads : List (List T))
  /-- A callback runs, and the lock is dropped. -/
  | calling (time : ℕ) (timer : T) (heads : List (List T))

namespace RunPhase

/-- The timers that were collected and are still on a list. -/
def heads : RunPhase T → List (List T)
  | .expiring _ heads => heads
  | .calling _ _ heads => heads
  | _ => []

/-- The lists without a timer. -/
def erase (t : T) : RunPhase T → RunPhase T
  | .expiring time heads => .expiring time (heads.map (·.erase t))
  | .calling time u heads => .calling time u (heads.map (·.erase t))
  | p => p

/-- The lock of the base is free. -/
def unlocked : RunPhase T → Bool
  | .idle => true
  | .calling _ _ _ => true
  | _ => false

end RunPhase

/-- One base with its timers, the DPC of its CPU, and the time. -/
structure TimerSys (T : Type) where
  base : TimerBase T
  expiration : T → ℕ
  /-- `TIMER_FLAG_BUCKET`. -/
  bucket : T → ℕ
  /-- The node of the timer is on a list. -/
  hashed : T → Bool
  /-- `TIMER_FLAG_DPC_QUEUED`. -/
  dpcQueued : T → Bool
  dpcTimers : List T
  phase : RunPhase T
  now : ℕ
  armed : T → ℕ
  fired : T → ℕ
  cancelled : T → ℕ
  bucketExpiration : T → ℕ
  /-- The clock of the base when the timer was armed. -/
  armedClock : T → ℕ
  /-- The timer was armed for a time beyond the wheel. -/
  capped : T → Bool

/-- `timer_list_del`: whichever list has the timer. -/
def timerListDel (s : TimerSys T) (t : T) : TimerSys T :=
  { s with
    base := { s.base with buckets := fun i => (s.base.buckets i).erase t }
    phase := s.phase.erase t
    dpcTimers := s.dpcTimers.erase t
    hashed := update s.hashed t false }

/-- The timer is armed for `expiration`. -/
def timerArm (s : TimerSys T) (t : T) (expiration : ℕ) : TimerSys T :=
  let clock := timerAddClock s.base s.now
  let idx := wheelIndexFor expiration clock
  { s with
    base := timerAddInternal s.base t s.now expiration
    expiration := update s.expiration t expiration
    bucket := update s.bucket t idx.1
    hashed := update s.hashed t true
    armed := update s.armed t (s.armed t + 1)
    bucketExpiration := update s.bucketExpiration t idx.2
    armedClock := update s.armedClock t clock
    capped := update s.capped t (decide (timerWheelTimeoutCutoff ≤ expiration - clock)) }

/-- `timer_detach_if_dpc_queued`, for a timer that is queued. -/
def timerDetachDpc (s : TimerSys T) (t : T) : TimerSys T :=
  { timerListDel s t with dpcQueued := update s.dpcQueued t false }

/-- `timer_dequeue_bucket`. -/
def timerDequeueBucket (s : TimerSys T) (t : T) : TimerSys T :=
  let s₁ := timerListDel s t
  let idx := s.bucket t
  let map := if (s₁.base.buckets idx).isEmpty then update s₁.base.pendingMap idx false
    else s₁.base.pendingMap
  { s₁ with base := timerRecalcNextExpiration { s₁.base with pendingMap := map } }

/-- What `timer_delete` and `timer_modify` do first: the timer is taken off, if it is on a list. -/
def timerDetach (s : TimerSys T) (t : T) : TimerSys T :=
  let s₁ :=
    if s.dpcQueued t then timerDetachDpc s t
    else if s.hashed t then timerDequeueBucket s t
    else s
  if s.hashed t then { s₁ with cancelled := update s.cancelled t (s.cancelled t + 1) }
  else s₁

/-- The next section of `timer_base_run`; `irq` are the timers with `TIMER_FLAG_IRQ`. -/
def timerBaseRun (irq : T → Bool) (s : TimerSys T) : TimerSys T :=
  match s.phase with
  | .idle => s
  | .looping time =>
    match s.base.pending, s.base.nextExpiration with
    | true, some next =>
      if s.base.clock ≤ time ∧ next ≤ time then
        let c := timerCollectExpired s.base next
        { s with base := c.1, phase := .expiring time c.2 }
      else { s with phase := .idle }
    | _, _ => { s with phase := .idle }
  | .expiring time [] =>
    { s with base := timerRecalcNextExpiration s.base, phase := .looping time }
  | .expiring time ([] :: heads) => { s with phase := .expiring time heads }
  | .expiring time ((t :: l) :: heads) =>
    if irq t then
      { s with
        phase := .calling time t (l :: heads)
        hashed := update s.hashed t false
        fired := update s.fired t (s.fired t + 1) }
    else
      { s with
        phase := .expiring time (l :: heads)
        dpcTimers := t :: s.dpcTimers
        dpcQueued := update s.dpcQueued t true }
  | .calling time _ heads => { s with phase := .expiring time heads }

/-- `timer_dpc` takes the next timer and calls it. -/
def timerDpc (s : TimerSys T) : TimerSys T :=
  match s.dpcTimers with
  | [] => s
  | t :: l =>
    { s with
      dpcTimers := l
      hashed := update s.hashed t false
      dpcQueued := update s.dpcQueued t false
      fired := update s.fired t (s.fired t + 1) }

/-- The steps of the system. -/
inductive TimerAct (T : Type)
  | tick (us : ℕ)
  | add (t : T) (expiration : ℕ)
  | modify (t : T) (expiration : ℕ)
  | delete (t : T)
  /-- The interrupt begins a `timer_base_run`. -/
  | isr
  | run
  | dpc

/-- One step, if it can be taken: the base is changed while its lock is free, and `timer_add` is for
a timer that is not armed. -/
def timerStep (irq : T → Bool) (s : TimerSys T) : TimerAct T → Option (TimerSys T)
  | .tick us => some { s with now := s.now + us }
  | .add t expiration =>
    if s.phase.unlocked ∧ s.hashed t = false then some (timerArm s t expiration) else none
  | .modify t expiration =>
    if s.phase.unlocked then some (timerArm (timerDetach s t) t expiration) else none
  | .delete t => if s.phase.unlocked then some (timerDetach s t) else none
  | .isr =>
    match s.phase with
    | .idle => some { s with phase := .looping s.now }
    | _ => none
  | .run =>
    match s.phase with
    | .idle => none
    | _ => some (timerBaseRun irq s)
  | .dpc => if s.dpcTimers = [] then none else some (timerDpc s)

/-- No timer is armed. -/
def timerInit : TimerSys T where
  base :=
    { clock := 0
      nextExpiration := none
      pending := false
      pendingMap := fun _ => false
      buckets := fun _ => [] }
  expiration _ := 0
  bucket _ := 0
  hashed _ := false
  dpcQueued _ := false
  dpcTimers := []
  phase := .idle
  now := 0
  armed _ := 0
  fired _ := 0
  cancelled _ := 0
  bucketExpiration _ := 0
  armedClock _ := 0
  capped _ := false

end Charmos.Time
