import Charmos.Lib.AgentSum
import Charmos.Sync.Turnstile

/-!
# Donated priority classes

A thread runs at the class it is perceived at, which is its base class or a higher class that
someone contributes: a turnstile that donates the class of a waiter, the thread itself, or a writer
that waits for a lock the thread has read-locked. `class_floors` counts the contributions to every
class, and `perceived_prio_class` is recomputed from the counts after each change.

A writer that was switched out while it waits for a lock is counted in `raw_tally` of the bucket of
the lock, a word with a field of 16 bits for every class, at the class it is perceived at. A change
of its class moves it from one field to another.

Each operation runs under the `pi_lock` of the thread, so it is one step here. A failed `enforce` is
a result of the step; those compiled in with `DEBUG_WROOST` are there if `debug` is set. Taking a
ready thread off its run queue around a change, the pressure that `thread_inherit_priority` applies
when the class does not rise, and the kicks to other CPUs are left out.
-/

namespace Charmos

open Function

namespace Sync.PrioClass

/-- The number of a class in `enum thread_prio_class`. -/
def index : PrioClass → ℕ
  | background => 0
  | timeshare => 1
  | realtime => 2
  | urgent => 3

theorem index_injective : Injective index := by
  intro a b h
  cases a <;> cases b <;> first | rfl | cases h

instance : LinearOrder PrioClass := LinearOrder.lift' index index_injective

instance : Fintype PrioClass where
  elems := {background, timeshare, realtime, urgent}
  complete c := by cases c <;> decide

end Sync.PrioClass

namespace Donation

open AgentSum Sync

/-! ### The state -/

/-- `enum wroost_writer_state`. -/
inductive WriterState
  | none
  | want
  | wait
  | bump
  deriving DecidableEq

/-- `struct thread_class_donation`. -/
structure ClassDonation (T : Type) where
  target : Option T
  cls : PrioClass
  active : Bool
  deriving DecidableEq

/-- What is kept of `struct thread`. The bytes of `class_floors` are numbers, which the checks keep
below 256. -/
structure Thread where
  basePrioClass : PrioClass
  perceivedPrioClass : PrioClass
  classFloors : PrioClass → ℕ
  /-- From `wroost_data`. -/
  contributedFloor : Bool
  floor : PrioClass
  writerState : WriterState
  wantLockId : ℕ
  /-- History: the self boosts to each class that are outstanding. -/
  selfBoosts : PrioClass → ℕ

/-- Threads `T`, donations `D` and the buckets, which lock ids index. -/
structure Sys (T D : Type) where
  threads : T → Thread
  donations : D → ClassDonation T
  rawTally : ℕ → BitVec 64

/-- The checks that can fail. -/
inductive Fault
  | overflow
  | underflow
  /-- "donation applied to a different thread" -/
  | differentThread
  /-- An active donation without a target. -/
  | nullTarget
  /-- "likely stale priority floor" -/
  | staleFloor
  /-- A writer state that the hook does not expect. -/
  | writerState
  deriving DecidableEq

variable {T D : Type} [DecidableEq T] [DecidableEq D]

/-- One thread changes. -/
def Sys.setThread (s : Sys T D) (t : T) (th : Thread) : Sys T D :=
  { s with threads := update s.threads t th }

omit [DecidableEq D] in
@[simp] theorem Sys.setThread_self (s : Sys T D) (t : T) (th : Thread) :
    (s.setThread t th).threads t = th :=
  update_self ..

/-- A donation changes. -/
def Sys.setDonation (s : Sys T D) (d : D) (dn : ClassDonation T) : Sys T D :=
  { s with donations := update s.donations d dn }

/-! ### The tally of a bucket -/

/-- The lowest bit of the field of a class. -/
def classBit (c : PrioClass) : BitVec 64 := 1#64 <<< (16 * c.index)

/-- `wroost_read_tally`. -/
def wroostReadTally (raw : BitVec 64) (c : PrioClass) : ℕ :=
  ((raw >>> (16 * c.index)) &&& 0xffff#64).toNat

/-- The word of a bucket changes by `delta`. -/
def Sys.addTally (s : Sys T D) (id : ℕ) (delta : BitVec 64) : Sys T D :=
  { s with rawTally := update s.rawTally id (s.rawTally id + delta) }

/-- `wroost_move_tally`. -/
def wroostMoveTally (debug : Bool) (s : Sys T D) (id : ℕ) (old new : PrioClass) :
    Except Fault (Sys T D) :=
  if debug ∧ ∃ c, wroostReadTally (s.rawTally id) c = 65535 then .error .overflow
  else .ok (s.addTally id (classBit new - classBit old))

/-- `wroost_post_prio_change_locked`. -/
def wroostPostPrioChangeLocked (debug : Bool) (s : Sys T D) (t : T) (old new : PrioClass) :
    Except Fault (Sys T D) :=
  if (s.threads t).writerState = .bump ∧ old ≠ new then
    wroostMoveTally debug s (s.threads t).wantLockId old new
  else .ok s

/-! ### Floors -/

/-- `thread_recompute_prio_class_dry_locked`: the loop goes down to the base class. -/
def threadRecomputePrioClassDryLocked (base : PrioClass) (floors : PrioClass → ℕ) : PrioClass :=
  let classes := [PrioClass.urgent, .realtime, .timeshare, .background]
  ((classes.takeWhile (base < ·)).find? (floors · ≠ 0)).getD base

/-- `thread_recompute_prio_class_raw_locked`. -/
def threadRecomputePrioClassRawLocked (th : Thread) : Thread :=
  { th with
    perceivedPrioClass := threadRecomputePrioClassDryLocked th.basePrioClass th.classFloors }

/-- `thread_recompute_prio_class_locked`. -/
def threadRecomputePrioClassLocked (debug : Bool) (s : Sys T D) (t : T) : Except Fault (Sys T D) :=
  let th := threadRecomputePrioClassRawLocked (s.threads t)
  wroostPostPrioChangeLocked debug (s.setThread t th) t (s.threads t).perceivedPrioClass
    th.perceivedPrioClass

/-- `thread_class_floor_inc_locked`. -/
def threadClassFloorIncLocked (th : Thread) (c : PrioClass) : Except Fault Thread :=
  if th.classFloors c = 255 then .error .overflow
  else .ok { th with classFloors := update th.classFloors c (th.classFloors c + 1) }

/-- `thread_class_floor_dec_locked`. -/
def threadClassFloorDecLocked (th : Thread) (c : PrioClass) : Except Fault Thread :=
  if th.classFloors c = 0 then .error .underflow
  else .ok { th with classFloors := update th.classFloors c (th.classFloors c - 1) }

/-! ### Donations -/

/-- `thread_donation_raise_locked`. -/
def threadDonationRaiseLocked (debug : Bool) (s : Sys T D) (t : T) (d : D) (c : PrioClass) :
    Except Fault (Sys T D) :=
  let raise (th : Thread) : Except Fault (Sys T D) := do
    let th ← threadClassFloorIncLocked th c
    threadRecomputePrioClassLocked debug
      ((s.setThread t th).setDonation d { target := some t, cls := c, active := true }) t
  if (s.donations d).active then
    if (s.donations d).target ≠ some t then .error .differentThread
    else if c ≤ (s.donations d).cls then .ok s
    else do
      let th ← threadClassFloorDecLocked (s.threads t) (s.donations d).cls
      raise th
  else raise (s.threads t)

/-- `thread_donation_drop_locked`. -/
def threadDonationDropLocked (debug : Bool) (s : Sys T D) (d : D) : Except Fault (Sys T D) :=
  match (s.donations d).target with
  | none => .error .nullTarget
  | some t => do
    let th ← threadClassFloorDecLocked (s.threads t) (s.donations d).cls
    let s ← threadRecomputePrioClassLocked debug (s.setThread t th) t
    .ok (s.setDonation d { target := none, cls := .background, active := false })

/-- `thread_inherit_priority`. -/
def threadInheritPriority (debug : Bool) (s : Sys T D) (boosted fromThread : T) (d : D) :
    Except Fault (Sys T D) :=
  threadDonationRaiseLocked debug s boosted d (s.threads fromThread).perceivedPrioClass

/-- `thread_donate_class`. -/
def threadDonateClass (debug : Bool) (s : Sys T D) (boosted : T) (c : PrioClass) (d : D) :
    Except Fault (Sys T D) :=
  threadDonationRaiseLocked debug s boosted d c

/-- `thread_uninherit_priority`. -/
def threadUninheritPriority (debug : Bool) (s : Sys T D) (d : D) : Except Fault (Sys T D) :=
  if (s.donations d).active then threadDonationDropLocked debug s d else .ok s

/-- `thread_boost_self`. -/
def threadBoostSelf (debug : Bool) (s : Sys T D) (curr : T) (c : PrioClass) :
    Except Fault (Sys T D) := do
  let th ← threadClassFloorIncLocked (s.threads curr) c
  let th := { th with selfBoosts := update th.selfBoosts c (th.selfBoosts c + 1) }
  threadRecomputePrioClassLocked debug (s.setThread curr th) curr

/-- `thread_unboost_self`. -/
def threadUnboostSelf (debug : Bool) (s : Sys T D) (curr : T) (c : PrioClass) :
    Except Fault (Sys T D) := do
  let th ← threadClassFloorDecLocked (s.threads curr) c
  let th := { th with selfBoosts := update th.selfBoosts c (th.selfBoosts c - 1) }
  threadRecomputePrioClassLocked debug (s.setThread curr th) curr

/-! ### Boosts of readers -/

/-- What `boost_thread_to` and `boost_thread_in_dpc` do to the floors. -/
def contributeFloor (th : Thread) (prio : PrioClass) : Except Fault Thread :=
  if ¬ th.contributedFloor then
    threadClassFloorIncLocked { th with floor := prio, contributedFloor := true } prio
  else if th.floor < prio then do
    let th ← threadClassFloorIncLocked th prio
    let th ← threadClassFloorDecLocked th th.floor
    .ok { th with floor := prio }
  else .ok th

/-- `boost_thread_to`. -/
def boostThreadTo (debug : Bool) (s : Sys T D) (t : T) (prio : PrioClass) :
    Except Fault (Sys T D) := do
  let th ← contributeFloor (s.threads t) prio
  threadRecomputePrioClassLocked debug (s.setThread t th) t

/-- `boost_thread_in_dpc`. It writes the class after the tally has moved. -/
def boostThreadInDpc (debug : Bool) (s : Sys T D) (t : T) (prio : PrioClass) :
    Except Fault (Sys T D) :=
  if debug ∧ (threadRecomputePrioClassRawLocked (s.threads t)).perceivedPrioClass ≠
      (s.threads t).perceivedPrioClass then .error .staleFloor
  else do
    let th ← contributeFloor (s.threads t) prio
    let old := th.perceivedPrioClass
    let new := threadRecomputePrioClassDryLocked th.basePrioClass th.classFloors
    let s ← wroostPostPrioChangeLocked debug (s.setThread t th) t old new
    .ok (if old ≠ new then s.setThread t { th with perceivedPrioClass := new } else s)

/-- `unboost_thread`. -/
def unboostThread (debug : Bool) (s : Sys T D) (t : T) : Except Fault (Sys T D) := do
  let th ←
    if (s.threads t).contributedFloor then
      threadClassFloorDecLocked (s.threads t) (s.threads t).floor
    else .ok (s.threads t)
  threadRecomputePrioClassLocked debug
    (s.setThread t { th with floor := .background, contributedFloor := false }) t

/-! ### Writers -/

/-- `wroost_pre_acquire` of a writer, for a lock with this id. -/
def wroostPreAcquire (s : Sys T D) (curr : T) (id : ℕ) : Except Fault (Sys T D) :=
  if (s.threads curr).writerState ≠ .none then .error .writerState
  else .ok (s.setThread curr { s.threads curr with wantLockId := id, writerState := .want })

/-- `wroost_pre_wait`. -/
def wroostPreWait (s : Sys T D) (curr : T) : Except Fault (Sys T D) :=
  match (s.threads curr).writerState with
  | .none => .ok s
  | .want => .ok (s.setThread curr { s.threads curr with writerState := .wait })
  | _ => .error .writerState

/-- `wroost_post_wait`. -/
def wroostPostWait (s : Sys T D) (curr : T) : Except Fault (Sys T D) :=
  match (s.threads curr).writerState with
  | .want => .error .writerState
  | .wait => .ok (s.setThread curr { s.threads curr with writerState := .want })
  | _ => .ok s

/-- `switch_out_writer`, which `wroost_switch_out` calls for a writer that waits. -/
def wroostSwitchOut (s : Sys T D) (t : T) : Except Fault (Sys T D) :=
  if (s.threads t).writerState = .wait then
    .ok ((s.addTally (s.threads t).wantLockId (classBit (s.threads t).perceivedPrioClass)).setThread
      t { s.threads t with writerState := .bump })
  else .ok s

/-- `wroost_post_acquire` of a writer. -/
def wroostPostAcquire (s : Sys T D) (curr : T) : Except Fault (Sys T D) :=
  let th := { s.threads curr with writerState := .none, wantLockId := 0 }
  match (s.threads curr).writerState with
  | .none | .wait => .error .writerState
  | .bump =>
    .ok ((s.addTally (s.threads curr).wantLockId
      (-classBit (s.threads curr).perceivedPrioClass)).setThread curr th)
  | .want => .ok (s.setThread curr th)

/-! ### Steps -/

/-- What can happen. -/
inductive Act (T D : Type)
  | inheritPriority (boosted fromThread : T) (d : D)
  | donateClass (boosted : T) (c : PrioClass) (d : D)
  | uninheritPriority (d : D)
  | boostSelf (t : T) (c : PrioClass)
  | unboostSelf (t : T) (c : PrioClass)
  | boostThreadTo (t : T) (prio : PrioClass)
  | boostThreadInDpc (t : T) (prio : PrioClass)
  | unboostThread (t : T)
  | preAcquire (t : T) (id : ℕ)
  | preWait (t : T)
  | postWait (t : T)
  | switchOut (t : T)
  | postAcquire (t : T)

/-- The operations. -/
def step (debug : Bool) (s : Sys T D) : Act T D → Except Fault (Sys T D)
  | .inheritPriority boosted fromThread d => threadInheritPriority debug s boosted fromThread d
  | .donateClass boosted c d => threadDonateClass debug s boosted c d
  | .uninheritPriority d => threadUninheritPriority debug s d
  | .boostSelf t c => threadBoostSelf debug s t c
  | .unboostSelf t c => threadUnboostSelf debug s t c
  | .boostThreadTo t prio => boostThreadTo debug s t prio
  | .boostThreadInDpc t prio => boostThreadInDpc debug s t prio
  | .unboostThread t => unboostThread debug s t
  | .preAcquire t id => wroostPreAcquire s t id
  | .preWait t => wroostPreWait s t
  | .postWait t => wroostPostWait s t
  | .switchOut t => wroostSwitchOut s t
  | .postAcquire t => wroostPostAcquire s t

/-- A thread as `thread_init` leaves it. -/
def threadInit (base : PrioClass) : Thread where
  basePrioClass := base
  perceivedPrioClass := base
  classFloors := fun _ => 0
  contributedFloor := false
  floor := .background
  writerState := .none
  wantLockId := 0
  selfBoosts := fun _ => 0

/-- Threads with these base classes, and nothing contributed. -/
def sysInit (base : T → PrioClass) : Sys T D where
  threads := fun t => threadInit (base t)
  donations := fun _ => { target := none, cls := .background, active := false }
  rawTally := fun _ => 0

end Donation

end Charmos
