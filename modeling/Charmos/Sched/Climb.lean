import Charmos.Math.Fixed

/-!
# The CLIMB framework

A thread comes under pressure from the handles that it applies to itself (direct pressure) and from
those of threads that wait for it (indirect pressure). A thread under pressure is in a tree of its
CPU, sorted by pressure and by the periods spent under it. Once in a period the threads of the tree
are given boosts, from the largest key on, until the budget of the period is used up.

The tree of a CPU is the list of its threads in order. Where a new thread goes depends on the keys
that the walk down the tree meets; the neighbours of the new leaf are always among them, so the
place is given by the action and is compared with the neighbours. The threads are alive, so that a
reference can always be taken; the log, the locks and the count of elapsed periods, which nothing
reads, are left out.
-/

namespace Charmos.Climb

open Function Math

/-- `enum climb_pressure_kind`. -/
inductive PressureKind
  | direct
  | indirect
  deriving DecidableEq

/-- `FX(0.05)`, `FX(0.20)` and `FX(0.10)`. -/
def climbPressureThreadBase : Fx := 214748365#64
def climbPressureIoBase : Fx := 858993459#64
def climbPressureLockBase : Fx := 429496730#64

def climbPressureMax : Fx := fxOne
def climbDirectPressureMax : Fx := fxOne
def climbIndirectPressureMax : Fx := fxOne

/-- `FX(0.10)` and `FX(0.85)`. -/
def climbIndirectMinScale : Fx := 429496730#64
def climbIndirectWeight : Fx := 3650722202#64

/-- `FX(0.75)` and `FX(8.0)`. -/
def climbBoostEwmaAlpha : Fx := 3221225472#64
def climbPressureToBoostScale : Fx := 34359738368#64

def climbPressureExponent : ℕ := 3
def climbBoostLevelMax : ℕ := 20
def climbBoostLevels : ℕ := 20
def climbMinGlobalBoost : ℤ := 1
def climbMaxDecayPeriods : ℤ := 20
def climbDropBatch : ℕ := 64

/-- `struct climb_handle`; `linked` is `list_node_is_linked` of its node. -/
structure Handle (T : Type) where
  pressure : Fx
  appliedPressureInternal : Fx
  kind : PressureKind
  linked : Bool
  givenTo : Option T

/-- `struct climb_thread_data`, with `pressure_periods` as an `int32_t`. -/
structure ThreadData (H : Type) where
  directPressure : Fx
  indirectPressure : Fx
  pressureEwma : Fx
  wantedBoost : ℤ
  boostEwma : Fx
  effectiveBoost : ℤ
  pressurePeriods : ℤ
  handles : List H
  onClimbTree : Bool
  isInt32 : -2 ^ 31 ≤ pressurePeriods ∧ pressurePeriods < 2 ^ 31

theorem bmod_isInt32 (p : ℤ) : -2 ^ 31 ≤ p.bmod (2 ^ 32) ∧ p.bmod (2 ^ 32) < 2 ^ 31 := by
  have hlow := Int.le_bmod (x := p) (m := 2 ^ 32) (by decide)
  have hhigh := Int.bmod_lt (x := p) (m := 2 ^ 32) (by decide)
  constructor <;> omega

/-- A store to `pressure_periods`, which wraps. -/
def ThreadData.setPeriods {H : Type} (d : ThreadData H) (p : ℤ) : ThreadData H :=
  { d with pressurePeriods := p.bmod (2 ^ 32), isInt32 := bmod_isInt32 p }

@[simp] theorem ThreadData.setPeriods_onClimbTree {H : Type} (d : ThreadData H) (p : ℤ) :
    (d.setPeriods p).onClimbTree = d.onClimbTree := rfl

@[simp] theorem ThreadData.setPeriods_zero {H : Type} (d : ThreadData H) :
    (d.setPeriods 0).pressurePeriods = 0 := rfl

@[simp] theorem ThreadData.setPeriods_one {H : Type} (d : ThreadData H) :
    (d.setPeriods 1).pressurePeriods = 1 := rfl

/-- A store is exact where the value is an `int32_t`. -/
theorem ThreadData.setPeriods_eq {H : Type} (d : ThreadData H) {p : ℤ}
    (hp : -2 ^ 31 ≤ p ∧ p < 2 ^ 31) : (d.setPeriods p).pressurePeriods = p :=
  Int.bmod_eq_of_le (by omega) (by omega)

/-- A store beyond the range of an `int32_t`, but by one only, does not give `0`. -/
theorem ThreadData.setPeriods_ne_zero {H : Type} (d : ThreadData H) {p : ℤ}
    (hp : -2 ^ 31 ≤ p ∧ p ≤ 2 ^ 31) (hne : p ≠ 0) : (d.setPeriods p).pressurePeriods ≠ 0 := by
  intro hzero
  have hdvd : ((2 ^ 32 : ℕ) : ℤ) ∣ p := Int.dvd_of_bmod_eq_zero hzero
  omega

/-- The checks that can fail. -/
inductive Fault
  /-- In `apply_handle`: the handle is linked, it is of the other kind, it adds no pressure, or the
  thread is on the tree although it has no periods. -/
  | linked
  | kind
  | noPressure
  | onTree
  /-- In `climb_handle_remove`: the handle is linked without pressure, or it was given to nobody. -/
  | noopLinked
  | givenToNobody
  /-- In `climb_post_migrate_hook`. -/
  | migrateOnTree
  | migratePeriods
  /-- In `climb_budget_from_summary`. -/
  | noThreads
  deriving DecidableEq

/-- The threads, the handles and the tree of each CPU. -/
structure Sys (T H C : Type) where
  data : T → ThreadData H
  handle : H → Handle T
  cpu : T → C
  tree : C → List T
  /-- History: the budget of the last period of a CPU. -/
  budget : C → ℤ

/-! ### Pressure and boost of a thread -/

section

variable {T H C : Type}

/-- `CLIMB_EWMA`. -/
def climbEwma (val target : Fx) : Fx :=
  fxAdd (fxMul climbBoostEwmaAlpha val) (fxMul (fxSub fxOne climbBoostEwmaAlpha) target)

def climbPressureToBoostTarget (p : Fx) : ℤ :=
  let p := fxMul p climbPressureToBoostScale
  let shaped := fxPowI32 p climbPressureExponent
  let level := fxToInt (fxMul shaped (fxFromInt (BitVec.ofNat 64 climbBoostLevelMax)))
  max 0 (min level climbBoostLevelMax)

def climbThreadTotalPressure (d : ThreadData H) : Fx :=
  fxClamp (fxAdd d.directPressure (fxMul d.indirectPressure climbIndirectWeight)) 0#64
    climbPressureMax

def updateFields (d : ThreadData H) : ThreadData H :=
  let p := climbThreadTotalPressure d
  let target := climbPressureToBoostTarget p
  let boostEwma := climbEwma d.boostEwma (fxFromInt (BitVec.ofInt 64 target))
  { d with
    boostEwma := boostEwma
    wantedBoost := fxToInt boostEwma
    pressureEwma := climbEwma d.pressureEwma p }

def climbThreadComputePressureToApply (d : ThreadData H) : Fx :=
  fxAdd climbPressureThreadBase (climbThreadTotalPressure d)

def climbAccumulate (p delta max : Fx) : Fx :=
  fxAdd p (fxMul delta (fxSub max p))

def climbPressureScaleIndirect (direct : Fx) : Fx :=
  fxMax (fxSub fxOne direct) climbIndirectMinScale

/-- `apply_handle_pressures`; `self` is whether the thread applies the handle to itself. -/
def applyHandlePressures (d : ThreadData H) (ch : Handle T) (self : Bool) :
    Except Fault (ThreadData H × Handle T) :=
  if self then
    if ch.kind ≠ .direct then .error .kind
    else
      let old := d.directPressure
      let newp := climbAccumulate old ch.pressure climbDirectPressureMax
      if newp - old = 0#64 then .error .noPressure
      else .ok ({ d with directPressure := newp },
        { ch with appliedPressureInternal := fxSub newp old })
  else if ch.kind ≠ .indirect then .error .kind
  else
    let scale := climbPressureScaleIndirect d.directPressure
    let scaledDelta := fxMul ch.pressure scale
    let old := d.indirectPressure
    let newp := climbAccumulate old scaledDelta climbIndirectPressureMax
    if newp - old = 0#64 then .error .noPressure
    else .ok ({ d with indirectPressure := newp },
      { ch with appliedPressureInternal := fxSub newp old })

def climbKey (d : ThreadData H) : ℤ :=
  d.pressurePeriods * 2 ^ 31 + (climbThreadTotalPressure d).toInt

/-! ### The tree -/

/-- The last one before the place and the first one after it, as far as they exist, let a walk down
the tree end there. -/
def rbtInsert (key : T → ℤ) (l : List T) (pos : ℕ) (t : T) : Option (List T) :=
  if (l.take pos).getLast?.all (key · ≤ key t) ∧ (l.drop pos).head?.all (key t < key ·) then
    some (l.take pos ++ t :: l.drop pos)
  else none

variable [DecidableEq T]

def rbtPositionValid (key : T → ℤ) (l : List T) (t : T) : Bool :=
  (l.takeWhile (· ≠ t)).getLast?.all (key · ≤ key t) ∧
    (l.dropWhile (· ≠ t)).tail.head?.all (key t ≤ key ·)

def rbtReinsert (key : T → ℤ) (l : List T) (pos : ℕ) (t : T) : Option (List T) :=
  if rbtPositionValid key l t then some l else rbtInsert key (l.erase t) pos t

/-! ### Handles -/

variable [DecidableEq H] [DecidableEq C]

def Sys.key (s : Sys T H C) (t : T) : ℤ := climbKey (s.data t)

def Sys.setData (s : Sys T H C) (t : T) (d : ThreadData H) : Sys T H C :=
  { s with data := update s.data t d }

def Sys.setHandle (s : Sys T H C) (h : H) (ch : Handle T) : Sys T H C :=
  { s with handle := update s.handle h ch }

def Sys.setTree (s : Sys T H C) (c : C) (l : List T) : Sys T H C :=
  { s with tree := update s.tree c l }

/-- The last part of `apply_handle`: the thread goes on the tree, or gets a new place in it. -/
def enterTree (s : Sys T H C) (t : T) (pos : ℕ) : Option (Except Fault (Sys T H C)) :=
  let d := s.data t
  let c := s.cpu t
  if d.pressurePeriods = 0 then
    if d.onClimbTree then some (.error .onTree)
    else
      let s := s.setData t (d.setPeriods 1)
      (rbtInsert s.key (s.tree c) pos t).map fun l =>
        .ok ((s.setTree c l).setData t { d.setPeriods 1 with onClimbTree := true })
  else if d.pressurePeriods < 0 then
    let s := s.setData t (d.setPeriods 1)
    if d.onClimbTree then (rbtReinsert s.key (s.tree c) pos t).map fun l => .ok (s.setTree c l)
    else some (.ok s)
  else some (.ok s)

def ThreadData.pushBack (d : ThreadData H) (h : H) : ThreadData H :=
  { d with handles := d.handles ++ [h] }

def Handle.setPressure (ch : Handle T) (p : Fx) : Handle T := { ch with pressure := p }

def Handle.link (ch : Handle T) : Handle T := { ch with linked := true }

def Handle.giveTo (ch : Handle T) (t : T) : Handle T := { ch with givenTo := some t }

/-- `climb_handle_apply`, by the thread itself if `self`. -/
def climbHandleApply (s : Sys T H C) (t : T) (h : H) (self : Bool) (pos : ℕ) :
    Option (Except Fault (Sys T H C)) :=
  if (s.handle h).linked then some (.error .linked)
  else
    match applyHandlePressures ((s.data t).pushBack h) (s.handle h).link self with
    | .error fault => some (.error fault)
    | .ok r => enterTree ((s.setData t r.1).setHandle h (r.2.giveTo t)) t pos

/-- `remove_handle` for a handle that has applied pressure. -/
def removeHandle (d : ThreadData H) (h : H) (ch : Handle T) : ThreadData H :=
  let d := match ch.kind with
    | .direct => { d with directPressure := d.directPressure - ch.appliedPressureInternal }
    | .indirect => { d with indirectPressure := d.indirectPressure - ch.appliedPressureInternal }
  let handles := d.handles.erase h
  { d.setPeriods (if handles = [] ∧ d.onClimbTree then -1 else d.pressurePeriods) with
    handles := handles }

def climbHandleRemove (s : Sys T H C) (h : H) : Except Fault (Sys T H C) :=
  let ch := s.handle h
  if ch.appliedPressureInternal = 0#64 then
    if ch.linked then .error .noopLinked else .ok s
  else
    match ch.givenTo with
    | none => .error .givenToNobody
    | some t =>
      .ok ((s.setData t (removeHandle (s.data t) h ch)).setHandle h
        { ch with appliedPressureInternal := 0#64, linked := false, givenTo := none })

/-! ### Threads and periods -/

def climbThreadRemove (s : Sys T H C) (t : T) : Sys T H C :=
  if t ∈ s.tree (s.cpu t) then
    (s.setTree (s.cpu t) ((s.tree (s.cpu t)).erase t)).setData t
      { (s.data t).setPeriods 0 with onClimbTree := false }
  else s

/-- The migration of a thread to another CPU, with `climb_post_migrate_hook`. -/
def migrate (s : Sys T H C) (t : T) (new : C) (pos : ℕ) : Option (Except Fault (Sys T H C)) :=
  let old := s.cpu t
  if old = new then some (.ok s)
  else if t ∉ s.tree old then
    if (s.data t).onClimbTree then some (.error .migrateOnTree)
    else if (s.data t).pressurePeriods ≠ 0 then some (.error .migratePeriods)
    else some (.ok { s with cpu := update s.cpu t new })
  else
    (rbtInsert s.key (s.tree new) pos t).map fun l =>
      .ok { (s.setTree old ((s.tree old).erase t)).setTree new l with
        cpu := update s.cpu t new }

/-- What a period does with the periods of a thread, and whether the thread is dropped, if `count`
threads were. -/
def advance (d : ThreadData H) (count : ℕ) : ThreadData H × Bool :=
  if 0 < d.pressurePeriods then (d.setPeriods (d.pressurePeriods + 1), false)
  else if d.pressurePeriods < -climbMaxDecayPeriods ∨ d.wantedBoost = 0 then
    if count = climbDropBatch then (d, false)
    else ({ d.setPeriods 0 with onClimbTree := false }, true)
  else (d.setPeriods (d.pressurePeriods - 1), false)

/-- `struct climb_summary` and the number of dropped threads, with the state so far. -/
structure Summary (T H : Type) where
  totalPressureEwma : Fx
  nthreads : ℕ
  dropped : ℕ
  data : T → ThreadData H
  tree : List T

/-- The loop of `summarize_and_advance`, over the threads that are on the tree at its start. -/
def summarizeAndAdvance (r : Summary T H) : List T → Summary T H
  | [] => r
  | t :: l =>
    let d := updateFields (r.data t)
    let a := advance d r.dropped
    summarizeAndAdvance
      { totalPressureEwma := r.totalPressureEwma + d.pressureEwma
        nthreads := r.nthreads + 1
        dropped := if a.2 then r.dropped + 1 else r.dropped
        data := update r.data t a.1
        tree := if a.2 then r.tree else r.tree ++ [t] } l

/-- `climb_budget_from_summary`. -/
def climbBudgetFromSummary (r : Summary T H) : ℤ :=
  let boostScale := climbBoostLevels / r.nthreads
  let levels := fxToInt (fxMul r.totalPressureEwma (fxFromInt (BitVec.ofNat 64 boostScale)))
  max climbMinGlobalBoost (min levels (r.nthreads * climbBoostLevels))

/-- The loop of `climb_apply_budget`, over the threads from the largest key on. -/
def climbApplyBudget (data : T → ThreadData H) : List T → ℤ → T → ThreadData H
  | [], _ => data
  | t :: l, remaining =>
    if remaining ≤ 0 then data
    else
      let granted := min (data t).wantedBoost remaining
      climbApplyBudget (update data t { data t with effectiveBoost := granted }) l
        (remaining - granted)

def climbPerPeriodHook (s : Sys T H C) (c : C) : Except Fault (Sys T H C) :=
  if s.tree c = [] then .ok s
  else
    let r := summarizeAndAdvance ⟨0#64, 0, 0, s.data, []⟩ (s.tree c)
    if r.nthreads = 0 then .error .noThreads
    else
      let budget := climbBudgetFromSummary r
      .ok { s.setTree c r.tree with
        data := climbApplyBudget r.data r.tree.reverse budget
        budget := update s.budget c budget }

/-! ### Runs -/

/-- `struct climb_source`: its pressure is within the space of pressures. -/
structure Source where
  base : Fx
  base_pos : 0 < base.toNat
  base_le : base.toNat ≤ fxOne.toNat

/-- Where the pressure of a handle comes from. -/
inductive Origin (T : Type)
  | source (src : Source)
  | thread (t : T)

def Origin.pressure (s : Sys T H C) : Origin T → Fx
  | .source src => src.base
  | .thread t => climbThreadComputePressureToApply (s.data t)

/-- What can happen next. -/
inductive Act (T H C : Type)
  /-- The handle gets its pressure and is applied. -/
  | apply (t : T) (h : H) (self : Bool) (origin : Origin T) (pos : ℕ)
  | remove (h : H)
  | threadRemove (t : T)
  | migrate (t : T) (new : C) (pos : ℕ)
  | period (c : C)

def climbStep (s : Sys T H C) : Act T H C → Option (Except Fault (Sys T H C))
  | .apply t h self origin pos =>
    climbHandleApply (s.setHandle h ((s.handle h).setPressure (origin.pressure s))) t h self pos
  | .remove h => some (climbHandleRemove s h)
  | .threadRemove t => some (.ok (climbThreadRemove s t))
  | .migrate t new pos => migrate s t new pos
  | .period c => some (climbPerPeriodHook s c)

/-- After `climb_thread_init` and `climb_handle_init`. -/
def Sys.init (kind : H → PressureKind) (cpu : T → C) : Sys T H C where
  data _ := ⟨0#64, 0#64, 0#64, 0, 0#64, 0, 0, [], false, by decide⟩
  handle h := ⟨0#64, 0#64, kind h, false, none⟩
  cpu := cpu
  tree _ := []
  budget _ := 0

end

end Charmos.Climb
