import Charmos.Lib.AgentSum

/-!
# Per-CPU reference counters

`percpu_rc_getref` and `percpu_rc_putref` count on the counter of the CPU they run on, until
`percpu_rc_kill` marks the counter dead; from then on they count on one shared counter. A
callback that RCU runs after a grace period adds the per-CPU counters to the shared one. To keep
the shared counter from reaching zero before that, `percpu_rc_init` adds a bias to it, which the
callback takes away together with the reference of the one who kills.

Every atomic operation is a step of its own, and a thread can change CPU between any two. A grace
period is over when every thread that was in a read section at `rcu_defer` has left it. With
`PERCPU_RC_INIT_ATOMIC` there are no per-CPU counters from the start, and no bias. The counters
are integers here: they stay far from the range of `int64_t`. `percpu_rc_reinit`,
`percpu_rc_resurrect` and `percpu_rc_destroy` are not modelled.
-/

namespace Charmos.PercpuRc

open AgentSum Function

/-- `percpu_count_ptr`: whether it points to counters, and the two bits below the pointer. -/
structure CountPtr where
  counters : Bool
  dead : Bool
  atomic : Bool
deriving DecidableEq, Repr

/-- `percpu_rc_is_percpu`. -/
def percpuRcIsPercpu (p : CountPtr) : Bool := !(p.dead || p.atomic)

/-- `PERCPU_COUNT_BIAS`. -/
def percpuCountBias : ℤ := 2 ^ 30

/-- Where a thread is in the code. -/
inductive Pc (n : ℕ)
  | idle
  /-- In `percpu_rc_getref`: before the pointer is loaded, and before either increment. -/
  | getLoad
  | getPercpu
  | getCount
  /-- In `percpu_rc_putref`: before the load, before the decrement of the CPU's counter, and on the
  shared side before `rcu_read_unlock` and before the decrement. -/
  | putLoad
  | putPercpu
  | putLeave
  | putDec
  /-- In `percpu_rc_try_getref`, the same; then before `count` is read and before it is exchanged
  for `c + 1`. -/
  | tryLoad
  | tryPercpu
  | tryLeave
  | tryRead
  | tryCas (c : ℤ)
  /-- Before `rcu_read_unlock`, the last thing in a call. -/
  | unlock
  /-- In `percpu_rc_kill`: before the load, before the bits are set, and before `rcu_defer`. -/
  | killLoad
  | killOr
  | killDefer
  /-- In `percpu_rc_switch_to_atomic_rcu`: before the load, before a counter is read and before it
  is zeroed, before the counters are freed, and before `count` is adjusted. -/
  | cbLoad
  | cbSum (i : ℕ) (sum : ℤ)
  | cbZero (i : Fin n) (sum value : ℤ)
  | cbFree (sum : ℤ)
  | cbAdd (sum : ℤ)
  /-- `count` was brought to zero; before the call of `release`. -/
  | release
deriving DecidableEq, Repr

variable {n : ℕ} {T : Type} [Fintype T] [DecidableEq T]

/-- Between `rcu_read_lock` and `rcu_read_unlock`. -/
def Pc.inSection : Pc n → Bool
  | .getLoad | .getPercpu | .getCount | .putLoad | .putPercpu | .putLeave | .tryLoad | .tryPercpu
  | .tryLeave | .unlock => true
  | _ => false

/-- A counter and the threads that use it. -/
structure Rc (n : ℕ) (T : Type) where
  count : ℤ
  ptr : CountPtr
  counters : Fin n → ℤ
  allowReinit : Bool
  /-- The callbacks that RCU has not run yet, each with the readers that it waits for. -/
  pending : List (Finset T)
  pc : T → Pc n
  /-- History: the references that are held and that no call is putting. -/
  held : ℕ
  /-- History: how many callbacks have adjusted `count`. -/
  applied : ℕ
  /-- History: how often `release` was called. -/
  released : ℕ

/-- `percpu_rc_init` with the flags `PERCPU_RC_INIT_ATOMIC` and `PERCPU_RC_ALLOW_REINIT`. -/
def percpuRcInit (n : ℕ) (T : Type) (initAtomic allowReinit : Bool) : Rc n T where
  count := if initAtomic then 1 else 1 + percpuCountBias
  ptr :=
    if initAtomic then { counters := false, dead := false, atomic := true }
    else { counters := true, dead := false, atomic := false }
  counters := fun _ => 0
  allowReinit
  pending := []
  pc := fun _ => .idle
  held := 0
  applied := 0
  released := 0

/-- A thread goes on. -/
def Rc.setPc (s : Rc n T) (t : T) (p : Pc n) : Rc n T :=
  { s with pc := update s.pc t p }

/-- `rcu_read_unlock`: no callback waits for the thread any more. -/
def Rc.rcuReadUnlock (s : Rc n T) (t : T) : Rc n T :=
  { s with pending := s.pending.map (·.erase t) }

/-- `rcu_defer`: the callback waits for all readers there are. -/
def Rc.rcuDefer (s : Rc n T) : Rc n T :=
  { s with pending := s.pending ++ [Finset.univ.filter fun t => (s.pc t).inSection] }

/-- The counter of a CPU changes. -/
def Rc.addPercpu (s : Rc n T) (cpu : Fin n) (d : ℤ) : Rc n T :=
  { s with counters := update s.counters cpu (s.counters cpu + d) }

/-- What can happen. -/
inductive RcAct (n : ℕ) (T : Type)
  | getref (t : T)
  | tryGetref (t : T)
  | putref (t : T)
  | kill (t : T)
  /-- RCU runs a callback, in some thread. -/
  | callback (t : T) (k : ℕ)
  /-- The next step of a call, on a CPU. A weak exchange can fail for no reason. -/
  | run (t : T) (cpu : Fin n) (fail : Bool)

/-- The next step of a thread. -/
def rcRun (s : Rc n T) (t : T) (cpu : Fin n) (fail : Bool) : Option (Rc n T) :=
  match s.pc t with
  | .idle => none
  | .getLoad => some (s.setPc t (if percpuRcIsPercpu s.ptr then .getPercpu else .getCount))
  | .getPercpu => some { (s.addPercpu cpu 1).setPc t .unlock with held := s.held + 1 }
  | .getCount => some { s.setPc t .unlock with count := s.count + 1, held := s.held + 1 }
  | .putLoad => some (s.setPc t (if percpuRcIsPercpu s.ptr then .putPercpu else .putLeave))
  | .putPercpu => some ((s.addPercpu cpu (-1)).setPc t .unlock)
  | .putLeave => some ((s.rcuReadUnlock t).setPc t .putDec)
  | .putDec =>
    some { s.setPc t (if s.count - 1 = 0 then .release else .idle) with count := s.count - 1 }
  | .tryLoad => some (s.setPc t (if percpuRcIsPercpu s.ptr then .tryPercpu else .tryLeave))
  | .tryPercpu => some { (s.addPercpu cpu 1).setPc t .unlock with held := s.held + 1 }
  | .tryLeave => some ((s.rcuReadUnlock t).setPc t .tryRead)
  | .tryRead => some (s.setPc t (.tryCas s.count))
  | .tryCas c =>
    if c ≤ 0 then some (s.setPc t .idle)
    else if s.count = c ∧ ¬ fail then
      some { s.setPc t .idle with count := s.count + 1, held := s.held + 1 }
    else some (s.setPc t (.tryCas s.count))
  | .unlock => some ((s.rcuReadUnlock t).setPc t .idle)
  | .killLoad => some (s.setPc t (if s.ptr.dead then .idle else .killOr))
  | .killOr => some { s.setPc t .killDefer with ptr := { s.ptr with dead := true, atomic := true } }
  | .killDefer => some (s.rcuDefer.setPc t .idle)
  | .cbLoad => some (s.setPc t (if s.ptr.counters then .cbSum 0 0 else .cbAdd 0))
  | .cbSum i sum =>
    some (s.setPc t (if h : i < n then .cbZero ⟨i, h⟩ sum (s.counters ⟨i, h⟩) else .cbFree sum))
  | .cbZero i sum value =>
    some { s.setPc t (.cbSum (i + 1) (sum + value)) with
      counters := update s.counters i 0 }
  | .cbFree sum =>
    if s.allowReinit then some (s.setPc t (.cbAdd sum))
    else some { s.setPc t (.cbAdd sum) with
      ptr := { counters := false, dead := true, atomic := true } }
  | .cbAdd sum =>
    let adjustment := sum - (percpuCountBias + 1)
    some { s.setPc t (if s.count + adjustment = 0 then .release else .idle) with
      count := s.count + adjustment
      applied := s.applied + 1 }
  | .release => some { s.setPc t .idle with released := s.released + 1 }

/-- A call begins, which is a step up to and with `rcu_read_lock`, or goes on. Only a reference that
is held can be put. -/
def rcStep (s : Rc n T) : RcAct n T → Option (Rc n T)
  | .getref t => if s.pc t = .idle then some (s.setPc t .getLoad) else none
  | .tryGetref t => if s.pc t = .idle then some (s.setPc t .tryLoad) else none
  | .putref t =>
    if s.pc t = .idle ∧ 0 < s.held then some { s.setPc t .putLoad with held := s.held - 1 }
    else none
  | .kill t => if s.pc t = .idle then some (s.setPc t .killLoad) else none
  | .callback t k =>
    if s.pc t = .idle ∧ s.pending[k]? = some ∅ then
      some { s.setPc t .cbLoad with pending := s.pending.eraseIdx k }
    else none
  | .run t cpu fail => rcRun s t cpu fail

/-! ### References -/

/-- One for a thread that is putting a reference and has not decremented yet. -/
def Pc.putting : Pc n → ℕ
  | .putLoad | .putPercpu | .putLeave | .putDec => 1
  | _ => 0

/-- One for a thread that is getting a reference and has not incremented yet. -/
def Pc.getting : Pc n → ℕ
  | .getLoad | .getPercpu | .getCount | .tryLoad | .tryPercpu | .tryLeave | .tryRead
  | .tryCas _ => 1
  | _ => 0

/-- One for a thread that is about to call `release`. -/
def Pc.releasing : Pc n → ℕ
  | .release => 1
  | _ => 0

/-- The references that are outstanding. -/
def outstanding (s : Rc n T) : ℕ := s.held + total Pc.putting s.pc

/-- What the counter promises. -/
structure RcOk (s : Rc n T) : Prop where
  /-- `release` is not called before a kill, or with a reference outstanding. -/
  not_early : 0 < s.released ∨ 0 < total Pc.releasing s.pc → s.ptr.dead ∧ outstanding s = 0
  /-- It is called once if, after the callback of a kill, no reference is outstanding. -/
  once : 0 < s.applied → outstanding s = 0 → s.released + total Pc.releasing s.pc = 1
  /-- It is never called twice. -/
  not_twice : s.released + total Pc.releasing s.pc ≤ 1

end Charmos.PercpuRc
