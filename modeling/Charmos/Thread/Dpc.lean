import Charmos.Lib.LinkChain

/-!
# Deferred procedure calls

A deferred procedure call is pushed onto the queue of a CPU, a stack that is linked through `next`,
by `dpc_enqueue_on_cpu`, and executed there by `dpc_drain_local`. The flag `enqueued` keeps a call
from being pushed twice. The drain steals the whole stack, reverses it and executes it; the flag
`executing_dpcs` of the CPU keeps a drain from starting inside another one.

Every atomic operation is a step of its own. An interrupt can enter `dpc_drain_local` at any point,
so the drains of a CPU form a stack of frames of which the first one runs. Any number of enqueues
can be underway, from any CPU and from the procedures that the drains execute.
-/

namespace Charmos.Dpc

open Function

/-- Where a call of `dpc_drain_local` is. -/
inductive Frame (D : Type)
  /-- Before `in_resched` is read, and before the exchange on `executing_dpcs`. -/
  | loadResched
  | guard
  /-- In `dpc_steal_queue`: before the exchange on `head`, before `next` of a node is read, and
  before it is stored. -/
  | steal
  | revLoad (list : D) (rev : Option D)
  | revStore (list : D) (rev next : Option D)
  /-- In `dpc_execute_all_in_queue`: before `next` is read, before `enqueued` is cleared, and in the
  procedure. -/
  | loadNext (it : D)
  | clear (it : D) (next : Option D)
  | run (next : Option D)
  /-- Before `head` is read at the end of the loop, before the guard is cleared, before `head` is
  read again, and before the second exchange on the guard. The number is when the guard was
  cleared. -/
  | loadHead
  | release
  | recheck (t : ℕ)
  | reguard (t : ℕ)
  /-- At the return, with the time at which the guard was cleared if it was taken. -/
  | ret (t : Option ℕ)

/-- Where a call of `dpc_enqueue_on_cpu` is. -/
inductive Call (C D : Type)
  | idle
  /-- Before the exchange on `enqueued`, and before `next` is cleared. -/
  | exchange (cpu : C) (d : D)
  | clearNext (cpu : C) (d : D)
  /-- In `dpc_queue_enqueue`: before `head` is read, before `next` is stored, and before the
  exchange. -/
  | loadHead (cpu : C) (d : D)
  | storeNext (cpu : C) (d : D) (old : Option D)
  | cas (cpu : C) (d : D) (old : Option D)
  /-- Before `scheduler_force_or_defer_run_dpcs`, with the number of the enqueue. -/
  | force (cpu : C) (d : D) (n : ℕ)
  | ret (result : Bool)

/-- A CPU with its queue. -/
structure Cpu (D : Type) where
  head : Option D
  executing : Bool
  inResched : Bool
  frames : List (Frame D)
  /-- History: what was pushed onto the queue. -/
  pushed : List D
  /-- History: the executions that have begun. -/
  begun : List D

/-- The CPUs, the deferred procedure calls and the enqueues. -/
structure Sys (C D K : Type) where
  cpu : C → Cpu D
  next : D → Option D
  enqueued : D → Bool
  call : K → Call C D
  /-- History: how many steps there were. -/
  now : ℕ
  /-- History: the enqueues that are past their exchange on the flag, and the executions begun. -/
  enqueues : D → ℕ
  executions : D → ℕ
  /-- History: when the pusher of the last enqueue forced or deferred the run. -/
  forced : D → Option ℕ

/-- What can happen next. -/
inductive Act (C D K : Type)
  | enqueue (k : K) (cpu : C) (d : D)
  /-- The next step of an enqueue. An exchange can fail for no reason. -/
  | call (k : K) (spurious : Bool)
  /-- An interrupt enters `dpc_drain_local`. -/
  | interrupt (cpu : C)
  /-- The next step of the drain that runs. -/
  | drain (cpu : C)
  | setResched (cpu : C) (value : Bool)

section

variable {C D K : Type} [DecidableEq C] [DecidableEq D] [DecidableEq K]

/-- The next step of `dpc_enqueue_on_cpu`. -/
def callStep (s : Sys C D K) (k : K) (spurious : Bool) : Option (Sys C D K) :=
  let goto (pc : Call C D) : K → Call C D := update s.call k pc
  match s.call k with
  | .idle => none
  | .ret _ => none
  | .exchange cpu d =>
    if s.enqueued d then some { s with call := goto (.ret false) }
    else
      some { s with
        enqueued := update s.enqueued d true
        enqueues := update s.enqueues d (s.enqueues d + 1)
        call := goto (.clearNext cpu d) }
  | .clearNext cpu d =>
    some { s with next := update s.next d none, call := goto (.loadHead cpu d) }
  | .loadHead cpu d => some { s with call := goto (.storeNext cpu d (s.cpu cpu).head) }
  | .storeNext cpu d old =>
    some { s with next := update s.next d old, call := goto (.cas cpu d old) }
  | .cas cpu d old =>
    if (s.cpu cpu).head = old ∧ spurious = false then
      some { s with
        cpu := update s.cpu cpu
          { s.cpu cpu with head := some d, pushed := (s.cpu cpu).pushed ++ [d] }
        forced := update s.forced d none
        call := goto (.force cpu d (s.enqueues d)) }
    else some { s with call := goto (.loadHead cpu d) }
  | .force _ d n =>
    some { s with
      forced := if s.enqueues d = n then update s.forced d (some s.now) else s.forced
      call := goto (.ret true) }

/-- The next step of the drain that runs on the CPU. -/
def drainStep (s : Sys C D K) (cpu : C) : Option (Sys C D K) :=
  let p := s.cpu cpu
  let set (p : Cpu D) : Sys C D K := { s with cpu := update s.cpu cpu p }
  match p.frames with
  | [] => none
  | f :: rest =>
    let goto (f : Frame D) : Cpu D := { p with frames := f :: rest }
    match f with
    | .loadResched => some (set (goto (if p.inResched then .ret none else .guard)))
    | .guard =>
      some (set { goto (if p.executing then .ret none else .steal) with executing := true })
    | .steal =>
      match p.head with
      | none => some (set (goto .loadHead))
      | some list => some (set { goto (.revLoad list none) with head := none })
    | .revLoad list rev => some (set (goto (.revStore list rev (s.next list))))
    | .revStore list rev next =>
      let pc := match next with
        | some n => .revLoad n (some list)
        | none => .loadNext list
      some { set (goto pc) with next := update s.next list rev }
    | .loadNext it => some (set (goto (.clear it (s.next it))))
    | .clear it next =>
      some { set { goto (.run next) with begun := p.begun ++ [it] } with
        enqueued := update s.enqueued it false
        executions := update s.executions it (s.executions it + 1) }
    | .run next =>
      some (set (goto (match next with
        | some n => .loadNext n
        | none => .steal)))
    | .loadHead => some (set (goto (if p.head.isSome then .steal else .release)))
    | .release => some (set { goto (.recheck s.now) with executing := false })
    | .recheck t => some (set (goto (if p.head.isSome then .reguard t else .ret (some t))))
    | .reguard t =>
      some (set { goto (if p.executing then .ret (some t) else .steal) with executing := true })
    | .ret _ => some (set { p with frames := rest })

/-- A step, if it is possible. -/
def dpcStep (s : Sys C D K) (a : Act C D K) : Option (Sys C D K) :=
  let r := match a with
    | .enqueue k cpu d =>
      match s.call k with
      | .idle => some { s with call := update s.call k (.exchange cpu d) }
      | .ret _ => some { s with call := update s.call k (.exchange cpu d) }
      | _ => none
    | .call k spurious => callStep s k spurious
    | .interrupt cpu =>
      some { s with
        cpu := update s.cpu cpu
          { s.cpu cpu with frames := .loadResched :: (s.cpu cpu).frames } }
    | .drain cpu => drainStep s cpu
    | .setResched cpu value =>
      some { s with cpu := update s.cpu cpu { s.cpu cpu with inResched := value } }
  r.map fun s' => { s' with now := s.now + 1 }

/-- Nothing is queued and nothing runs. -/
def Sys.init : Sys C D K where
  cpu _ := ⟨none, false, false, [], [], []⟩
  next _ := none
  enqueued _ := false
  call _ := .idle
  now := 0
  enqueues _ := 0
  executions _ := 0
  forced _ := none

/-- The states that a run reaches. -/
def Reachable (s : Sys C D K) : Prop :=
  Relation.ReflTransGen (fun s s' => ∃ a, dpcStep s a = some s') Sys.init s

end

end Charmos.Dpc
