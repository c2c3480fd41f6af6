import Charmos.Lib.SeqRing

/-!
# TLB shootdown

A CPU that changes a mapping has the other CPUs drop it from their TLBs. `tlb_shootdown_full` puts
the payload, which says what to invalidate, in the ring of every target, or asks the target for a
full flush if the ring is full, and sends it an interrupt. In the mode `TLB_MODE_SYNC` it waits
until `done_pos` and `flush_done` of every target have passed what it found in the ring.

Every atomic operation is a step of its own, and so is each instruction on a TLB. The handler of a
CPU does not interrupt itself; an interrupt that is sent while another is pending merges with it.
Any number of calls can be underway on a CPU. The loop of `cpu_mask_for_each` goes through a list of
the targets. The counters of 64 bits are numbers, so the results are about runs in which no
position and no flush count reaches `2 ^ 64`. The lazy rings, which nothing uses, and the stamps are
left out.
-/

namespace Charmos.Tlb

open Function

/-! ### Payloads -/

/-- `struct tlb_payload`. -/
inductive Payload
  | page (addr : BitVec 64)
  | range (low hi stride : BitVec 64)
  | flush
  deriving DecidableEq

/-- What a CPU does to its TLB. -/
inductive Event
  | flush
  | invlpg (addr : BitVec 64)
  deriving DecidableEq

/-- Where the loop of `payload_invalidate` starts. -/
def Payload.start : Payload → BitVec 64
  | .range low _ _ => low
  | _ => 0

/-- The next step of `payload_invalidate`: what it does, and where the loop goes on. -/
def payloadInvalidate (pl : Payload) (start : BitVec 64) : List Event × Option (BitVec 64) :=
  match pl with
  | .flush => ([.flush], none)
  | .page addr => ([.invlpg addr], none)
  | .range _ hi stride =>
    if start < hi then ([.invlpg start], some (start + stride)) else ([], none)

/-- The list has a full flush or an invalidation of all that the payload names. -/
def Covers (pl : Payload) (l : List Event) : Prop :=
  .flush ∈ l ∨
    match pl with
    | .flush => False
    | .page addr => .invlpg addr ∈ l
    | .range low hi stride =>
      ∀ k : ℕ, low.toNat + k * stride.toNat < hi.toNat → .invlpg (low + k * stride) ∈ l

/-! ### The state -/

/-- `TLB_QUEUE_SIZE`. -/
def tlbQueueSize : ℕ := 64

/-- An entry of a ring, for the history. -/
structure Entry (K : Type) where
  caller : K
  payload : Payload
  /-- What the CPU had done when the position was claimed. -/
  since : ℕ
  phase : Phase

/-- Where the handler of a CPU is. -/
inductive HandlerPc
  | idle
  /-- In `ring_invalidate`: before `flush_req` and before `flush_done` is read. -/
  | loadReq
  | loadDone (fr : ℕ)
  /-- In `tlb_queue_drain`: before `tail` is read, before `head` is read, at a position in the scan,
  before `tail` is read again, before the exchange, and at a position that was claimed, before its
  slot is cleared and before it is released. -/
  | drainTail (fr : ℕ)
  | drainHead (fr t : ℕ)
  | drainScan (fr t last p : ℕ)
  | drainRecheck (fr t : ℕ)
  | drainCas (fr t p : ℕ)
  | drainClear (fr p last : ℕ)
  | drainRelease (fr p last : ℕ)
  /-- Before `tlb_flush`, and before `flush_done` is stored. -/
  | flush (fr : ℕ)
  | storeFlush (fr : ℕ)
  /-- In `tlb_queue_dequeue`: before `tail` is read, before the sequence number is read, before the
  exchange, and with the claimed position before the slot is read, cleared and released. -/
  | deqTail
  | deqSeq (pos : ℕ)
  | deqCas (pos : ℕ)
  | deqRead (pos : ℕ)
  | deqClear (pos : ℕ) (pl : Payload)
  | deqRelease (pos : ℕ) (pl : Payload)
  /-- In `payload_invalidate`, for the payload of a position. -/
  | inval (pos : ℕ) (pl : Payload) (start : BitVec 64)
  /-- Before `tail` is read for `done_pos`, and before it is stored. -/
  | loadTail
  | storeDone (pos : ℕ)
  deriving DecidableEq

/-- A CPU with its `eager_ring`. -/
structure Cpu (K : Type) where
  queue : SeqRing Payload
  donePos : ℕ
  flushReq : ℕ
  flushDone : ℕ
  /-- Whether an interrupt is pending. -/
  ipi : Bool
  handler : HandlerPc
  /-- History: what the CPU has done to its TLB. -/
  log : List Event
  /-- History: the entries by position. -/
  entries : ℕ → Option (Entry K)
  /-- History: what the CPU had done when `flush_req` got a value. -/
  flushAt : ℕ → ℕ

/-- `enum tlb_mode`. -/
inductive Mode
  | sync
  | async
  | lazy
  | none
  deriving DecidableEq

/-- `struct tlb_request`, with the targets in the order of the loops. -/
structure Request (C : Type) where
  mode : Mode
  targets : List C
  payload : Payload

/-- Where a call of `tlb_shootdown_full` is. In both loops `todo` are the targets that are left. -/
inductive CallPc (C : Type)
  | idle
  /-- Before the checks of the mode and the boot stage. -/
  | check
  | loop (todo : List C)
  /-- In `payload_invalidate`, on the CPU of the call. -/
  | inval (todo : List C) (start : BitVec 64)
  /-- In `ring_enqueue`: before `head`, the sequence number and the exchange, before the slot is
  filled and published, or before `flush_req` is incremented. -/
  | claimLoad (i : C) (todo : List C)
  | claimSeq (i : C) (todo : List C) (pos : ℕ)
  | claimCas (i : C) (todo : List C) (pos : ℕ)
  | write (i : C) (todo : List C) (pos : ℕ)
  | publish (i : C) (todo : List C) (pos : ℕ)
  | bump (i : C) (todo : List C)
  | sendIpi (i : C) (todo : List C)
  | wait (todo : List C)
  /-- In `ring_wait`: before `head` and `flush_req` are read, and before `done_pos` and `flush_done`
  are. -/
  | waitHead (i : C) (todo : List C)
  | waitReq (i : C) (todo : List C) (wantPos : ℕ)
  | waitPos (i : C) (todo : List C) (wantPos wantFlush : ℕ)
  | waitFlush (i : C) (todo : List C) (wantPos wantFlush : ℕ)
  /-- Before `pt_epoch` is incremented. -/
  | epoch
  | returned
  deriving DecidableEq

/-- A call. -/
structure Call (C : Type) where
  pc : CallPc C
  req : Request C
  /-- `this_cpu`. -/
  cpu : C
  /-- History: what each CPU had done when the call began. -/
  began : C → ℕ

/-- The CPUs `C`, the calls `K`, and the globals. -/
structure Sys (C K : Type) where
  cpu : C → Cpu K
  call : K → Call C
  /-- Whether `boot_global.stage` is at least `BOOTSTAGE_MID_MP`. -/
  midMp : Bool
  ptEpoch : ℕ

variable {C K : Type} [DecidableEq C] [DecidableEq K]

/-! ### The handler -/

/-- The next step of `ring_invalidate`. A weak exchange can fail for no reason. -/
def ringInvalidate (c : Cpu K) (fail : Bool) : Option (Cpu K) :=
  match c.handler with
  | .idle => if c.ipi then some { c with ipi := false, handler := .loadReq } else none
  | .loadReq => some { c with handler := .loadDone c.flushReq }
  | .loadDone fr => some { c with handler := if fr ≠ c.flushDone then .drainTail fr else .deqTail }
  | .drainTail fr => some { c with handler := .drainHead fr c.queue.tail }
  | .drainHead fr t => some { c with handler := .drainScan fr t c.queue.head t }
  | .drainScan fr t last p =>
    if p ≠ last ∧ c.queue.seq (p % tlbQueueSize) = p + 1 then
      some { c with handler := .drainScan fr t last (p + 1) }
    else some { c with handler := if p = t then .drainRecheck fr t else .drainCas fr t p }
  | .drainRecheck fr t =>
    some { c with handler := if c.queue.tail ≠ t then .drainTail fr else .flush fr }
  | .drainCas fr t p =>
    if c.queue.tail = t ∧ ¬ fail then
      some { c with queue := { c.queue with tail := p }, handler := .drainClear fr t p }
    else some { c with handler := .drainTail fr }
  | .drainClear fr p last =>
    if p = last then some { c with handler := .flush fr }
    else some { c with
      queue := { c.queue with val := update c.queue.val (p % tlbQueueSize) (.page 0) }
      handler := .drainRelease fr p last }
  | .drainRelease fr p last =>
    some { c with
      queue := { c.queue with
        seq := update c.queue.seq (p % tlbQueueSize) (p + tlbQueueSize) }
      handler := .drainClear fr (p + 1) last }
  | .flush fr => some { c with log := c.log ++ [.flush], handler := .storeFlush fr }
  | .storeFlush fr => some { c with flushDone := fr, handler := .loadTail }
  | .deqTail => some { c with handler := .deqSeq c.queue.tail }
  | .deqSeq pos =>
    let seq := c.queue.seq (pos % tlbQueueSize)
    some { c with
      handler := if seq = pos + 1 then .deqCas pos
        else if seq < pos + 1 then .loadTail else .deqTail }
  | .deqCas pos =>
    if c.queue.tail = pos ∧ ¬ fail then
      some { c with queue := { c.queue with tail := pos + 1 }, handler := .deqRead pos }
    else some { c with handler := .deqTail }
  | .deqRead pos =>
    some { c with handler := .deqClear pos (c.queue.val (pos % tlbQueueSize)) }
  | .deqClear pos pl =>
    some { c with
      queue := { c.queue with val := update c.queue.val (pos % tlbQueueSize) (.page 0) }
      handler := .deqRelease pos pl }
  | .deqRelease pos pl =>
    some { c with
      queue := { c.queue with
        seq := update c.queue.seq (pos % tlbQueueSize) (pos + tlbQueueSize) }
      handler := .inval pos pl pl.start }
  | .inval pos pl start =>
    some { c with
      log := c.log ++ (payloadInvalidate pl start).1
      handler := match (payloadInvalidate pl start).2 with
        | some next => .inval pos pl next
        | none => .deqTail }
  | .loadTail => some { c with handler := .storeDone c.queue.tail }
  | .storeDone pos => some { c with donePos := pos, handler := .idle }

/-! ### Calls -/

/-- A CPU changes. -/
def Sys.setCpu (s : Sys C K) (i : C) (c : Cpu K) : Sys C K :=
  { s with cpu := update s.cpu i c }

/-- A call goes on. -/
def Sys.setPc (s : Sys C K) (k : K) (pc : CallPc C) : Sys C K :=
  { s with call := update s.call k { s.call k with pc := pc } }

/-- The claim of the position at the head. -/
def Cpu.claim (c : Cpu K) (k : K) (pl : Payload) : Cpu K :=
  { c with
    queue := { c.queue with head := c.queue.head + 1 }
    entries := update c.entries c.queue.head
      (some { caller := k, payload := pl, since := c.log.length, phase := .claimed }) }

/-- The slot of a position is filled. -/
def Cpu.write (c : Cpu K) (pos : ℕ) (pl : Payload) : Cpu K :=
  { c with
    queue := { c.queue with val := update c.queue.val (pos % tlbQueueSize) pl }
    entries := update c.entries pos
      ((c.entries pos).map fun e => { e with phase := .written }) }

/-- The slot of a position is published. -/
def Cpu.publish (c : Cpu K) (pos : ℕ) : Cpu K :=
  { c with
    queue := { c.queue with seq := update c.queue.seq (pos % tlbQueueSize) (pos + 1) }
    entries := update c.entries pos
      ((c.entries pos).map fun e => { e with phase := .published }) }

/-- `flush_req` is incremented. -/
def Cpu.bump (c : Cpu K) : Cpu K :=
  { c with
    flushReq := c.flushReq + 1
    flushAt := update c.flushAt (c.flushReq + 1) c.log.length }

/-- The next step of `tlb_shootdown_full`. -/
def tlbShootdownFull (s : Sys C K) (k : K) (fail : Bool) : Option (Sys C K) :=
  let req := (s.call k).req
  match (s.call k).pc with
  | .idle | .returned => none
  | .check =>
    if req.mode = .none ∨ ¬ s.midMp then some (s.setPc k .returned)
    else some (s.setPc k (.loop req.targets))
  | .loop [] => some (s.setPc k (if req.mode = .sync then .wait req.targets else .returned))
  | .loop (i :: todo) =>
    some (s.setPc k
      (if i = (s.call k).cpu then .inval todo req.payload.start else .claimLoad i todo))
  | .inval todo start =>
    let i := (s.call k).cpu
    let c := s.cpu i
    some ((s.setCpu i { c with log := c.log ++ (payloadInvalidate req.payload start).1 }).setPc k
      (match (payloadInvalidate req.payload start).2 with
        | some next => .inval todo next
        | none => .loop todo))
  | .claimLoad i todo => some (s.setPc k (.claimSeq i todo (s.cpu i).queue.head))
  | .claimSeq i todo pos =>
    let seq := (s.cpu i).queue.seq (pos % tlbQueueSize)
    some (s.setPc k
      (if seq = pos then .claimCas i todo pos
        else if seq < pos then .bump i todo else .claimLoad i todo))
  | .claimCas i todo pos =>
    if (s.cpu i).queue.head = pos ∧ ¬ fail then
      some ((s.setCpu i ((s.cpu i).claim k req.payload)).setPc k (.write i todo pos))
    else some (s.setPc k (.claimLoad i todo))
  | .write i todo pos =>
    some ((s.setCpu i ((s.cpu i).write pos req.payload)).setPc k (.publish i todo pos))
  | .publish i todo pos =>
    some ((s.setCpu i ((s.cpu i).publish pos)).setPc k (.sendIpi i todo))
  | .bump i todo => some ((s.setCpu i (s.cpu i).bump).setPc k (.sendIpi i todo))
  | .sendIpi i todo => some ((s.setCpu i { s.cpu i with ipi := true }).setPc k (.loop todo))
  | .wait [] => some (s.setPc k .epoch)
  | .wait (i :: todo) =>
    some (s.setPc k (if i = (s.call k).cpu then .wait todo else .waitHead i todo))
  | .waitHead i todo => some (s.setPc k (.waitReq i todo (s.cpu i).queue.head))
  | .waitReq i todo wantPos => some (s.setPc k (.waitPos i todo wantPos (s.cpu i).flushReq))
  | .waitPos i todo wantPos wantFlush =>
    some (s.setPc k
      (if (s.cpu i).donePos < wantPos then .waitPos i todo wantPos wantFlush
        else .waitFlush i todo wantPos wantFlush))
  | .waitFlush i todo wantPos wantFlush =>
    some (s.setPc k
      (if (s.cpu i).flushDone < wantFlush then .waitPos i todo wantPos wantFlush else .wait todo))
  | .epoch => some { s.setPc k .returned with ptEpoch := s.ptEpoch + 1 }

/-! ### Steps -/

/-- What can happen. -/
inductive Act (C K : Type)
  /-- A call begins on a CPU. -/
  | shootdown (k : K) (cpu : C) (req : Request C)
  | call (k : K) (fail : Bool)
  | handler (i : C) (fail : Bool)

/-- A call begins or goes on, or a handler does. -/
def step (s : Sys C K) : Act C K → Option (Sys C K)
  | .shootdown k cpu req =>
    if (s.call k).pc = .idle ∨ (s.call k).pc = .returned then
      some { s with
        call := update s.call k
          { pc := .check, req, cpu, began := fun i => (s.cpu i).log.length } }
    else none
  | .call k fail => tlbShootdownFull s k fail
  | .handler i fail => (ringInvalidate (s.cpu i) fail).map (s.setCpu i)

/-- `tlb_cpu_init`. -/
def tlbCpuInit : Cpu K where
  queue := { head := 0, tail := 0, seq := id, val := fun _ => .page 0 }
  donePos := 0
  flushReq := 0
  flushDone := 0
  ipi := false
  handler := .idle
  log := []
  entries := fun _ => none
  flushAt := fun _ => 0

/-- No call is underway. -/
def sysInit (midMp : Bool) (cpu : C) : Sys C K where
  cpu := fun _ => tlbCpuInit
  call := fun _ =>
    { pc := .idle
      req := { mode := .none, targets := [], payload := .flush }
      cpu
      began := fun _ => 0 }
  midMp
  ptEpoch := 0

/-- A step of some actor. -/
def Step (s s' : Sys C K) : Prop := ∃ act, step s act = some s'

/-! ### What is promised -/

/-- The property in a state. -/
structure Ok (s : Sys C K) : Prop where
  /-- When a synchronous call has returned, every target has done what was asked since it began. -/
  sync : ∀ k, (s.call k).pc = .returned → (s.call k).req.mode = .sync →
    ∀ i ∈ (s.call k).req.targets,
      Covers (s.call k).req.payload ((s.cpu i).log.drop ((s.call k).began i))
  /-- What `done_pos` has passed was taken from the ring, and done since it was put there. -/
  done_le : ∀ i, (s.cpu i).donePos ≤ (s.cpu i).queue.tail
  covered : ∀ i p, p < (s.cpu i).donePos → ∃ e, (s.cpu i).entries p = some e ∧
    Covers e.payload ((s.cpu i).log.drop e.since)
  /-- The requests that `flush_done` has passed were made, and followed by a full flush. -/
  flushDone_le : ∀ i, (s.cpu i).flushDone ≤ (s.cpu i).flushReq
  flushed : ∀ i m, m ≠ 0 → m ≤ (s.cpu i).flushDone →
    .flush ∈ (s.cpu i).log.drop ((s.cpu i).flushAt m)

end Charmos.Tlb
