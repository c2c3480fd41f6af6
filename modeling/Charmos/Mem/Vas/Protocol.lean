import Charmos.Lib.Interleaving
import Charmos.Mem.Vas.Space

/-!
# The magazine protocol, one atomic step at a time

The magazines of `kernel/mem/vas.c` under every interleaving. Each CPU is an agent that runs one
call at a time, at dispatch level: the lock-free `magazine_alloc` and `magazine_free` on its own
arena, the locked part of `vas_alloc` with `magazine_refill` and `magazine_enroll` on its own
arena, and the locked part of `vas_free` or `magazine_drain` on any arena. A step is one load,
store or compare and swap of a token, of a segment's type or of the byte counter, or the taking
or leaving of an arena lock. The plain fields `slot->segment` and `seg->mag_slot`, which only the
holder of the lock or of a claim uses, are accessed together with the next atomic operation.

The inside of an arena is left abstract: under the lock, `arena_alloc` gives an address at which
no segment is in use, or fails, and `arena_release` frees a segment. The client's side is a ledger
of the extents that were returned and not yet passed to `vas_free`.
-/

namespace Charmos.Vas

open Function

/-- The place of a slot: the CPU of its arena, its class and its index. -/
structure SlotId where
  arena : ℕ
  cls : ℕ
  idx : ℕ
  deriving DecidableEq, Repr

/-- The fields of a `struct vas_segment` in use, with the arena it belongs to. -/
structure SegState where
  arena : ℕ
  length : ℕ
  type : SegmentType
  magSlot : Option SlotId
  deriving DecidableEq, Repr

/-- The memory that the CPUs share, and the extents that clients hold. `seg` has no entry at an
address where no segment in use begins. -/
structure MagMem where
  cpuCount : ℕ
  slot : SlotId → MagSlot
  recent : ℕ → ℕ → ℕ
  seg : ℕ → Option SegState
  lock : ℕ → Option ℕ
  bytes : ℕ
  held : List (ℕ × ℕ)

namespace MagMem

variable (m : MagMem) (x : SlotId) (a : ℕ)

/-- A load of a slot's token. -/
def token : ℕ := (m.slot x).token

/-- A store to a slot's token. -/
def setToken (t : ℕ) : MagMem :=
  { m with slot := update m.slot x { m.slot x with token := t } }

/-- A store to `slot->segment`. -/
def setSegment (s : Option ℕ) : MagMem :=
  { m with slot := update m.slot x { m.slot x with segment := s } }

/-- The segment at an address changes. -/
def setSeg (g : Option SegState) : MagMem := { m with seg := update m.seg a g }

/-- An arena lock is taken or left. -/
def setLock (d : ℕ) (o : Option ℕ) : MagMem := { m with lock := update m.lock d o }

/-- The successful compare and swap of `magazine_claim`. -/
def claim (token : ℕ) : MagMem := m.setToken x (tokenMake (tokenAddr token) .claimed)

/-- The slots of one magazine in the order of `magazine_alloc`. -/
def scanOrder (cpu cls : ℕ) : List ℕ :=
  (List.range (magCap cls)).map fun n => (m.recent cpu cls + n) % magCap cls

end MagMem

/-- The slots of one arena in the order of `magazine_drain`. -/
def drainOrder (arena : ℕ) : List SlotId := magSlots.map fun s => ⟨arena, s.1, s.2⟩

/-- A call of `magazine_enroll` from `magazine_refill`: the address that the allocation will
return, the segment to enroll, its class and state, and how many more the loop will try. -/
structure Enrolling where
  ret : ℕ
  seg : ℕ
  cls : ℕ
  state : MagState
  left : ℕ
  deriving DecidableEq, Repr

/-- Where a CPU stands in the code. -/
inductive MagPc
  | idle
  /-- `magazine_alloc`, before the load of the first slot of the list. -/
  | allocLoad (cls align : ℕ) (rest : List ℕ)
  /-- Before the compare and swap with the loaded token. -/
  | allocClaim (cls align i token : ℕ) (rest : List ℕ)
  /-- In `magazine_publish`, before the store of the type. -/
  | allocType (x : SlotId) (addr : ℕ)
  /-- Before the store of the token. -/
  | allocToken (x : SlotId) (addr seg : ℕ)
  /-- `magazine_free`, before the load of the first slot of the list. -/
  | freeLoad (cls addr size : ℕ) (rest : List ℕ)
  | freeClaim (cls addr size i : ℕ) (rest : List ℕ)
  | freeType (x : SlotId) (addr : ℕ)
  | freeToken (x : SlotId) (seg : ℕ)
  /-- `vas_lock_owner` of `vas_free`. -/
  | freeLock (addr size : ℕ)
  /-- Before `segment_find`, with the lock of the arena. -/
  | freeFind (addr size arena : ℕ)
  /-- Before the claim of the segment's slot. -/
  | freeSlot (addr arena : ℕ) (x : SlotId)
  /-- Before the `arena_release` of a segment that is not enrolled. -/
  | freeArena (addr arena : ℕ)
  /-- The panic of `vas_free`. -/
  | badFree
  /-- `magazine_release` of the claimed slot, before the byte counter. `rest` has the slots that
  `magazine_drain` still visits; `vas_free` has none. -/
  | releaseBytes (x : SlotId) (addr : ℕ) (rest : Option (List SlotId))
  /-- Before the pointers are cleared and the segment goes to the arena. -/
  | releaseArena (x : SlotId) (seg : ℕ) (rest : Option (List SlotId))
  /-- Before the token is cleared. -/
  | releaseToken (x : SlotId) (rest : Option (List SlotId))
  /-- Before the arena lock is left without a result. -/
  | unlock (arena : ℕ)
  /-- The locked part of `vas_alloc`. -/
  | slowLock (size : ℕ)
  | slowAlloc (size : ℕ)
  /-- `magazine_enroll`, before the load of the first slot of the list. -/
  | enrollScan (e : Enrolling) (rest : List ℕ)
  /-- Before the load of the byte counter, for the slot found. -/
  | enrollLoad (e : Enrolling) (i : ℕ)
  /-- Before the test and the compare and swap of the byte counter. -/
  | enrollBytes (e : Enrolling) (i bytes : ℕ)
  /-- Before the pointers and the type are set. -/
  | enrollType (e : Enrolling) (i : ℕ)
  /-- Before the store of the token. -/
  | enrollToken (e : Enrolling) (i : ℕ)
  /-- The loop of `magazine_refill`. -/
  | refill (ret cls left : ℕ)
  /-- `magazine_refill` gives back a segment that it could not enroll. -/
  | refillDrop (ret cls seg : ℕ)
  /-- Before the arena lock is left and the address returned. -/
  | slowReturn (addr size : ℕ)
  | drainLock (arena : ℕ)
  /-- `magazine_drain`, before the load of the first slot of the list. -/
  | drainLoad (arena : ℕ) (rest : List SlotId)
  | drainClaim (arena : ℕ) (x : SlotId) (token : ℕ) (rest : List SlotId)
  deriving DecidableEq, Repr

/-- Where `magazine_refill` goes on when `magazine_enroll` has returned `false`. -/
def Enrolling.failed (e : Enrolling) : MagPc :=
  match e.state with
  | .live => .slowReturn e.ret (magSize e.cls)
  | _ => .refillDrop e.ret e.cls e.seg

/-- The first test of `magazine_enroll`. -/
def Enrolling.entry (e : Enrolling) : MagPc :=
  if isAligned e.seg pageSize then .enrollScan e (List.range (magCap e.cls)) else e.failed

/-- The room that `magazine_enroll` computes from the loaded byte counter. -/
def magRoom (bytes : ℕ) : ℕ := (2 ^ 64 + magByteLimit - bytes) % 2 ^ 64

/-- The step after the last store of `magazine_release`. -/
def afterRelease (x : SlotId) : Option (List SlotId) → MagPc
  | none => .unlock x.arena
  | some rest => .drainLoad x.arena rest

/-- What CPU `p` may do in one atomic step. -/
inductive MagStep (p : ℕ) (m : MagMem) : MagPc → MagMem → MagPc → Prop
  -- `magazine_alloc`
  | callAlloc (cls align : ℕ) (hcls : cls < magClasses) :
      MagStep p m .idle m (.allocLoad cls align (m.scanOrder p cls))
  | allocSkip {cls align i : ℕ} {rest : List ℕ}
      (h : tokenState (m.token ⟨p, cls, i⟩) ≠ MagState.cached.code ∨
        isAligned (tokenAddr (m.token ⟨p, cls, i⟩)) align = false) :
      MagStep p m (.allocLoad cls align (i :: rest)) m (.allocLoad cls align rest)
  | allocSee {cls align i : ℕ} {rest : List ℕ}
      (h : tokenState (m.token ⟨p, cls, i⟩) = MagState.cached.code)
      (ha : isAligned (tokenAddr (m.token ⟨p, cls, i⟩)) align = true) :
      MagStep p m (.allocLoad cls align (i :: rest)) m
        (.allocClaim cls align i (m.token ⟨p, cls, i⟩) rest)
  | allocMiss {cls align : ℕ} :
      MagStep p m (.allocLoad cls align []) m (.slowLock (magSize cls))
  | allocLose {cls align i token : ℕ} {rest : List ℕ} (h : m.token ⟨p, cls, i⟩ ≠ token) :
      MagStep p m (.allocClaim cls align i token rest) m (.allocLoad cls align rest)
  | allocWin {cls align i token : ℕ} {rest : List ℕ} (h : m.token ⟨p, cls, i⟩ = token) :
      MagStep p m (.allocClaim cls align i token rest) (m.claim ⟨p, cls, i⟩ token)
        (.allocType ⟨p, cls, i⟩ (tokenAddr token))
  | allocType {x : SlotId} {addr b : ℕ} {g : SegState} (hb : (m.slot x).segment = some b)
      (hg : m.seg b = some g) :
      MagStep p m (.allocType x addr) (m.setSeg b (some { g with type := .busy }))
        (.allocToken x addr b)
  | allocToken {x : SlotId} {addr b : ℕ} :
      MagStep p m (.allocToken x addr b)
        { m.setToken x (tokenMake b .live) with held := (addr, magSize x.cls) :: m.held } .idle
  -- `magazine_free`
  | callFree {addr size : ℕ} (h : (addr, size) ∈ m.held) (hcls : magClass size < magClasses)
      (ha : isAligned addr pageSize = true) :
      MagStep p m .idle { m with held := m.held.erase (addr, size) }
        (.freeLoad (magClass size) addr size (List.range (magCap (magClass size))))
  | freeSkip {cls addr size i : ℕ} {rest : List ℕ}
      (h : m.token ⟨p, cls, i⟩ ≠ tokenMake addr .live) :
      MagStep p m (.freeLoad cls addr size (i :: rest)) m (.freeLoad cls addr size rest)
  | freeSee {cls addr size i : ℕ} {rest : List ℕ}
      (h : m.token ⟨p, cls, i⟩ = tokenMake addr .live) :
      MagStep p m (.freeLoad cls addr size (i :: rest)) m (.freeClaim cls addr size i rest)
  | freeMiss {cls addr size : ℕ} :
      MagStep p m (.freeLoad cls addr size []) m (.freeLock addr size)
  | freeLose {cls addr size i : ℕ} {rest : List ℕ}
      (h : m.token ⟨p, cls, i⟩ ≠ tokenMake addr .live) :
      MagStep p m (.freeClaim cls addr size i rest) m (.freeLoad cls addr size rest)
  | freeWin {cls addr size i : ℕ} {rest : List ℕ}
      (h : m.token ⟨p, cls, i⟩ = tokenMake addr .live) :
      MagStep p m (.freeClaim cls addr size i rest)
        (m.claim ⟨p, cls, i⟩ (tokenMake addr .live)) (.freeType ⟨p, cls, i⟩ addr)
  | freeType {x : SlotId} {addr b : ℕ} {g : SegState} (hb : (m.slot x).segment = some b)
      (hg : m.seg b = some g) :
      MagStep p m (.freeType x addr) (m.setSeg b (some { g with type := .cached }))
        (.freeToken x b)
  | freeToken {x : SlotId} {b : ℕ} :
      MagStep p m (.freeToken x b)
        { m.setToken x (tokenMake b .cached) with
          recent := update m.recent x.arena
            (update (m.recent x.arena) x.cls x.idx) } .idle
  -- the locked part of `vas_free`
  | callFreeSlow {addr size : ℕ} (h : (addr, size) ∈ m.held) :
      MagStep p m .idle { m with held := m.held.erase (addr, size) } (.freeLock addr size)
  | freeLock {addr size d : ℕ} (hd : ∀ g, m.seg addr = some g → g.arena = d)
      (hl : m.lock d = none) :
      MagStep p m (.freeLock addr size) (m.setLock d (some p)) (.freeFind addr size d)
  | freeBad {addr size d : ℕ}
      (h : ∀ g, m.seg addr = some g → g.type ≠ .busy ∨ g.length ≠ size) :
      MagStep p m (.freeFind addr size d) m .badFree
  | freeEnrolled {addr size d : ℕ} {g : SegState} {x : SlotId} (hg : m.seg addr = some g)
      (ht : g.type = .busy) (hlen : g.length = size) (hx : g.magSlot = some x) :
      MagStep p m (.freeFind addr size d) m (.freeSlot addr d x)
  | freePlain {addr size d : ℕ} {g : SegState} (hg : m.seg addr = some g) (ht : g.type = .busy)
      (hlen : g.length = size) (hx : g.magSlot = none) :
      MagStep p m (.freeFind addr size d) m (.freeArena addr d)
  | freeTwice {addr d : ℕ} {x : SlotId} (h : m.token x ≠ tokenMake addr .live) :
      MagStep p m (.freeSlot addr d x) m .badFree
  | freeSlot {addr d : ℕ} {x : SlotId} (h : m.token x = tokenMake addr .live) :
      MagStep p m (.freeSlot addr d x) (m.claim x (tokenMake addr .live))
        (.releaseBytes x addr none)
  | freeArena {addr d : ℕ} : MagStep p m (.freeArena addr d) (m.setSeg addr none) (.unlock d)
  | unlock {d : ℕ} : MagStep p m (.unlock d) (m.setLock d none) .idle
  -- `magazine_release`
  | releaseBytes {x : SlotId} {addr b : ℕ} {g : SegState} {rest : Option (List SlotId)}
      (hb : (m.slot x).segment = some b) (hg : m.seg b = some g) :
      MagStep p m (.releaseBytes x addr rest)
        { m with bytes := (m.bytes + 2 ^ 64 - g.length) % 2 ^ 64 } (.releaseArena x b rest)
  | releaseArena {x : SlotId} {b : ℕ} {rest : Option (List SlotId)} :
      MagStep p m (.releaseArena x b rest) ((m.setSegment x none).setSeg b none)
        (.releaseToken x rest)
  | releaseToken {x : SlotId} {rest : Option (List SlotId)} :
      MagStep p m (.releaseToken x rest) (m.setToken x 0) (afterRelease x rest)
  -- the locked part of `vas_alloc`, with `magazine_refill` and `magazine_enroll`
  | callAllocSlow (size : ℕ) : MagStep p m .idle m (.slowLock size)
  | slowLock {size : ℕ} (hl : m.lock p = none) :
      MagStep p m (.slowLock size) (m.setLock p (some p)) (.slowAlloc size)
  | slowFail {size : ℕ} : MagStep p m (.slowAlloc size) m (.unlock p)
  | slowPlain {size a : ℕ} (ha : m.seg a = none) :
      MagStep p m (.slowAlloc size) (m.setSeg a (some ⟨p, size, .busy, none⟩))
        (.slowReturn a size)
  | slowEnroll {size a : ℕ} (ha : m.seg a = none) (hcls : magClass size < magClasses) :
      MagStep p m (.slowAlloc size) (m.setSeg a (some ⟨p, size, .busy, none⟩))
        (Enrolling.entry ⟨a, a, magClass size, .live,
          min magRefill (magCap (magClass size)) - 1⟩)
  | enrollSkip {e : Enrolling} {i : ℕ} {rest : List ℕ} (h : m.token ⟨p, e.cls, i⟩ ≠ 0) :
      MagStep p m (.enrollScan e (i :: rest)) m (.enrollScan e rest)
  | enrollPick {e : Enrolling} {i : ℕ} {rest : List ℕ} (h : m.token ⟨p, e.cls, i⟩ = 0) :
      MagStep p m (.enrollScan e (i :: rest)) m (.enrollLoad e i)
  | enrollNone {e : Enrolling} : MagStep p m (.enrollScan e []) m e.failed
  | enrollLoad {e : Enrolling} {i : ℕ} :
      MagStep p m (.enrollLoad e i) m (.enrollBytes e i m.bytes)
  | enrollOver {e : Enrolling} {i bytes : ℕ} {g : SegState} (hg : m.seg e.seg = some g)
      (h : magRoom bytes < g.length) : MagStep p m (.enrollBytes e i bytes) m e.failed
  -- the compare and swap is a weak one: it may fail although nothing has changed
  | enrollRetry {e : Enrolling} {i bytes : ℕ} {g : SegState} (hg : m.seg e.seg = some g)
      (h : g.length ≤ magRoom bytes) :
      MagStep p m (.enrollBytes e i bytes) m (.enrollBytes e i m.bytes)
  | enrollWin {e : Enrolling} {i bytes : ℕ} {g : SegState} (hg : m.seg e.seg = some g)
      (h : g.length ≤ magRoom bytes) (hb : m.bytes = bytes) :
      MagStep p m (.enrollBytes e i bytes) { m with bytes := (bytes + g.length) % 2 ^ 64 }
        (.enrollType e i)
  | enrollType {e : Enrolling} {i : ℕ} {g : SegState} (hg : m.seg e.seg = some g) :
      MagStep p m (.enrollType e i)
        ((m.setSegment ⟨p, e.cls, i⟩ (some e.seg)).setSeg e.seg
          (some { g with type := e.state.segmentType, magSlot := some ⟨p, e.cls, i⟩ }))
        (.enrollToken e i)
  | enrollToken {e : Enrolling} {i : ℕ} :
      MagStep p m (.enrollToken e i) (m.setToken ⟨p, e.cls, i⟩ (tokenMake e.seg e.state))
        (.refill e.ret e.cls e.left)
  | refillDone {ret cls left : ℕ} :
      MagStep p m (.refill ret cls left) m (.slowReturn ret (magSize cls))
  | refillAlloc {ret cls left b : ℕ} (hb : m.seg b = none) :
      MagStep p m (.refill ret cls (left + 1))
        (m.setSeg b (some ⟨p, magSize cls, .busy, none⟩))
        (Enrolling.entry ⟨ret, b, cls, .cached, left⟩)
  | refillDrop {ret cls b : ℕ} :
      MagStep p m (.refillDrop ret cls b) (m.setSeg b none) (.slowReturn ret (magSize cls))
  | slowReturn {addr size : ℕ} :
      MagStep p m (.slowReturn addr size)
        { m.setLock p none with held := (addr, size) :: m.held } .idle
  -- `magazine_drain`
  | callDrain (d : ℕ) (hd : d < m.cpuCount) : MagStep p m .idle m (.drainLock d)
  | drainLock {d : ℕ} (hl : m.lock d = none) :
      MagStep p m (.drainLock d) (m.setLock d (some p)) (.drainLoad d (drainOrder d))
  | drainSkip {d : ℕ} {x : SlotId} {rest : List SlotId}
      (h : tokenState (m.token x) ≠ MagState.cached.code) :
      MagStep p m (.drainLoad d (x :: rest)) m (.drainLoad d rest)
  | drainSee {d : ℕ} {x : SlotId} {rest : List SlotId}
      (h : tokenState (m.token x) = MagState.cached.code) :
      MagStep p m (.drainLoad d (x :: rest)) m (.drainClaim d x (m.token x) rest)
  | drainLose {d token : ℕ} {x : SlotId} {rest : List SlotId} (h : m.token x ≠ token) :
      MagStep p m (.drainClaim d x token rest) m (.drainLoad d rest)
  | drainWin {d token : ℕ} {x : SlotId} {rest : List SlotId} (h : m.token x = token) :
      MagStep p m (.drainClaim d x token rest) (m.claim x token)
        (.releaseBytes x (tokenAddr token) (some rest))
  | drainDone {d : ℕ} : MagStep p m (.drainLoad d []) m (.unlock d)

/-- The memory and the CPUs' places in the code. -/
abbrev MagConfig := Interleaving.Config ℕ MagMem MagPc

/-- The steps of the CPUs that exist. -/
def magAct (p : ℕ) (m : MagMem) (c : MagPc) (m' : MagMem) (c' : MagPc) : Prop :=
  p < m.cpuCount ∧ MagStep p m c m' c'

/-- One atomic step of one CPU. -/
abbrev MagSysStep : MagConfig → MagConfig → Prop := Interleaving.Step magAct

/-- The space as `space_create` leaves it. -/
def magInit (cpuCount : ℕ) : MagConfig where
  mem := ⟨cpuCount, fun _ => ⟨0, none⟩, fun _ _ => 0, fun _ => none, fun _ => none, 0, []⟩
  pc _ := .idle

end Charmos.Vas
