import Charmos.Mem.Vas.Arena

/-!
# The virtual address space allocator

`vas_alloc`, `vas_free` and `vas_reclaim` of `kernel/mem/vas.c`, run one call at a time. A space
has a global arena over `[base, limit)`, one local arena for each CPU whose segments lie in chunks
imported from the global one, and a directory `chunkOwner` that names the CPU of each imported
chunk. A local arena has a magazine for each of four sizes: slots that hold the address of an
enrolled segment together with its state in one token.

Each call takes the calling CPU and whether magazines are enabled; `tags` gives the outcomes of
the metadata allocations. An address of `0` is the failure value, as in the source.
-/

namespace Charmos.Vas

open Function

/-- `VAS_MAG_CLASSES`. -/
def magClasses : ℕ := 4

/-- `mag_sizes`. -/
def magSizes : List ℕ := [pageSize, 5 * pageSize, 17 * pageSize, page2MB]

/-- `mag_caps`, where `VAS_MAG_CAPACITY` is 16. -/
def magCaps : List ℕ := [16, 8, 8, 2]

/-- `mag_sizes[cls]`. -/
def magSize (cls : ℕ) : ℕ := magSizes.getD cls 0

/-- `mag_caps[cls]`. -/
def magCap (cls : ℕ) : ℕ := magCaps.getD cls 0

/-- `VAS_MAG_REFILL`. -/
def magRefill : ℕ := 4

/-- `VAS_MAG_BYTE_LIMIT`. -/
def magByteLimit : ℕ := 8 * 2 ^ 20

/-- `mag_class`: the first class of this size, or `VAS_MAG_CLASSES`. -/
def magClass (size : ℕ) : ℕ := magSizes.idxOf size

/-! ### Tokens -/

/-- The numbers of `enum vas_mag_state`. -/
def MagState.code : MagState → ℕ
  | .live => 1
  | .cached => 2
  | .claimed => 3

/-- `vas_token_make`. -/
def tokenMake (addr : ℕ) (state : MagState) : ℕ := addr ||| state.code

/-- `token & VAS_MAG_STATE_MASK`. -/
def tokenState (token : ℕ) : ℕ := token % 4

/-- `token & ~VAS_MAG_STATE_MASK`. -/
def tokenAddr (token : ℕ) : ℕ := token / 4 * 4

/-! ### Magazines of one arena -/

/-- `arena->magazines[cls].slots[i]`. -/
def Arena.slot (arena : Arena) (cls i : ℕ) : MagSlot := (arena.magazines cls).slots i

/-- A slot is overwritten. -/
def Arena.setSlot (arena : Arena) (cls i : ℕ) (slot : MagSlot) : Arena :=
  let mag := arena.magazines cls
  { arena with
    magazines := update arena.magazines cls
      { mag with slots := update mag.slots i slot } }

/-- `magazine_claim`: the compare and swap of the slot's token. -/
def magazineClaim (arena : Arena) (cls i token : ℕ) : Option Arena :=
  if (arena.slot cls i).token = token then
    some (arena.setSlot cls i
      { arena.slot cls i with token := tokenMake (tokenAddr token) .claimed })
  else none

/-- The type that `magazine_publish` gives the segment. -/
def MagState.segmentType : MagState → SegmentType
  | .live => .busy
  | _ => .cached

/-- `magazine_publish`. -/
def magazinePublish (arena : Arena) (cls i : ℕ) (state : MagState) : Arena :=
  match (arena.slot cls i).segment with
  | none => arena
  | some addr =>
    let arena := modifySeg arena addr fun s => { s with type := state.segmentType }
    arena.setSlot cls i { arena.slot cls i with token := tokenMake addr state }

/-- The loop of `magazine_alloc` over the slots of the list. -/
def magazineAllocFrom (arena : Arena) (cls align : ℕ) : List ℕ → ℕ × Arena
  | [] => (0, arena)
  | i :: rest =>
    let token := (arena.slot cls i).token
    let addr := tokenAddr token
    if tokenState token ≠ MagState.cached.code ∨ isAligned addr align = false then
      magazineAllocFrom arena cls align rest
    else
      match magazineClaim arena cls i token with
      | none => magazineAllocFrom arena cls align rest
      | some arena => (addr, magazinePublish arena cls i .live)

/-- `magazine_alloc`, from the slot freed last on. -/
def magazineAlloc (arena : Arena) (cls align : ℕ) : ℕ × Arena :=
  magazineAllocFrom arena cls align
    ((List.range (magCap cls)).map fun n => ((arena.magazines cls).recent + n) % magCap cls)

/-- The loop of `magazine_free` over the slots of the list. -/
def magazineFreeFrom (arena : Arena) (cls addr : ℕ) : List ℕ → Bool × Arena
  | [] => (false, arena)
  | i :: rest =>
    let token := tokenMake addr .live
    if (arena.slot cls i).token ≠ token then magazineFreeFrom arena cls addr rest
    else
      match magazineClaim arena cls i token with
      | none => magazineFreeFrom arena cls addr rest
      | some arena =>
        let arena := magazinePublish arena cls i .cached
        (true, { arena with
          magazines := update arena.magazines cls
            { arena.magazines cls with recent := i } })

/-- `magazine_free`. -/
def magazineFree (arena : Arena) (cls addr : ℕ) : Bool × Arena :=
  if isAligned addr pageSize then magazineFreeFrom arena cls addr (List.range (magCap cls))
  else (false, arena)

/-! ### The space -/

/-- `struct vas`, with the number of CPUs and the outcomes of the metadata allocations to come. In
the directory, `none` is `VAS_OWNER_GLOBAL`. -/
structure Space where
  global : Arena
  base : ℕ
  limit : ℕ
  mapBase : ℕ
  cpuCount : ℕ
  locals : ℕ → Arena
  chunkOwner : ℕ → Option ℕ
  magReservedBytes : ℕ
  tags : List Bool

/-- How the allocator panics. -/
inductive Panic
  | corruption
  | badFree
  | badOwner
  deriving DecidableEq, Repr

/-- The arena that a directory entry stands for. -/
def Space.arena (vas : Space) : Option ℕ → Arena
  | none => vas.global
  | some cpu => vas.locals cpu

/-- The arena of a directory entry is overwritten. -/
def Space.setArena (vas : Space) (arena : Arena) : Option ℕ → Space
  | none => { vas with global := arena }
  | some cpu => { vas with locals := update vas.locals cpu arena }

/-- `owner_index`. -/
def ownerIndex (vas : Space) (addr : ℕ) : ℕ := (addr - vas.mapBase) / chunkSize

/-- `arena_alloc` on one of the arenas: the segment, whether a descriptor was missing, and the
space. -/
def allocIn (vas : Space) (owner : Option ℕ) (size align : ℕ) : Option ℕ × Bool × Space :=
  let r := arenaAlloc (vas.arena owner) vas.tags size align
  (r.seg, r.metadataFailed, { vas.setArena r.arena owner with tags := r.tags })

/-- `magazine_enroll` of the segment at `addr`. -/
def magazineEnroll (vas : Space) (cpu addr cls : ℕ) (state : MagState) : Bool × Space :=
  let arena := vas.locals cpu
  if isAligned addr pageSize then
    match (List.range (magCap cls)).find? fun i => decide ((arena.slot cls i).token = 0) with
    | none => (false, vas)
    | some i =>
      let length := ((segmentAt arena addr).map Segment.length).getD 0
      if (2 ^ 64 + magByteLimit - vas.magReservedBytes) % 2 ^ 64 < length then (false, vas)
      else
        let arena := modifySeg arena addr fun s => { s with magSlot := some (cls, i) }
        let arena := arena.setSlot cls i { arena.slot cls i with segment := some addr }
        (true, { vas.setArena (magazinePublish arena cls i state) (some cpu) with
          magReservedBytes := vas.magReservedBytes + length })
  else (false, vas)

/-- The loop of `magazine_refill`: at most `n` more segments are enrolled. -/
def refillLoop (cpu cls align : ℕ) : ℕ → Space → Space
  | 0, vas => vas
  | n + 1, vas =>
    match allocIn vas (some cpu) (magSize cls) align with
    | (none, _, vas) => vas
    | (some addr, _, vas) =>
      match magazineEnroll vas cpu addr cls .cached with
      | (true, vas) => refillLoop cpu cls align n vas
      | (false, vas) => vas.setArena (arenaRelease (vas.locals cpu) addr) (some cpu)

/-- `magazine_refill` after the allocation of the segment at `addr`. -/
def magazineRefill (vas : Space) (cpu : ℕ) (enabled : Bool) (addr align : ℕ) : Space :=
  let cls := magClass (((segmentAt (vas.locals cpu) addr).map Segment.length).getD 0)
  if enabled = false ∨ cls = magClasses then vas
  else
    match magazineEnroll vas cpu addr cls .live with
    | (false, vas) => vas
    | (true, vas) => refillLoop cpu cls align (min magRefill (magCap cls) - 1) vas

/-- `magazine_release` of a claimed slot. -/
def magazineRelease (vas : Space) (owner : Option ℕ) (cls i : ℕ) : Space :=
  let arena := vas.arena owner
  match (arena.slot cls i).segment with
  | none => vas
  | some addr =>
    let length := ((segmentAt arena addr).map Segment.length).getD 0
    let arena := modifySeg arena addr fun s => { s with magSlot := none }
    let arena := arenaRelease arena addr
    { vas.setArena (arena.setSlot cls i ⟨0, none⟩) owner with
      magReservedBytes := vas.magReservedBytes - length }

/-- One slot of `magazine_drain`. -/
def drainSlot (cpu : ℕ) (vas : Space) (slot : ℕ × ℕ) : Space :=
  let arena := vas.locals cpu
  let token := (arena.slot slot.1 slot.2).token
  if tokenState token ≠ MagState.cached.code then vas
  else
    match magazineClaim arena slot.1 slot.2 token with
    | none => vas
    | some arena => magazineRelease (vas.setArena arena (some cpu)) (some cpu) slot.1 slot.2

/-- The slots of the magazines, in the order of `magazine_drain`. -/
def magSlots : List (ℕ × ℕ) :=
  (List.range magClasses).flatMap fun cls => (List.range (magCap cls)).map fun i => (cls, i)

/-- `magazine_drain`. -/
def magazineDrain (vas : Space) (cpu : ℕ) : Space := magSlots.foldl (drainSlot cpu) vas

/-- The body of the loop of `reclaim_locked` over the segments of one arena. -/
def reclaimSeg (cpu : ℕ) (vas : Space) (seg : Segment) : Except Panic Space :=
  if seg.type ≠ .free ∨ seg.start ≠ seg.spanStart ∨ seg.length ≠ chunkSize then .ok vas
  else
    match segmentFind vas.global seg.start with
    | none => .error .corruption
    | some parent =>
      if parent.start = seg.start ∧ parent.length = chunkSize ∧ parent.type = .imported then
        let vas := vas.setArena (deleteFree (vas.locals cpu) seg) (some cpu)
        .ok { vas with
          global := arenaRelease vas.global parent.start
          chunkOwner := update vas.chunkOwner (ownerIndex vas seg.start) none }
      else .error .corruption

/-- The part of `reclaim_locked` for one CPU. The loop removes no segment but the current one, so
it visits the segments that stood in the list when it began. -/
def reclaimCpu (vas : Space) (cpu : ℕ) : Except Panic Space :=
  let vas := magazineDrain vas cpu
  (vas.locals cpu).allSegs.foldlM (reclaimSeg cpu) vas

/-- `reclaim_locked`. -/
def reclaimLocked (vas : Space) : Except Panic Space :=
  (List.range vas.cpuCount).foldlM reclaimCpu vas

/-- What the stages of `vas_alloc` return. -/
structure AllocResult where
  addr : ℕ
  metadataFailed : Bool
  vas : Space

/-- The part of `import_alloc` after the global arena gave the chunk at `parent`. -/
def importChunk (vas : Space) (cpu : ℕ) (enabled : Bool) (size align parent : ℕ) : AllocResult :=
  let vas := { vas with
    global := modifySeg vas.global parent fun s => { s with type := .imported } }
  let seg : Segment := ⟨parent, chunkSize, parent, .free, none⟩
  let vas := vas.setArena (insertFree (vas.locals cpu) seg) (some cpu)
  match allocIn vas (some cpu) size align with
  | (none, failed, vas) =>
    let vas := vas.setArena (deleteFree (vas.locals cpu) seg) (some cpu)
    ⟨0, failed, { vas with global := arenaRelease vas.global parent }⟩
  | (some addr, _, vas) =>
    let vas := { vas with
      chunkOwner := update vas.chunkOwner (ownerIndex vas parent) (some cpu) }
    ⟨addr, false, magazineRefill vas cpu enabled addr align⟩

/-- `import_alloc`. -/
def importAlloc (vas : Space) (cpu : ℕ) (enabled : Bool) (size align : ℕ) : AllocResult :=
  match segmentAlloc vas.tags with
  | (false, tags) => ⟨0, true, { vas with tags := tags }⟩
  | (true, tags) =>
    match allocIn { vas with tags := tags } none chunkSize chunkSize with
    | (none, failed, vas) => ⟨0, failed, vas⟩
    | (some parent, _, vas) => importChunk vas cpu enabled size align parent

/-- The first stage of `vas_alloc`: the CPU's magazine of the size. -/
def magazineStage (vas : Space) (cpu : ℕ) (enabled : Bool) (size align : ℕ) : ℕ × Space :=
  if magClass size < magClasses ∧ enabled = true then
    let (addr, arena) := magazineAlloc (vas.locals cpu) (magClass size) align
    (addr, vas.setArena arena (some cpu))
  else (0, vas)

/-- The second stage of `vas_alloc`: the CPU's own arena. -/
def localStage (vas : Space) (cpu : ℕ) (enabled : Bool) (size align : ℕ) : AllocResult :=
  match allocIn vas (some cpu) size align with
  | (none, failed, vas) => ⟨0, failed, vas⟩
  | (some addr, failed, vas) => ⟨addr, failed, magazineRefill vas cpu enabled addr align⟩

/-- `local_request` of `vas_alloc`. -/
def localRequest (size align : ℕ) : Bool := decide (size ≤ chunkSize) && decide (align ≤ chunkSize)

/-- One attempt under the global lock: an import, then the global arena. -/
def globalAttempt (vas : Space) (cpu : ℕ) (enabled : Bool) (size align : ℕ) : AllocResult :=
  let r := if localRequest size align then importAlloc vas cpu enabled size align else
    ⟨0, false, vas⟩
  if r.addr = 0 ∧ r.metadataFailed = false then
    match allocIn r.vas none size align with
    | (none, failed, vas) => ⟨0, failed, vas⟩
    | (some addr, failed, vas) => ⟨addr, failed, vas⟩
  else r

/-- The third stage of `vas_alloc`: two attempts with a reclaim between them. -/
def globalStage (vas : Space) (cpu : ℕ) (enabled : Bool) (size align : ℕ) :
    Except Panic AllocResult :=
  let r := globalAttempt vas cpu enabled size align
  if r.addr ≠ 0 ∨ r.metadataFailed = true then .ok r
  else do
    let vas ← reclaimLocked r.vas
    return globalAttempt vas cpu enabled size align

/-- `vas_alloc`. -/
def vasAlloc (vas : Space) (cpu : ℕ) (enabled : Bool) (size align : ℕ) :
    Except Panic AllocResult :=
  if size = 0 ∨ isPow2 align = false ∨ vas.limit - vas.base < size then .ok ⟨0, false, vas⟩
  else
    let (addr, vas) := magazineStage vas cpu enabled size align
    if addr ≠ 0 then .ok ⟨addr, false, vas⟩
    else
      let r := if localRequest size align then localStage vas cpu enabled size align
        else ⟨0, false, vas⟩
      if r.addr ≠ 0 ∨ r.metadataFailed = true then .ok r
      else globalStage r.vas cpu enabled size align

/-- The second half of `vas_free`: the segment leaves the arena that the directory names for it. -/
def freeOwned (vas : Space) (addr size : ℕ) : Except Panic Space :=
  let owner := vas.chunkOwner (ownerIndex vas addr)
  if owner.any (fun cpu => decide (vas.cpuCount ≤ cpu)) then .error .badOwner
  else
    match segmentFind (vas.arena owner) addr with
    | none => .error .badFree
    | some seg =>
      if seg.type ≠ .busy ∨ seg.start ≠ addr ∨ seg.length ≠ size then .error .badFree
      else
        match seg.magSlot with
        | none => .ok (vas.setArena (arenaRelease (vas.arena owner) addr) owner)
        | some (cls, i) =>
          match magazineClaim (vas.arena owner) cls i (tokenMake addr .live) with
          | none => .error .badFree
          | some arena => .ok (magazineRelease (vas.setArena arena owner) owner cls i)

/-- `vas_free`. -/
def vasFree (vas : Space) (cpu : ℕ) (enabled : Bool) (addr size : ℕ) : Except Panic Space :=
  if addr < vas.base ∨ vas.limit ≤ addr ∨ size = 0 ∨ vas.limit - addr < size then .error .badFree
  else
    let (done, arena) :=
      if magClass size < magClasses ∧ enabled = true then
        magazineFree (vas.locals cpu) (magClass size) addr
      else (false, vas.locals cpu)
    if done then .ok (vas.setArena arena (some cpu)) else freeOwned vas addr size

/-- `vas_reclaim`. -/
def vasReclaim (vas : Space) : Except Panic Space := reclaimLocked vas

/-- `space_create`, where the storage of the space and its first descriptor can be missing. -/
def spaceCreate (base limit cpuCount : ℕ) (storage : Bool) (tags : List Bool) : Option Space :=
  if base = 0 ∨ limit ≤ base ∨ storage = false then none
  else
    match segmentAlloc tags with
    | (false, _) => none
    | (true, tags) => some
      { global := insertFree arenaInit ⟨base, limit - base, 0, .free, none⟩
        base := base
        limit := limit
        mapBase := base / chunkSize * chunkSize
        cpuCount := cpuCount
        locals := fun _ => arenaInit
        chunkOwner := fun _ => none
        magReservedBytes := 0
        tags := tags }

end Charmos.Vas
