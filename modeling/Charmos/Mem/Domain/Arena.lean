import Charmos.Mem.Domain.Basic

/-!
# Arenas and free queues

The rings in front of the buddy of a domain (`mem/domain/arena.c`, `mem/domain/free_queue.c`), and
the paths of `mem/domain/free.c` and `mem/domain/alloc.c` through them. An arena is named by its
domain and its index; a `struct buddy_page *` is a frame, or `none` for null.
-/

namespace Charmos.Mem

namespace Machine

/-- Replace arena `a` of domain `d`. -/
def setArena (s : Machine) (d a : ℕ) (arena : DomainArena) : Machine :=
  s.setDomain d { s.domain d with arena := Function.update (s.domain d).arena a arena }

/-- Replace the free queue of domain `d`. -/
def setFreeQueue (s : Machine) (d : ℕ) (fq : DomainFreeQueue) : Machine :=
  s.setDomain d { s.domain d with freeQueue := fq }

/-- `page_set_tag` on the page array. -/
def setTag (s : Machine) (page : ℕ) (tag : PageTag) : Machine :=
  { s with mem := pageSetTag s.mem page tag }

end Machine

/-! ### The rings -/

/-- `domain_arena_push`: false if the arena is full. -/
def domainArenaPush (d a : ℕ) (page : Option ℕ) : MachineM Bool := fun s => do
  let page ← derefPage page
  pageAssertTag s.mem page .none
  let arena := (s.domain d).arena a
  match arena.pages.push page with
  | none => return (false, s)
  | some pages => return (true, (s.setTag page .arena).setArena d a ⟨pages, arena.numPages + 1⟩)

/-- `domain_arena_pop`: null if the arena is empty. -/
def domainArenaPop (d a : ℕ) : MachineM (Option ℕ) := fun s => do
  let arena := (s.domain d).arena a
  match arena.pages.pop with
  | none => return (none, s)
  | some (page, pages) =>
    pageAssertTag s.mem page .arena
    return (some page, (s.setTag page .none).setArena d a ⟨pages, arena.numPages - 1⟩)

/-- `domain_free_queue_enqueue`: false if the queue is full. -/
def domainFreeQueueEnqueue (d addr pages : ℕ) : MachineM Bool := fun s =>
  let fq := (s.domain d).freeQueue
  match fq.queue.push (addr, pages) with
  | none => .ok (false, s)
  | some queue =>
    .ok (true, s.setFreeQueue d { fq with queue := queue, numElements := fq.numElements + 1 })

/-- `domain_free_queue_dequeue`: the address and the count, if the queue is not empty. -/
def domainFreeQueueDequeue (d : ℕ) : MachineM (Option (ℕ × ℕ)) := fun s =>
  let fq := (s.domain d).freeQueue
  match fq.queue.pop with
  | none => .ok (none, s)
  | some (entry, queue) =>
    .ok (some entry,
      s.setFreeQueue d { fq with queue := queue, numElements := fq.numElements - 1 })

/-- `buddy_page_for_addr`. -/
def buddyPageForAddr (address : ℕ) : MachineM (Option ℕ) := fun s =>
  .ok (pageForPfn s.mem (pageToPfn address), s)

/-! ### Freeing -/

/-- `try_push_page_onto_arena`. -/
def tryPushPageOntoArena (d a address : ℕ) : MachineM Bool := do
  let page ← buddyPageForAddr address
  domainArenaPush d a page

/-- The loop of `try_push_page_onto_domain_arenas` over the arenas left. -/
def pushOntoArenas (d : ℕ) (page : Option ℕ) : List ℕ → MachineM Bool
  | [] => pure false
  | a :: arenas => do
    if ← domainArenaPush d a page then pure true else pushOntoArenas d page arenas

/-- `try_push_page_onto_domain_arenas`. -/
def tryPushPageOntoDomainArenas (d address : ℕ) : MachineM Bool := do
  let page ← buddyPageForAddr address
  let s ← get
  pushOntoArenas d page (List.range (s.domain d).coreCount)

/-- `free_from_local_domain_buddy`, called on core `core` of domain `d`. -/
def freeFromLocalDomainBuddy (core d address pageCount : ℕ) : MachineM Unit := do
  if 1 < pageCount then freeFromBuddyInternal d address pageCount
  else
    let s ← get
    if ← tryPushPageOntoArena (s.coreDomain core) (s.coreArena core) address then pure ()
    else if ← tryPushPageOntoDomainArenas d address then pure ()
    else freeFromBuddyInternal d address pageCount

/-- `free_from_remote_domain_buddy`. -/
def freeFromRemoteDomainBuddy (d address pageCount : ℕ) : MachineM Unit := do
  if ← domainFreeQueueEnqueue d address pageCount then pure ()
  else if 1 < pageCount then freeFromBuddyInternal d address pageCount
  else if ← tryPushPageOntoDomainArenas d address then pure ()
  else freeFromBuddyInternal d address pageCount

/-- The loop of `find_non_full_arena`: the next arena with `num_pages < capacity`, and the new
value of `*current_arena_idx`. -/
def findNonFullArena (dom : DomainBuddy) : ℕ → ℕ → Option ℕ × ℕ
  | 0, idx => (none, idx)
  | fuel + 1, idx =>
    if idx + 1 < dom.coreCount then
      if (dom.arena (idx + 1)).numPages < (dom.arena (idx + 1)).pages.capacity then
        (some (idx + 1), idx + 1)
      else findNonFullArena dom fuel (idx + 1)
    else (none, idx + 1)

/-- `compute_min_elements_to_free`. -/
def computeMinElementsToFree (dom : DomainBuddy) : ℕ :=
  let slots := ((List.range dom.coreCount).map fun a =>
    (dom.arena a).pages.capacity - (dom.arena a).numPages).sum
  max (min (dom.freeQueue.numElements / 2) slots) 1

/-- The end of a round of `flush_free_queue_internal` for a single page at `addr`: into the current
arena `a`, or the next one, or the buddy. It returns the new `current_arena` and
`current_arena_idx`. The result of the second push is not looked at. -/
def flushPage (d a idx addr pageCount : ℕ) : MachineM (Option ℕ × ℕ) := do
  let page ← buddyPageForAddr addr
  if ← domainArenaPush d a page then pure (some a, idx)
  else
    let s ← get
    match findNonFullArena (s.domain d) (s.domain d).coreCount idx with
    | (none, idx) => do
      freeFromBuddyInternal d addr pageCount
      pure (none, idx)
    | (some b, idx) => do
      let _ ← domainArenaPush d b page
      pure (some b, idx)

/-- One round of `flush_free_queue_internal`, given `current_arena` and `current_arena_idx`: their
new values, or `none` when the queue is empty. -/
def flushRound (d : ℕ) (current : Option ℕ) (idx : ℕ) : MachineM (Option (Option ℕ × ℕ)) := do
  match ← domainFreeQueueDequeue d with
  | none => pure none
  | some (addr, pageCount) =>
    if addr = 0 then pure none
    else match current with
    | none => do
      freeFromBuddyInternal d addr pageCount
      pure (some (none, idx))
    | some a =>
      if 1 < pageCount then do
        freeFromBuddyInternal d addr pageCount
        pure (some (some a, idx))
      else do
        let next ← flushPage d a idx addr pageCount
        pure (some next)

/-- The loop of `flush_free_queue_internal` for the given number of rounds. -/
def flushFreeQueueInternal (d : ℕ) : ℕ → Option ℕ → ℕ → MachineM Unit
  | 0, _, _ => pure ()
  | n + 1, current, idx => do
    match ← flushRound d current idx with
    | none => pure ()
    | some (current, idx) => flushFreeQueueInternal d n current idx

/-- `mark_free_in_progress`. -/
def markFreeInProgress (s : Machine) (d : ℕ) (b : Bool) : Machine :=
  s.setFreeQueue d { (s.domain d).freeQueue with freeInProgress := b }

/-- `domain_flush_free_queue` on the free queue of domain `d`. -/
def domainFlushFreeQueue (d : ℕ) : MachineM Unit := do
  let s ← get
  if (s.domain d).freeQueue.freeInProgress then pure ()
  else if (s.domain d).coreCount = 0 then throw .nullDeref
  else
    set (markFreeInProgress s d true)
    flushFreeQueueInternal d (computeMinElementsToFree (s.domain d)) (some 0) 0
    modify fun s => markFreeInProgress s d false

/-- The part of `domain_free` that puts the pages away. -/
def freeToTarget (core address pageCount : ℕ) : MachineM Unit := do
  let s ← get
  match domainBuddyForAddr s address with
  | none => throw .nullDeref
  | some target =>
    if s.coreDomain core = target then freeFromLocalDomainBuddy core target address pageCount
    else freeFromRemoteDomainBuddy target address pageCount

/-- `domain_free`. The flush worker that it wakes runs `domain_flush_free_queue` later. -/
def domainFree (core address pageCount : ℕ) : MachineM Unit := do
  freeToTarget core address pageCount
  let s ← get
  domainFlushFreeQueue (s.coreDomain core)

/-! ### Allocating -/

/-- `domain_free_queue_available`. -/
def domainFreeQueueAvailable (dom : DomainBuddy) : Bool :=
  decide (dom.coreCount < dom.freeQueue.numElements)

/-- `domain_freequeue_flush_quota`. -/
def domainFreequeueFlushQuota (dom : DomainBuddy) : ℕ :=
  let quota := dom.freeQueue.numElements / dom.coreCount
  if quota = 0 then 1 else quota

/-- The loop of `flush_freequeue_into_local_arena` of arena `a` of domain `d`. -/
def flushFreequeueIntoLocalArena (d a : ℕ) : ℕ → MachineM Unit
  | 0 => pure ()
  | quota + 1 => do
    match ← domainFreeQueueDequeue d with
    | none => pure ()
    | some (addr, pageCount) =>
      if 1 < pageCount then do
        freeFromBuddyInternal d addr pageCount
        flushFreequeueIntoLocalArena d a quota
      else do
        if ← tryPushPageOntoArena d a addr then flushFreequeueIntoLocalArena d a quota
        else do
          freeFromBuddyInternal d addr pageCount
          flushFreequeueIntoLocalArena d a quota

/-- The loop of `try_alloc_from_remote_arenas` over the arenas left. -/
def popFromArenas (d : ℕ) : List ℕ → MachineM ℕ
  | [] => pure 0
  | a :: arenas => do
    match ← domainArenaPop d a with
    | some page => pure (pfnToPage page)
    | none => popFromArenas d arenas

/-- `try_alloc_from_remote_arenas`. -/
def tryAllocFromRemoteArenas (d pages : ℕ) : MachineM ℕ := do
  if 1 < pages then pure 0
  else
    let s ← get
    popFromArenas d (List.range (s.domain d).coreCount)

/-- `alloc_from_remote_domain`. -/
def allocFromRemoteDomain (d pages : ℕ) : MachineM ℕ := do
  let ret ← tryAllocFromRemoteArenas d pages
  if ret ≠ 0 then pure ret else allocFromBuddyInternal d pages

/-- `try_alloc_from_free_queue`, for arena `a` of domain `d`. -/
def tryAllocFromFreeQueue (d a : ℕ) : MachineM ℕ := do
  let s ← get
  if domainFreeQueueAvailable (s.domain d) then
    flushFreequeueIntoLocalArena d a (domainFreequeueFlushQuota (s.domain d))
    match ← domainArenaPop d a with
    | some page => pure (pfnToPage page)
    | none => pure 0
  else pure 0

/-- `try_alloc_from_arenas`, called on core `core`. -/
def tryAllocFromArenas (core pages : ℕ) : MachineM ℕ := do
  if 1 < pages then pure 0
  else
    let s ← get
    match ← domainArenaPop (s.coreDomain core) (s.coreArena core) with
    | some page => pure (pfnToPage page)
    | none =>
      let ret ← tryAllocFromFreeQueue (s.coreDomain core) (s.coreArena core)
      if ret ≠ 0 then pure ret else tryAllocFromRemoteArenas (s.coreDomain core) pages

/-- `total_pages - pages_used` of a domain, in `size_t`. -/
def freePages (dom : DomainBuddy) : ℕ := (dom.totalPages + 2 ^ 64 - dom.pagesUsed) % 2 ^ 64

/-- `do_alloc_interleaved`. -/
def doAllocInterleaved (core target pages : ℕ) : MachineM ℕ := do
  let s ← get
  if target = s.coreDomain core then
    let ret ← tryAllocFromArenas core pages
    if ret ≠ 0 then pure ret else allocFromBuddyInternal target pages
  else allocFromRemoteDomain target pages

/-- The attempt of `alloc_interleaved` at the domain whose turn it is. -/
def tryInterleaved (core target pages : ℕ) : MachineM ℕ := do
  let s ← get
  if pages ≤ freePages (s.domain target) then doAllocInterleaved core target pages else pure 0

/-- `alloc_interleaved`: the domains of the zonelist take turns. -/
def allocInterleaved (core pages : ℕ) : MachineM ℕ := do
  let s ← get
  let zl := (s.domain (s.coreDomain core)).zonelist
  let idx := s.rrCurrentDomain core % zl.length
  match zl[idx]? with
  | none => throw .nullDeref
  | some entry =>
    let ret ← tryInterleaved core entry.domain pages
    modify fun s => { s with
      rrCurrentDomain := Function.update s.rrCurrentDomain core ((idx + 1) % zl.length) }
    pure ret

/-- The walk of `zonelist_alloc_fallback` over the entries left. -/
def zonelistAllocFallback (best pages : ℕ) : List DomainZonelistEntry → MachineM ℕ
  | [] => pure 0
  | entry :: entries =>
    if entry.domain = best then zonelistAllocFallback best pages entries
    else do
      let ret ← allocFromRemoteDomain entry.domain pages
      if ret ≠ 0 then pure ret else zonelistAllocFallback best pages entries

/-- `derive_max_scan_from_zonelist`, for a zonelist of `count` entries. -/
def deriveMaxScanFromZonelist (count localityDegree : ℕ) : ℕ :=
  let maxScan := min ((localityDegree + 1) * count / 7) count
  if maxScan = 0 then 1 else maxScan

/-- `DISTANCE_WEIGHT`. -/
def distanceWeight : ℕ := 100000

/-- The score of a zonelist entry as an `int32_t`: lower is better. -/
def zonelistScore (entry : DomainZonelistEntry) (free : ℕ) (flexible : Bool) : ℤ :=
  let weight := if flexible then distanceWeight / 4 else distanceWeight
  (BitVec.ofNat 32 (entry.distance * weight + 2 ^ 64 - free)).toInt

/-- The choice of `alloc_with_locality` among the entries scanned: the domain with the lowest
score among those with enough free pages. -/
def pickBestDomain (s : Machine) (pages : ℕ) (flexible : Bool)
    (entries : List DomainZonelistEntry) : Option ℕ :=
  let step (best : Option (ℕ × ℤ)) (entry : DomainZonelistEntry) : Option (ℕ × ℤ) :=
    let free := freePages (s.domain entry.domain)
    if free < pages then best
    else
      let score := zonelistScore entry free flexible
      match best with
      | none => some (entry.domain, score)
      | some (_, bestScore) => if score < bestScore then some (entry.domain, score) else best
  (entries.foldl step none).map Prod.fst

/-- `alloc_with_locality`. -/
def allocWithLocality (core pages : ℕ) (flexible : Bool) (localityDegree : ℕ) : MachineM ℕ := do
  let s ← get
  let zl := (s.domain (s.coreDomain core)).zonelist
  let maxScan := if flexible then zl.length else deriveMaxScanFromZonelist zl.length localityDegree
  match pickBestDomain s pages flexible (zl.take maxScan) with
  | none => throw (.panic "domain has no zonelist")
  | some best =>
    let ret ← allocFromRemoteDomain best pages
    if ret ≠ 0 then pure ret
    else if flexible then zonelistAllocFallback best pages (zl.take maxScan)
    else pure 0

/-- `ALLOC_FLAG_CLASS(flags) == ALLOC_FLAG_CLASS(ALLOC_FLAG_CLASS_INTERLEAVED)`. -/
def isInterleaved (flags : BitVec 32) : Bool := (flags >>> 28) &&& 0xF#32 == 2#32

/-- `ALLOC_LOCALITY_FROM_FLAGS`. -/
def localityFromFlags (flags : BitVec 32) : ℕ := ((flags >>> 25) &&& 7#32).toNat

/-- `domain_alloc`, called on core `core`. -/
def domainAlloc (core pages : ℕ) (flags : BitVec 32) : MachineM ℕ := do
  if pages = 0 then throw (.enforce "pages != 0")
  else if isInterleaved flags then allocInterleaved core pages
  else
    let ret ← tryAllocFromArenas core pages
    if ret ≠ 0 then pure ret
    else
      let s ← get
      let degree := localityFromFlags flags
      let flexible := flags &&& 2#32 != 0#32 || degree == 0 || s.numaNodeCount == 1
      if degree = 7 then allocFromBuddyInternal (s.coreDomain core) pages
      else allocWithLocality core pages flexible degree

end Charmos.Mem
