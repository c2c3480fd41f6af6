import Charmos.Lib.RingBuffer
import Charmos.Lib.Triple
import Charmos.Mem.Buddy.Free

/-!
# NUMA domains over the buddy allocator

Physical memory is divided into domains, contiguous ranges of frames that share the one page
array but have their own free areas. A domain caches single pages in one ring per core, its
arenas, and receives blocks freed from other domains in a ring of its own, its free queue
(`mem/domain/internal.h`). This file has the data, the partition of the frames that
`domain_buddies_init` makes, and the calls into the buddy allocator.

All functions are state transformers on the machine, which fail when the kernel panics. Statistics
counters and locks are left out: nothing here reads the former, and calls run one after another.
-/

namespace Charmos.Mem

open List Function

/-- `struct domain_arena`: a ring of single pages, given by their frames. -/
structure DomainArena where
  pages : RingBuffer ℕ
  numPages : ℕ

/-- `struct domain_free_queue`: a ring of addresses and page counts. -/
structure DomainFreeQueue where
  queue : RingBuffer (ℕ × ℕ)
  numElements : ℕ
  freeInProgress : Bool

/-- `struct domain_zonelist_entry`, the domain given by its index. -/
structure DomainZonelistEntry where
  domain : ℕ
  distance : ℕ

/-- `struct domain_buddy`. The bounds `start` and `stop` (`end` in the source) and `length` are
in bytes; `arena i` is meaningful for `i < coreCount`. -/
structure DomainBuddy where
  zonelist : List DomainZonelistEntry
  freeArea : ℕ → BuddyFreeArea
  arena : ℕ → DomainArena
  coreCount : ℕ
  freeQueue : DomainFreeQueue
  start : ℕ
  stop : ℕ
  length : ℕ
  pagesUsed : ℕ
  totalPages : ℕ

/-- The part of `mem_global`, `topo_global` and the per-core data that the domain layer uses. Core
`c` belongs to the domain `coreDomain c` and owns its arena number `coreArena c`. -/
structure Machine where
  mem : PageMem
  domain : ℕ → DomainBuddy
  domainCount : ℕ
  numaNodeCount : ℕ
  coreDomain : ℕ → ℕ
  coreArena : ℕ → ℕ
  rrCurrentDomain : ℕ → ℕ

/-- Code that runs on the machine. -/
abbrev MachineM := StateT Machine (Except Crash)

namespace Machine

variable (s : Machine)

/-- Replace the data of domain `d`. -/
def setDomain (d : ℕ) (dom : DomainBuddy) : Machine :=
  { s with domain := update s.domain d dom }

/-- The free areas of domain `d` over the shared page array. -/
def buddy (d : ℕ) : BuddyState := ⟨s.mem, (s.domain d).freeArea⟩

/-- Replace the page array, and the free areas and `pages_used` of domain `d`. -/
def setBuddy (d : ℕ) (b : BuddyState) (pagesUsed : ℕ) : Machine :=
  { s with
    mem := b.mem
    domain := update s.domain d
      { s.domain d with freeArea := b.area, pagesUsed := pagesUsed } }

end Machine

/-! ### Dividing the frames -/

/-- The bounds that a domain gets, in bytes. -/
structure DomainSpan where
  start : ℕ
  stop : ℕ
  length : ℕ

/-- The span of the frames `lo, …, hi - 1`. -/
def spanOf (lo hi : ℕ) : DomainSpan := ⟨pfnToPage lo, pfnToPage hi, pfnToPage (hi - lo)⟩

/-- The domains are the intervals between consecutive bounds, which run from `0` to `last_pfn`;
`total_pages` is what `domain_buddy_track_pages` computes. -/
structure Partition (s : Machine) (bound : ℕ → ℕ) : Prop where
  mono : Monotone bound
  first : bound 0 = 0
  last : bound s.domainCount = s.mem.lastPfn
  span : ∀ d < s.domainCount,
    (⟨(s.domain d).start, (s.domain d).stop, (s.domain d).length⟩ : DomainSpan) =
      spanOf (bound d) (bound (d + 1))
  total : ∀ d < s.domainCount, (s.domain d).totalPages = (s.domain d).length / pageSize

/-! ### Calls into the buddy allocator -/

/-- `domain_buddy_for_addr`: the first domain whose bounds contain the address. -/
def domainBuddyForAddr (s : Machine) (addr : ℕ) : Option ℕ :=
  (range s.domainCount).find? fun i =>
    decide ((s.domain i).start ≤ addr) && decide (addr < (s.domain i).stop)

/-- `alloc_from_buddy_internal` on domain `d`. -/
def allocFromBuddyInternal (d pages : ℕ) : MachineM ℕ := fun s => do
  let (ret, b) ← buddyAllocPages (s.buddy d) pages
  let used := (s.domain d).pagesUsed
  return (ret, s.setBuddy d b (if ret = 0 then used else (used + pages) % 2 ^ 64))

/-- `free_from_buddy_internal` on domain `d`. -/
def freeFromBuddyInternal (d address pageCount : ℕ) : MachineM Unit := fun s => do
  let b ← buddyFreePages (s.buddy d) address pageCount (s.domain d).totalPages
  let used := (s.domain d).pagesUsed
  return ((), s.setBuddy d b ((used + 2 ^ 64 - pageCount % 2 ^ 64) % 2 ^ 64))

theorem allocFromBuddyInternal_ok {d pages ret : ℕ} {s s' : Machine}
    (h : (allocFromBuddyInternal d pages).run s = .ok (ret, s')) :
    ∃ b used, buddyAllocPages (s.buddy d) pages = .ok (ret, b) ∧ s' = s.setBuddy d b used := by
  simp only [StateT.run, allocFromBuddyInternal] at h
  cases hb : buddyAllocPages (s.buddy d) pages with
  | error e => rw [hb] at h; cases h
  | ok r =>
    obtain ⟨r, b⟩ := r
    rw [hb] at h
    obtain ⟨⟩ := h
    exact ⟨b, _, rfl, rfl⟩

theorem freeFromBuddyInternal_ok_iff {d address pageCount : ℕ} {s s' : Machine} :
    (freeFromBuddyInternal d address pageCount).run s = .ok ((), s') ↔
      ∃ b, buddyFreePages (s.buddy d) address pageCount (s.domain d).totalPages = .ok b ∧
        s' = s.setBuddy d b
          (((s.domain d).pagesUsed + 2 ^ 64 - pageCount % 2 ^ 64) % 2 ^ 64) := by
  simp only [StateT.run, freeFromBuddyInternal]
  constructor
  · intro h
    cases hb : buddyFreePages (s.buddy d) address pageCount (s.domain d).totalPages with
    | error e => rw [hb] at h; cases h
    | ok b =>
      rw [hb] at h
      obtain ⟨-, rfl⟩ := Prod.mk.inj (Except.ok.inj h)
      exact ⟨b, rfl, rfl⟩
  · rintro ⟨b, hb, rfl⟩
    rw [hb]
    rfl

end Charmos.Mem
