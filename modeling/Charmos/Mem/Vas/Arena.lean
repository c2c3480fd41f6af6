import Charmos.Lib.Tiling

/-!
# Arenas of the virtual address space allocator

Data model and arena code of `kernel/mem/vas.c` and `vas_internal.h`. An arena keeps its segments
in address order. The source holds that sequence twice, as the list `all_segs` and as a red-black
tree keyed by `start`, both changed together; here it is the list `allSegs`, and a pointer to a
segment is the segment's start, by which the tree finds it. The size bins hold the starts of the
free segments, the one freed last first, and bit `k` of `binMask` says that bin `k` is in use.

A segment descriptor comes from an allocator that can fail. `tags` lists the outcomes of the
allocations to come; past its end they succeed.
-/

namespace Charmos.Vas

open Tiling

/-- `VAS_CHUNK_SIZE`, with `VAS_CHUNK_SHIFT` 26. -/
def chunkSize : ℕ := 2 ^ 26

/-- `PAGE_SIZE`. -/
def pageSize : ℕ := 4096

/-- `PAGE_2MB`. -/
def page2MB : ℕ := 2097152

/-- `VAS_BIN_COUNT`. -/
def binCount : ℕ := 64

/-- `enum vas_segment_type`. -/
inductive SegmentType
  | free
  | busy
  | imported
  | cached
  deriving DecidableEq, Repr

/-- `enum vas_mag_state`. -/
inductive MagState
  | live
  | cached
  | claimed
  deriving DecidableEq, Repr

/-- `struct vas_segment`. A pointer to a slot is the slot's class and index. -/
structure Segment where
  start : ℕ
  length : ℕ
  spanStart : ℕ
  type : SegmentType
  magSlot : Option (ℕ × ℕ)
  deriving DecidableEq, Repr

/-- The addresses of a segment. -/
def Segment.extent (s : Segment) : Extent := ⟨s.start, s.length⟩

/-- `struct vas_mag_slot`. -/
structure MagSlot where
  token : ℕ
  segment : Option ℕ
  deriving DecidableEq, Repr

/-- `struct vas_magazine`. -/
structure Magazine where
  slots : ℕ → MagSlot
  recent : ℕ

/-- `struct vas_arena`. -/
structure Arena where
  allSegs : List Segment
  freeBins : ℕ → List ℕ
  binMask : BitVec 64
  totalFree : ℕ
  magazines : ℕ → Magazine

/-- `IS_POW2`. -/
def isPow2 (x : ℕ) : Bool := decide (0 < x) && decide (x &&& (x - 1) = 0)

/-- `IS_ALIGNED`. -/
def isAligned (x align : ℕ) : Bool := decide (x &&& (align - 1) = 0)

/-- `size_to_bin`. -/
def sizeToBin (size : ℕ) : ℕ := Nat.log2 size

/-- `bin_insert`. -/
def binInsert (arena : Arena) (seg : Segment) : Arena :=
  let bin := sizeToBin seg.length
  { arena with
    freeBins := Function.update arena.freeBins bin (seg.start :: arena.freeBins bin)
    binMask := arena.binMask ||| BitVec.twoPow 64 bin }

/-- `bin_remove`. -/
def binRemove (arena : Arena) (seg : Segment) : Arena :=
  let bin := sizeToBin seg.length
  let rest := (arena.freeBins bin).erase seg.start
  { arena with
    freeBins := Function.update arena.freeBins bin rest
    binMask := if rest = [] then arena.binMask &&& ~~~ BitVec.twoPow 64 bin else arena.binMask }

/-- `segment_alloc`: whether the allocation succeeds, and the outcomes of the later ones. -/
def segmentAlloc : List Bool → Bool × List Bool
  | [] => (true, [])
  | ok :: tags => (ok, tags)

/-- A descriptor is allocated if `needed`. -/
def segmentAllocIf (needed : Prop) [Decidable needed] (tags : List Bool) : Bool × List Bool :=
  if needed then segmentAlloc tags else (true, tags)

/-- `segment_find`: the segment that holds the address. -/
def segmentFind (arena : Arena) (addr : ℕ) : Option Segment :=
  arena.allSegs.find? fun s => decide (s.start ≤ addr) && decide (addr - s.start < s.length)

/-- The segment that a pointer stands for. -/
def segmentAt (arena : Arena) (p : ℕ) : Option Segment := arena.allSegs.find? (·.start == p)

/-- `arena_init`. -/
def arenaInit : Arena where
  allSegs := []
  freeBins := fun _ => []
  binMask := 0
  totalFree := 0
  magazines := fun _ => ⟨fun _ => ⟨0, none⟩, 0⟩

/-! ### `arena_alloc` -/

/-- `(-seg->start) & (align - 1)` in 64 bits. -/
def alignPad (start align : ℕ) : ℕ := ((2 ^ 64 - start) % 2 ^ 64) &&& (align - 1)

/-- The segment can hold `size` bytes at `align`. -/
def Fits (size align : ℕ) (seg : Segment) : Prop :=
  alignPad seg.start align ≤ seg.length ∧ size ≤ seg.length - alignPad seg.start align

instance (size align : ℕ) (seg : Segment) : Decidable (Fits size align seg) :=
  inferInstanceAs (Decidable (_ ∧ _))

/-- The bins that `arena_alloc` visits: the set bits of the mask from the size's own bin on. -/
def binsFrom (arena : Arena) (size : ℕ) : List ℕ :=
  (List.range binCount).filter fun bin =>
    decide (sizeToBin size ≤ bin) && arena.binMask.getLsbD bin

/-- The segment at which the search of `arena_alloc` stops. -/
def firstFit (arena : Arena) (size align : ℕ) : Option Segment :=
  (binsFrom arena size).findSome? fun bin =>
    (arena.freeBins bin).findSome? fun p =>
      (segmentAt arena p).filter fun seg => decide (Fits size align seg)

/-- The segment at `p` is replaced by the segments of `new`. -/
def replaceSeg (p : ℕ) (new : List Segment) (segs : List Segment) : List Segment :=
  segs.flatMap fun s => if s.start = p then new else [s]

/-- The descriptor of what is left on one side of an allocation, if anything is. -/
def leftover (start length spanStart : ℕ) : List Segment :=
  if length = 0 then [] else [⟨start, length, spanStart, .free, none⟩]

/-- The descriptor of the segment found, once it describes the allocation. -/
def Segment.carved (seg : Segment) (pad size : ℕ) : Segment :=
  { seg with start := seg.start + pad, length := size, type := .busy }

/-- The part of `arena_alloc` after the last fallible operation: `seg` becomes the busy segment,
with a free one on either side where something is left. -/
def carve (arena : Arena) (seg : Segment) (pad size : ℕ) : Arena :=
  let left := leftover seg.start pad seg.spanStart
  let right := leftover (seg.start + pad + size) (seg.length - pad - size) seg.spanStart
  let arena := binRemove arena seg
  let arena := left.foldl binInsert arena
  let arena := right.foldl binInsert arena
  { arena with
    allSegs := replaceSeg seg.start (left ++ seg.carved pad size :: right) arena.allSegs
    totalFree := arena.totalFree - size }

/-- What `arena_alloc` returns: the segment if there is one, whether a descriptor was missing,
the arena and the outcomes that are left. -/
structure ArenaAlloc where
  seg : Option ℕ
  metadataFailed : Bool
  arena : Arena
  tags : List Bool

/-- `arena_alloc`. -/
def arenaAlloc (arena : Arena) (tags : List Bool) (size align : ℕ) : ArenaAlloc :=
  match firstFit arena size align with
  | none => ⟨none, false, arena, tags⟩
  | some seg =>
    let pad := alignPad seg.start align
    let tail := seg.length - pad - size
    match segmentAllocIf (pad ≠ 0) tags with
    | (false, tags) => ⟨none, true, arena, tags⟩
    | (true, tags) =>
      match segmentAllocIf (tail ≠ 0) tags with
      | (false, tags) => ⟨none, true, arena, tags⟩
      | (true, tags) => ⟨some (seg.start + pad), false, carve arena seg pad size, tags⟩

/-! ### `arena_release` -/

/-- `segments_mergeable`. -/
def segmentsMergeable (left right : Segment) : Bool :=
  decide (left.type = .free) && decide (right.type = .free) &&
    decide (left.spanStart = right.spanStart) && decide (left.length = right.start - left.start)

/-- The first half of `arena_release`: `seg` joins the segment before it. -/
def mergePrev (arena : Arena) (before : List Segment) (seg : Segment) :
    Arena × List Segment × Segment :=
  match before.getLast? with
  | none => (arena, before, seg)
  | some prev =>
    if segmentsMergeable prev seg then
      (binRemove arena prev, before.dropLast, { prev with length := prev.length + seg.length })
    else (arena, before, seg)

/-- The second half of `arena_release`: the segment after it joins `seg`. -/
def mergeNext (arena : Arena) (seg : Segment) (after : List Segment) :
    Arena × Segment × List Segment :=
  match after with
  | [] => (arena, seg, after)
  | next :: rest =>
    if segmentsMergeable seg next then
      (binRemove arena next, { seg with length := seg.length + next.length }, rest)
    else (arena, seg, after)

/-- `arena_release` of the segment at `p`. -/
def arenaRelease (arena : Arena) (p : ℕ) : Arena :=
  match arena.allSegs.dropWhile (·.start != p) with
  | [] => arena
  | seg :: after =>
    let before := arena.allSegs.takeWhile (·.start != p)
    let arena := { arena with totalFree := arena.totalFree + seg.length }
    let (arena, before, seg) := mergePrev arena before { seg with type := .free }
    let (arena, seg, after) := mergeNext arena seg after
    binInsert { arena with allSegs := before ++ seg :: after } seg

/-! ### Other changes of an arena -/

/-- The fields of the segment at `p` are changed. -/
def modifySeg (arena : Arena) (p : ℕ) (f : Segment → Segment) : Arena :=
  { arena with allSegs := arena.allSegs.map fun s => if s.start = p then f s else s }

/-- A free segment enters the arena after the last one that starts below it. -/
def insertFree (arena : Arena) (seg : Segment) : Arena :=
  let arena := binInsert arena seg
  { arena with
    allSegs := arena.allSegs.takeWhile (fun s => decide (s.start < seg.start)) ++
      seg :: arena.allSegs.dropWhile (fun s => decide (s.start < seg.start))
    totalFree := arena.totalFree + seg.length }

/-- A free segment leaves the arena. -/
def deleteFree (arena : Arena) (seg : Segment) : Arena :=
  let arena := binRemove arena seg
  { arena with
    allSegs := replaceSeg seg.start [] arena.allSegs
    totalFree := arena.totalFree - seg.length }

end Charmos.Vas
