import Mathlib.Tactic.Ring

/-!
# The boot bitmap allocator

Before the buddy allocator is there, pages are taken from a bitmap. `bitmap_alloc_pages` scans it
from the index of the last allocation and then once more from the start. The length of the run that
the first scan was in at the end of the bitmap is kept for the second one, and a run at page 0 gives
the address that stands for a failure. `bitmapAllocPages_iff` says for which bitmaps the allocation
is right.
-/

namespace Charmos.BootBitmap

/-- `BOOT_BITMAP_SIZE`, in bytes: 128 MiB of pages. -/
def bootBitmapSize : ℕ := 128 * 2 ^ 20 / 4096 / 8

def toBits (bytes : ℕ) : ℕ := bytes * 8

/-- The number of bits of the bitmap, one for each page. -/
def pages : ℕ := toBits bootBitmapSize

/-- The bit of an index is bit `index % 8` of byte `index / 8`; it is set for a page in use. -/
abbrev Bitmap := ℕ → Bool

def testBit (b : Bitmap) (index : ℕ) : Bool :=
  if index / 8 ≥ bootBitmapSize then false else b index

def setBit (b : Bitmap) (index : ℕ) : Bitmap :=
  if index / 8 ≥ bootBitmapSize then b else Function.update b index true

/-- The loop of both scans, with the bits that are left, the index, `consecutive` and `start_index`:
the start of the run that was found, or the two at the end of the bitmap. -/
def scan (b : Bitmap) (count : ℕ) : ℕ → ℕ → ℕ × ℕ → ℕ ⊕ ℕ × ℕ
  | 0, _, run => .inr run
  | left + 1, i, (consecutive, startIndex) =>
    if testBit b i then scan b count left (i + 1) (0, startIndex)
    else
      let startIndex := if consecutive = 0 then i else startIndex
      if consecutive + 1 = count then .inl startIndex
      else scan b count left (i + 1) (consecutive + 1, startIndex)

/-- Both scans, the second with the `consecutive` and the `start_index` of the first. -/
def findRun (b : Bitmap) (last count : ℕ) : Option ℕ :=
  match scan b count (pages - last) last (0, 0) with
  | .inl start => some start
  | .inr run =>
    match scan b count (pages) 0 run with
    | .inl start => some start
    | .inr _ => none

structure BitmapState where
  bits : Bitmap
  lastAllocatedIndex : ℕ

/-- `bitmap_alloc_pages`: the address and the state after it, or `none` where the kernel panics. -/
def bitmapAllocPages (s : BitmapState) (count : ℕ) : Option (ℕ × BitmapState) :=
  if count = 0 then none
  else match findRun s.bits s.lastAllocatedIndex count with
    | none => some (0, s)
    | some start => some (start * 4096,
        { bits := (List.range count).foldl (fun b i => setBit b (start + i)) s.bits
          lastAllocatedIndex := start })

/-! ### Runs of free pages -/

/-- The `k` pages from `i` on are not in use. -/
def Clear (b : Bitmap) (i k : ℕ) : Prop :=
  ∀ j, i ≤ j → j < i + k → testBit b j = false

/-- The bitmap has a run of `k` free pages at `i`. -/
def FreeRun (b : Bitmap) (i k : ℕ) : Prop :=
  i + k ≤ pages ∧ Clear b i k

/-- No run of `count` pages starts at `last` or behind it, and a free part at the end of the bitmap
and one at its start have `count` pages together. -/
def Straddles (b : Bitmap) (last count : ℕ) : Prop :=
  (∀ r, last ≤ r → ¬ FreeRun b r count) ∧
    ∃ t, 0 < t ∧ t < count ∧ last + t ≤ pages ∧ FreeRun b (pages - t) t ∧ FreeRun b 0 (count - t)

/-- The run at page 0 is the one that is taken. -/
def TakesZero (b : Bitmap) (last count : ℕ) : Prop :=
  FreeRun b 0 count ∧ (last = 0 ∨ ∀ r, last ≤ r → ¬ FreeRun b r count)

variable {b : Bitmap} {c c' count i k last n r s s' : ℕ}

theorem Clear.sub {j l : ℕ} (h : Clear b i k) (hij : i ≤ j) (hle : j + l ≤ i + k) : Clear b j l :=
  fun x hx hlt => h x (by omega) (by omega)

theorem Clear.cons (hi : testBit b i = false) (h : Clear b (i + 1) n) : Clear b i (n + 1) := by
  intro j hj hlt
  rcases Nat.eq_or_lt_of_le hj with rfl | hj
  · exact hi
  · exact h j hj (by omega)

theorem not_clear (hi : testBit b i = true) (hr : r ≤ i) (hlt : i < r + n) : ¬ Clear b r n := by
  intro h
  rw [h i hr hlt] at hi
  cases hi

/-- A run that a scan finds has begun before it or where it begins, or it is a later one. -/
theorem scan_found (hc : c < count) (h : scan b count n i (c, s) = .inl r) :
    (r = (if c = 0 then i else s) ∧ count ≤ c + n ∧ Clear b i (count - c)) ∨
      (i < r ∧ r + count ≤ i + n ∧ Clear b r count ∧ ¬ Clear b i (count - c)) := by
  induction n generalizing i c s with
  | zero => cases h
  | succ n ih =>
    simp only [scan] at h
    split at h
    case isTrue hi =>
      have hnot : ¬ Clear b i (count - c) := not_clear hi (Nat.le_refl i) (by omega)
      rcases ih (Nat.zero_lt_of_lt hc) h with ⟨hr, hle, hclear⟩ | ⟨hlt, hle, hclear, -⟩
      · rw [if_pos rfl] at hr
        subst hr
        exact .inr ⟨by omega, by omega, hclear, hnot⟩
      · exact .inr ⟨by omega, by omega, hclear, hnot⟩
    case isFalse hi =>
      have hi : testBit b i = false := by simpa using hi
      split at h
      case isTrue hcount =>
        obtain rfl := Sum.inl.inj h
        rw [← hcount, Nat.add_sub_cancel_left]
        exact .inl ⟨rfl, by omega, Clear.cons hi fun j hj hlt => by omega⟩
      case isFalse hcount =>
        rcases ih (by omega) h with ⟨hr, hle, hclear⟩ | ⟨hlt, hle, hclear, hnot⟩
        · rw [if_neg (Nat.succ_ne_zero c)] at hr
          rw [show count - c = count - (c + 1) + 1 by omega]
          exact .inl ⟨hr, by omega, hclear.cons hi⟩
        · refine .inr ⟨by omega, by omega, hclear, fun hall => hnot ?_⟩
          exact hall.sub (by omega) (by omega)

/-- A scan that finds nothing has met no run, and `consecutive` is the length of the free part at
its end. -/
theorem scan_end (hc : c < count) (h : scan b count n i (c, s) = .inr (c', s')) :
    (∀ r, i ≤ r → r + count ≤ i + n → ¬ Clear b r count) ∧
      (count ≤ c + n → ¬ Clear b i (count - c)) ∧ c' < count ∧
      (c' = c + n ∧ Clear b i n ∧ (0 < c' → s' = if c = 0 then i else s) ∨
        c' < n ∧ Clear b (i + n - c') c' ∧ testBit b (i + n - c' - 1) = true ∧
          (0 < c' → s' = i + n - c')) := by
  induction n generalizing i c s with
  | zero =>
    obtain ⟨rfl, rfl⟩ := Prod.mk.inj (Sum.inr.inj h)
    refine ⟨by omega, by omega, hc, .inl ⟨rfl, fun j hj hlt => by omega, fun hpos => ?_⟩⟩
    rw [if_neg (by omega)]
  | succ n ih =>
    have hend : i + 1 + n = i + (n + 1) := by omega
    simp only [scan] at h
    split at h
    case isTrue hi =>
      obtain ⟨hruns, -, hlt, htail⟩ := ih (Nat.zero_lt_of_lt hc) h
      rw [hend] at hruns htail
      refine ⟨fun r hr hle => ?_, fun _ => not_clear hi (by omega) (by omega), hlt, .inr ?_⟩
      · rcases Nat.eq_or_lt_of_le hr with rfl | hr
        · exact not_clear hi (by omega) (by omega)
        · exact hruns r hr hle
      · rcases htail with ⟨hc', hclear, hs⟩ | ⟨hlt', hclear, hused, hs⟩
        · rw [show i + (n + 1) - c' = i + 1 by omega, show c' = n by omega]
          exact ⟨by omega, hclear, hi, fun hpos => hs (by omega)⟩
        · exact ⟨by omega, hclear, hused, hs⟩
    case isFalse hi =>
      have hi : testBit b i = false := by simpa using hi
      split at h
      case isTrue => cases h
      case isFalse hcount =>
        obtain ⟨hruns, hnot, hlt, htail⟩ := ih (by omega) h
        rw [hend] at hruns htail
        have hfirst : count ≤ c + (n + 1) → ¬ Clear b i (count - c) := fun hle hall =>
          hnot (by omega) (hall.sub (by omega) (by omega))
        refine ⟨fun r hr hle hall => ?_, hfirst, hlt, ?_⟩
        · rcases Nat.eq_or_lt_of_le hr with rfl | hr
          · exact hfirst (by omega) (hall.sub (by omega) (by omega))
          · exact hruns r hr hle hall
        · rcases htail with ⟨hc', hclear, hs⟩ | ⟨hlt', hclear, hused, hs⟩
          · refine .inl ⟨by omega, hclear.cons hi, fun hpos => ?_⟩
            rw [hs hpos, if_neg (Nat.succ_ne_zero c)]
          · exact .inr ⟨by omega, hclear, hused, hs⟩

/-! ### Allocating -/

/-- What the first scan leaves when it finds nothing: the free part at the end of the bitmap. -/
private theorem scan_tail (hcount : 0 < count)
    (h : scan b count (pages - last) last (0, 0) = .inr (c, s)) :
    (∀ r, last ≤ r → ¬ FreeRun b r count) ∧ c < count ∧
      (0 < c → s = pages - c ∧ last + c ≤ pages ∧ Clear b (pages - c) c) ∧
      ∀ t, last + t ≤ pages → Clear b (pages - t) t → t ≤ c := by
  obtain ⟨hruns, -, hc, htail⟩ := scan_end hcount h
  refine ⟨fun r hr hfree => hruns r hr (by have := hfree.1; omega) hfree.2, hc, ?_⟩
  rcases htail with ⟨hlen, hclear, hs⟩ | ⟨hlt, hclear, hused, hs⟩
  · refine ⟨fun hpos => ⟨?_, by omega, hclear.sub (by omega) (by omega)⟩, by omega⟩
    rw [hs hpos, if_pos rfl]
    omega
  · have hend : last + (pages - last) = pages := by omega
    rw [hend] at hclear hused hs
    refine ⟨fun hpos => ⟨hs hpos, by omega, hclear⟩, fun t hlast ht => ?_⟩
    by_contra hlt'
    exact not_clear hused (by omega) (by omega) ht

/-- What the two scans find. -/
theorem findRun_cases (b : Bitmap) (last : ℕ) (hcount : 0 < count) :
    (∃ r, findRun b last count = some r ∧ FreeRun b r count ∧ ¬ Straddles b last count ∧
      (r = 0 ↔ TakesZero b last count)) ∨
    (∃ r, findRun b last count = some r ∧ r < pages ∧ pages < r + count ∧ testBit b r = false ∧
      Straddles b last count) ∨
    (findRun b last count = none ∧ ¬ Straddles b last count ∧ ∀ r, ¬ FreeRun b r count) := by
  unfold findRun
  split
  case h_1 r hfirst =>
    have hrun : last ≤ r ∧ FreeRun b r count ∧ (Clear b last count → r = last) := by
      rcases scan_found hcount hfirst with ⟨hr, hle, hclear⟩ | ⟨hlt, hle, hclear, hnot⟩
      · rw [if_pos rfl] at hr
        subst hr
        exact ⟨Nat.le_refl _, ⟨by omega, hclear⟩, fun _ => rfl⟩
      · exact ⟨by omega, ⟨by omega, hclear⟩, fun h => absurd h hnot⟩
    obtain ⟨hle, hfree, hfirst⟩ := hrun
    refine .inl ⟨r, rfl, hfree, fun hs => hs.1 r hle hfree, ?_, ?_⟩
    · rintro rfl
      exact ⟨hfree, .inl (by omega)⟩
    · rintro ⟨hzero, rfl | hnone⟩
      · exact hfirst hzero.2
      · exact absurd hfree (hnone r hle)
  case h_2 run hfirst =>
    obtain ⟨c, s⟩ := run
    obtain ⟨hnone, hc, hpart, hmax⟩ := scan_tail hcount hfirst
    have hstraddle : Straddles b last count ↔ 0 < c ∧ count ≤ c + pages ∧ Clear b 0 (count - c) :=
      by
      refine ⟨?_, ?_⟩
      · rintro ⟨-, t, ht, hlt, hlast, hend, hstart⟩
        have hle := hmax t hlast hend.2
        have := hstart.1
        exact ⟨by omega, by omega, hstart.2.sub (Nat.le_refl 0) (by omega)⟩
      · rintro ⟨hpos, hle, hstart⟩
        obtain ⟨-, hlast, hend⟩ := hpart hpos
        exact ⟨hnone, c, hpos, hc, hlast, ⟨by omega, hend⟩, by omega, hstart⟩
    split
    case h_1 r hsecond =>
      rcases scan_found hc hsecond with ⟨hr, hle, hclear⟩ | ⟨hlt, hle, hclear, hnot⟩
      · by_cases hzero : c = 0
        · rw [if_pos hzero] at hr
          subst hzero hr
          have hfree : FreeRun b 0 count := ⟨by omega, hclear⟩
          refine .inl ⟨0, rfl, hfree, fun hs => ?_, iff_of_true rfl ⟨hfree, .inr hnone⟩⟩
          exact absurd (hstraddle.mp hs).1 (Nat.lt_irrefl 0)
        · -- the run goes on from the end of the bitmap to its start
          obtain ⟨hs, hlast, hend⟩ := hpart (by omega)
          rw [if_neg hzero, hs] at hr
          refine .inr (.inl ⟨r, rfl, by omega, by omega, ?_, hstraddle.mpr ⟨by omega, hle, hclear⟩⟩)
          exact hend r (by omega) (by omega)
      · refine .inl ⟨r, rfl, ⟨by omega, hclear⟩, fun hs => hnot (hstraddle.mp hs).2.2, ?_⟩
        refine iff_of_false (by omega) fun hzero => hnot ?_
        exact hzero.1.2.sub (Nat.le_refl 0) (by omega)
    case h_2 run hsecond =>
      obtain ⟨hruns, hnot, -⟩ := scan_end hc hsecond
      refine .inr (.inr ⟨rfl, fun hs => ?_, fun r hfree => ?_⟩)
      · obtain ⟨-, hle, hclear⟩ := hstraddle.mp hs
        exact hnot hle hclear
      · exact hruns r (Nat.zero_le r) (by have := hfree.1; omega) hfree.2

theorem testBit_setBit (b : Bitmap) (i j : ℕ) : testBit (setBit b i) j =
    (testBit b j || decide (j = i ∧ j < pages)) := by
  unfold testBit setBit pages toBits
  grind

/-- The loop that marks the pages. -/
theorem testBit_foldl_setBit (b : Bitmap) (start count j : ℕ) :
    testBit ((List.range count).foldl (fun b i => setBit b (start + i)) b) j =
      (testBit b j || decide (start ≤ j ∧ j < start + count ∧ j < pages)) := by
  induction count with
  | zero =>
    have hnone : ¬ (start ≤ j ∧ j < start + 0 ∧ j < pages) := by omega
    rw [decide_eq_false hnone, Bool.or_false]
    rfl
  | succ count ih =>
    rw [List.range_succ, List.foldl_append, List.foldl_cons, List.foldl_nil, testBit_setBit, ih,
      Bool.or_assoc, ← Bool.decide_or]
    congr 2
    exact propext (by omega)

/-- The allocation gives a run of the bitmap that was free and marks exactly it, or it gives 0 and
marks nothing, and it gives 0 only if there is no run above page 0. -/
def AllocOk (s : BitmapState) (count : ℕ) : Prop :=
  ∃ addr s', bitmapAllocPages s count = some (addr, s') ∧
    (addr = 0 ∧ s'.bits = s.bits ∨ ∃ start, addr = start * 4096 ∧ FreeRun s.bits start count ∧
      ∀ j, testBit s'.bits j = (testBit s.bits j || decide (start ≤ j ∧ j < start + count))) ∧
    (addr = 0 → ¬ ∃ r, 0 < r ∧ FreeRun s.bits r count)

/-- The allocation is right unless a run goes on from the end of the bitmap to its start, or the run
at page 0 is taken though there is another one. -/
theorem bitmapAllocPages_iff (st : BitmapState) (hcount : 0 < count) : AllocOk st count ↔
    ¬ Straddles st.bits st.lastAllocatedIndex count ∧
      ¬ (TakesZero st.bits st.lastAllocatedIndex count ∧ ∃ r, 0 < r ∧ FreeRun st.bits r count) := by
  unfold AllocOk bitmapAllocPages
  rw [if_neg (Nat.ne_of_gt hcount)]
  rcases findRun_cases st.bits st.lastAllocatedIndex hcount with
    ⟨r, hfind, hfree, hstraddle, hzero⟩ | ⟨r, hfind, hlt, hover, hbit, hstraddle⟩ |
    ⟨hfind, hstraddle, hnone⟩
  · rw [hfind, ← hzero]
    refine ⟨?_, fun hcond => ⟨_, _, rfl, .inr ⟨r, rfl, hfree, fun j => ?_⟩, fun haddr hr => ?_⟩⟩
    · rintro ⟨addr, s', heq, -, hrun⟩
      obtain ⟨rfl, -⟩ := Prod.mk.inj (Option.some.inj heq)
      exact ⟨hstraddle, fun hr => hrun (by rw [hr.1]) hr.2⟩
    · have := hfree.1
      rw [testBit_foldl_setBit]
      congr 2
      exact propext (by omega)
    · exact hcond.2 ⟨by omega, hr⟩
  · rw [hfind]
    refine iff_of_false ?_ fun hcond => hcond.1 hstraddle
    rintro ⟨addr, s', heq, hres, -⟩
    obtain ⟨⟩ := heq
    rcases hres with ⟨-, hsame⟩ | ⟨start, haddr, hfree, -⟩
    · have hset := testBit_foldl_setBit st.bits r count r
      dsimp only at hsame
      rw [hsame, hbit] at hset
      simp [hlt, hcount] at hset
    · have := hfree.1
      omega
  · rw [hfind]
    refine iff_of_true ⟨0, st, rfl, .inl ⟨rfl, rfl⟩, fun _ hr => ?_⟩ ⟨hstraddle, fun hr => ?_⟩
    · obtain ⟨r, -, hfree⟩ := hr
      exact hnone r hfree
    · exact hnone 0 hr.1.1

/-- One free page in the middle of the bitmap. -/
theorem bitmapAllocPages_iff_single : AllocOk ⟨fun i => i != 5, 0⟩ 1 := by
  refine (bitmapAllocPages_iff _ Nat.one_pos).mpr ⟨?_, ?_⟩
  · rintro ⟨-, t, ht, hlt, -⟩
    omega
  rintro ⟨⟨hzero, -⟩, -⟩
  have hbit := hzero.2 0 (Nat.le_refl 0) Nat.one_pos
  revert hbit
  decide

/-- Only the first and the last page are free, and two pages are requested: the last page and one
behind the end of the bitmap are returned, and only the last page is marked. -/
theorem bitmapAllocPages_straddles :
    (bitmapAllocPages ⟨fun i => i != 0 && i != 32767, 32767⟩ 2).map
      (fun r => (r.1, testBit r.2.bits 32767, testBit r.2.bits 32768, testBit r.2.bits 0)) =
        some (32767 * 4096, true, false, false) ∧
      pages = 32768 ∧ ¬ AllocOk ⟨fun i => i != 0 && i != 32767, 32767⟩ 2 := by
  refine ⟨by decide +kernel, by decide, ?_⟩
  rintro ⟨addr, s', heq, hres, -⟩
  have haddr : (bitmapAllocPages ⟨fun i => i != 0 && i != 32767, 32767⟩ 2).map Prod.fst =
    some (32767 * 4096) := by decide +kernel
  obtain rfl := Option.some.inj (heq ▸ haddr)
  rcases hres with ⟨hzero, -⟩ | ⟨start, hstart, hfree, -⟩
  · omega
  · have hle : start + 2 ≤ 32768 := hfree.1
    omega

end Charmos.BootBitmap
