import Charmos.Lib.BitField
import Charmos.Lib.SlotArray

/-!
# What a thread records about its read locks

The writer-to-reader boost must know which read locks a thread holds when the thread is switched
out. Every lock has an id, its bucket in a hash table. `struct wroost_thread_data` has two sets:
32 counters of two bits, each for a range of ids, which stick at their maximum until the thread
holds no read lock any more, and four fine entries with exact ids. A range is in the fine entries
with all the locks that the thread holds in it, or not at all.

`post_read_acquire` and `post_read_release` keep the sets. Both run at raised interrupt level, so
each is one step here. `post_read_release` decides by `read_nesting_depth`, a byte that nothing
keeps from wrapping, whether the lock is the last one. The boost that the last release takes away
is not part of the sets and is left out.
-/

namespace Charmos.ReaderSets

open BitField BitVec Function List SlotArray

/-! ### Lock ids -/

/-- What the hooks read of `struct wroost_globals`. `wroost_init` checks that the number of buckets
is a power of two, and `wroost_calc_default_buckets` keeps it in its range. -/
structure WroostGlobals where
  bucketCount : ℕ
  isPow2 : ∃ n, 8 ≤ n ∧ n ≤ 15 ∧ bucketCount = 2 ^ n

namespace WroostGlobals

variable (g : WroostGlobals)

/-- `WROOST_COARSE_FACTOR`: how many ids share a counter. -/
def coarseFactor : ℕ := g.bucketCount / 32

/-- `fine_index_bits`; `BITS_NEEDED` is the length of a number in binary. -/
def fineIndexBits : ℕ := Nat.size (g.bucketCount / 32 - 1)

/-- `fine_offset_mask`. -/
def fineOffsetMask : ℕ := 1 <<< g.fineIndexBits - 1

/-- The counter of an id. -/
def coarse (id : ℕ) : ℕ := id / g.coarseFactor

/-- `wroost_fine_entry_index`, which returns a byte. -/
def wroostFineEntryIndex (lockId : ℕ) : ℕ := (lockId >>> g.fineIndexBits) % 256

theorem coarseFactor_eq : g.coarseFactor = 2 ^ g.fineIndexBits := by
  obtain ⟨n, hn, -, hcount⟩ := g.isPow2
  have hdiv : g.bucketCount / 32 = 2 ^ (n - 5) := by
    rw [hcount, show (32 : ℕ) = 2 ^ 5 from rfl, Nat.pow_div (by omega) (by omega)]
  have hsize : Nat.size (2 ^ (n - 5) - 1) = n - 5 := by
    have hpos : 0 < 2 ^ (n - 5) := by positivity
    refine le_antisymm (Nat.size_le.2 (by omega)) ?_
    by_contra hlt
    have hsucc : n - 5 = n - 6 + 1 := by omega
    have hle := Nat.size_le.1 (show Nat.size (2 ^ (n - 5) - 1) ≤ n - 6 by omega)
    rw [hsucc, pow_succ] at hle
    have : 2 ≤ 2 ^ (n - 6) := by
      calc 2 = 2 ^ 1 := rfl
        _ ≤ 2 ^ (n - 6) := Nat.pow_le_pow_right (by omega) (by omega)
    omega
  rw [coarseFactor, fineIndexBits, hdiv, hsize]

theorem coarseFactor_pos : 0 < g.coarseFactor := by
  rw [coarseFactor_eq]
  positivity

variable {g} {id : ℕ}

theorem coarse_lt (hid : id < g.bucketCount) : g.coarse id < 32 := by
  obtain ⟨n, hn, -, hcount⟩ := g.isPow2
  have hdvd : 32 ∣ g.bucketCount := by
    rw [hcount, show (32 : ℕ) = 2 ^ 5 from rfl]
    exact Nat.pow_dvd_pow 2 (by omega)
  rw [coarse, Nat.div_lt_iff_lt_mul g.coarseFactor_pos, coarseFactor, Nat.mul_div_cancel' hdvd]
  exact hid

/-- Shifting an id and dividing it give the same counter. -/
theorem wroostFineEntryIndex_eq (hid : id < g.bucketCount) :
    g.wroostFineEntryIndex id = g.coarse id := by
  have hlt := coarse_lt hid
  rw [wroostFineEntryIndex, Nat.shiftRight_eq_div_pow, ← g.coarseFactor_eq]
  exact Nat.mod_eq_of_lt (by unfold coarse at hlt; omega)

theorem offset_and_mask (id : ℕ) :
    (id % g.coarseFactor) &&& g.fineOffsetMask = id % g.coarseFactor := by
  rw [fineOffsetMask, Nat.one_shiftLeft, Nat.and_two_pow_sub_one_eq_mod, ← g.coarseFactor_eq,
    Nat.mod_mod]

theorem index_or_offset (id : ℕ) :
    (g.coarse id <<< g.fineIndexBits) ||| (id % g.coarseFactor) = id := by
  have hlt : id % g.coarseFactor < 2 ^ g.fineIndexBits := by
    rw [← g.coarseFactor_eq]
    exact Nat.mod_lt _ g.coarseFactor_pos
  rw [← Nat.shiftLeft_add_eq_or_of_lt hlt, Nat.shiftLeft_eq, ← g.coarseFactor_eq, coarse, mul_comm]
  exact Nat.div_add_mod _ _

end WroostGlobals

/-! ### The sets and the hooks -/

/-- What is kept of `struct wroost_thread_data`. -/
structure WroostThreadData where
  /-- `WROOST_THREAD_COUNTER_BYTES` bytes of four counters each. -/
  counters : Fin 8 → BitVec 8
  /-- The `lock_id` of every fine entry. -/
  fineEntries : Fin 4 → ℕ
  fineValid : BitVec 4
  readNestingDepth : BitVec 8

/-- Zeroed memory. -/
def WroostThreadData.zero : WroostThreadData where
  counters := fun _ => 0
  fineEntries := fun _ => 0
  fineValid := 0
  readNestingDepth := 0

/-- `enforce`: the kernel panics, and there is no result, if the condition fails. -/
def enforce (p : Prop) [Decidable p] : Option Unit := if p then some () else none

section Hooks

variable (g : WroostGlobals) (wtd : WroostThreadData)

/-- The byte of a counter. -/
def counterByte (index : Fin 32) : Fin 8 := ⟨index * 2 / 8, by omega⟩

/-- `wroost_read_counter`. -/
def wroostReadCounter (index : Fin 32) : ℕ :=
  ((wtd.counters (counterByte index) >>> (index.val * 2 % 8)) &&& 3#8).toNat

/-- `wroost_write_counter`. -/
def wroostWriteCounter (index : Fin 32) (value : ℕ) : WroostThreadData :=
  let offset := index.val * 2 % 8
  let cleared := wtd.counters (counterByte index) &&& ~~~(3#8 <<< offset)
  let new := (BitVec.ofNat 8 value <<< offset) ||| cleared
  { wtd with counters := update wtd.counters (counterByte index) new }

/-- `wroost_inc_counter`, which also hands out the value before. -/
def wroostIncCounter (index : Fin 32) : WroostThreadData × ℕ × ℕ :=
  let value := wroostReadCounter wtd index
  if value = 3 then (wtd, value, 3)
  else (wroostWriteCounter wtd index (value + 1), value, value + 1)

/-- `wroost_dec_counter`. -/
def wroostDecCounter (index : Fin 32) : Option WroostThreadData :=
  let value := wroostReadCounter wtd index
  if value = 3 then some wtd
  else do
    enforce (0 < value)
    some (wroostWriteCounter wtd index (value - 1))

/-- `fine_valid & BIT(i)`. -/
def isValid (i : Fin 4) : Bool := wtd.fineValid.getLsbD i

/-- `wroost_get_fine_entry`: the first valid entry of the counter. -/
def wroostGetFineEntry (index : Fin 32) : Option (Fin 4) :=
  (finRange 4).find? fun i =>
    isValid wtd i && g.wroostFineEntryIndex (wtd.fineEntries i) == index.val

/-- `wroost_clear_fine_entry`. -/
def wroostClearFineEntry (slot : Fin 4) : WroostThreadData :=
  { wtd with
    fineEntries := update wtd.fineEntries slot 0
    fineValid := wtd.fineValid &&& ~~~twoPow 4 slot }

/-- `wroost_evict_fine_entries`. -/
def wroostEvictFineEntries (index : Fin 32) : WroostThreadData :=
  (finRange 4).foldl (fun w i =>
    if isValid w i && g.wroostFineEntryIndex (w.fineEntries i) == index.val then
      wroostClearFineEntry w i
    else w) wtd

/-- `wroost_alloc_fine_entry`: the lowest slot that is not valid is made valid. -/
def wroostAllocFineEntry : Option (Fin 4 × WroostThreadData) :=
  ((finRange 4).find? fun i => !isValid wtd i).map fun i =>
    (i, { wtd with fineValid := wtd.fineValid ||| twoPow 4 i })

/-- `fe->lock_id = id`. -/
def setLockId (slot : Fin 4) (id : ℕ) : WroostThreadData :=
  { wtd with fineEntries := update wtd.fineEntries slot id }

/-- The fine entries in `post_read_acquire`, once the counter has gone from `prev` to `new`. -/
def updateFineEntries (index : Fin 32) (id prev new : ℕ) : WroostThreadData :=
  if prev = 0 then
    match wroostAllocFineEntry wtd with
    | some (fe, wtd) => setLockId wtd fe id
    | none => wtd
  else if new = 3 then wroostEvictFineEntries g wtd index
  else
    match wroostGetFineEntry g wtd index with
    | none => wtd
    | some old =>
      if wtd.fineEntries old = id then wroostEvictFineEntries g wtd index
      else
        match wroostAllocFineEntry wtd with
        | some (fe, wtd) => setLockId wtd fe id
        | none => wroostEvictFineEntries g wtd index

/-- `post_read_acquire`, for a lock whose hash is `id`. -/
def postReadAcquire (id : ℕ) : Option WroostThreadData := do
  let cIdx := id / g.coarseFactor
  let offset := id % g.coarseFactor
  enforce (offset &&& g.fineOffsetMask = offset)
  let wtd := { wtd with readNestingDepth := wtd.readNestingDepth + 1 }
  if h : cIdx < 32 then
    let inc := wroostIncCounter wtd ⟨cIdx, h⟩
    enforce ((cIdx <<< g.fineIndexBits) ||| offset = id)
    some (updateFineEntries g inc.1 ⟨cIdx, h⟩ id inc.2.1 inc.2.2)
  else none

/-- The loop of `post_read_release` over the fine entries: the first one with the id goes. -/
def dropFineEntry (id : ℕ) : WroostThreadData :=
  match (finRange 4).find? fun i =>
      isValid wtd i && wtd.fineEntries i == id with
  | some i => wroostClearFineEntry wtd i
  | none => wtd

/-- `post_read_release`, for a lock whose hash is `id`. -/
def postReadRelease (id : ℕ) : Option WroostThreadData := do
  enforce (0 < wtd.readNestingDepth)
  let wtd := { wtd with readNestingDepth := wtd.readNestingDepth - 1 }
  if wtd.readNestingDepth = 0 then
    some { wtd with counters := fun _ => 0, fineValid := 0 }
  else if h : id / g.coarseFactor < 32 then
    let prev := wroostReadCounter wtd ⟨id / g.coarseFactor, h⟩
    let wtd ← wroostDecCounter wtd ⟨id / g.coarseFactor, h⟩
    some (if prev < 3 then dropFineEntry wtd id else wtd)
  else none

end Hooks

/-! ### Runs of one thread -/

/-- A thread, with the ids of the read locks it holds as history. -/
structure Reader where
  wtd : WroostThreadData
  held : List ℕ

/-- What the thread does. -/
inductive ReaderAct
  | acquire (id : ℕ)
  | release (id : ℕ)
deriving DecidableEq, Repr

/-- A read lock is acquired, or one that is held is released. There is no step if an `enforce`
fires. -/
def readerStep (g : WroostGlobals) (s : Reader) : ReaderAct → Option Reader
  | .acquire id =>
    if id < g.bucketCount then
      (postReadAcquire g s.wtd id).map fun wtd => { wtd, held := id :: s.held }
    else none
  | .release id =>
    if id ∈ s.held then
      (postReadRelease g s.wtd id).map fun wtd => { wtd, held := s.held.erase id }
    else none

/-- A thread that has not taken a read lock yet. -/
def Reader.init : Reader where
  wtd := .zero
  held := []

/-- The ids of a list that belong to a counter. -/
def WroostGlobals.inRange (g : WroostGlobals) (i : Fin 32) (ids : List ℕ) : List ℕ :=
  ids.filter fun id => g.coarse id = i

/-- The id in a fine entry, if the entry is valid. -/
def slot (wtd : WroostThreadData) (i : Fin 4) : Option ℕ :=
  if isValid wtd i then some (wtd.fineEntries i) else none

/-- The ids in the fine entries. -/
def fineIds (wtd : WroostThreadData) : List ℕ := entries (slot wtd)

/-- What the sets say about the locks that are held. -/
structure SetsOk (g : WroostGlobals) (s : Reader) : Prop where
  /-- The locks of a counter have all their own fine entry, or none of them has one. -/
  complete : ∀ i, (g.inRange i (fineIds s.wtd)).Perm (g.inRange i s.held) ∨
    g.inRange i (fineIds s.wtd) = []
  /-- A counter that is zero or saturated has no fine entry. -/
  absent : ∀ i, wroostReadCounter s.wtd i = 0 ∨ wroostReadCounter s.wtd i = 3 →
    g.inRange i (fineIds s.wtd) = []
  /-- No id is in two fine entries. -/
  distinct : (fineIds s.wtd).Nodup
  /-- A counter that is not saturated counts the locks. -/
  counted : ∀ i, wroostReadCounter s.wtd i ≠ 3 →
    wroostReadCounter s.wtd i = (g.inRange i s.held).length

/-! ### Counters -/

variable {g : WroostGlobals} {wtd : WroostThreadData} {i j : Fin 32} {id : ℕ}

private theorem shiftRight_and_eq_read (c : BitVec 8) (off : ℕ) :
    ((c >>> off) &&& 3#8).toNat = read c off 2 := by
  apply Nat.eq_of_testBit_eq
  intro k
  have hthree : (3#8).getLsbD k = decide (k < 2) := by
    rw [show (3#8) = BitVec.ofNat 8 (2 ^ 2 - 1) from rfl, BitVec.getLsbD_ofNat,
      Nat.testBit_two_pow_sub_one]
    grind
  rw [testBit_read, testBit_toNat, getLsbD_and, getLsbD_ushiftRight, hthree, Bool.and_comm]

private theorem shiftLeft_or_eq_write (c : BitVec 8) (off : ℕ) {v : ℕ} (hv : v < 4) :
    (BitVec.ofNat 8 v <<< off) ||| (c &&& ~~~(3#8 <<< off)) = write c off 2 v := by
  apply eq_of_getLsbD_eq
  intro k hk
  have hbit : ∀ n, 2 ≤ n → v.testBit n = false := by
    intro n hn
    exact Nat.testBit_lt_two_pow (hv.trans_le (Nat.pow_le_pow_right (n := 2) (by omega) hn))
  have hmask : (3#8 <<< off).getLsbD k = (mask 8 off 2).getLsbD k := rfl
  rw [getLsbD_write _ _ _ _ _ hk, getLsbD_or, getLsbD_and,
    getLsbD_not, hmask, getLsbD_mask, getLsbD_shiftLeft,
    getLsbD_ofNat]
  by_cases hin : off ≤ k ∧ k < off + 2
  · have : ¬ k < off := by omega
    have : k - off < 8 := by omega
    simp [*]
  · by_cases hlt : k < off
    · simp [hk, hlt, hin]
    · simp [hk, hin, hbit (k - off) (by omega)]

theorem wroostReadCounter_write (hv : id < 4) :
    wroostReadCounter (wroostWriteCounter wtd i id) j =
      if j = i then id else wroostReadCounter wtd j := by
  simp only [wroostReadCounter, wroostWriteCounter, shiftRight_and_eq_read,
    shiftLeft_or_eq_write _ _ hv]
  by_cases hbyte : counterByte j = counterByte i
  · rw [hbyte, update_self]
    split_ifs with hij
    · rw [hij]
      exact read_write_of_lt _ (by omega) hv
    refine read_write_apart _ ?_ _
    have hne : j.val ≠ i.val := fun h => hij (Fin.ext h)
    have hdiv : j.val * 2 / 8 = i.val * 2 / 8 := congrArg Fin.val hbyte
    unfold Apart
    omega
  · have hij : j ≠ i := fun h => hbyte (h ▸ rfl)
    rw [update_of_ne hbyte, if_neg hij]

theorem wroostReadCounter_lt (wtd : WroostThreadData) (i : Fin 32) : wroostReadCounter wtd i < 4 :=
    by
  rw [wroostReadCounter, shiftRight_and_eq_read]
  exact read_lt _ _ 2

theorem wroostReadCounter_congr {w : WroostThreadData} (h : w.counters = wtd.counters) :
    wroostReadCounter w i = wroostReadCounter wtd i := by
  rw [wroostReadCounter, wroostReadCounter, h]

/-! ### Fine entries -/

variable {k l : Fin 4} {w : WroostThreadData}

theorem slot_eq_some : slot wtd k = some id ↔ isValid wtd k ∧ wtd.fineEntries k = id := by
  unfold slot
  split_ifs with h <;> simp [h]

theorem slot_eq_none : slot wtd k = none ↔ isValid wtd k = false := by
  unfold slot
  split_ifs with h <;> simp [h]

@[simp] theorem isValid_clear :
    isValid (wroostClearFineEntry wtd k) l = (isValid wtd l && decide (l ≠ k)) := by
  simp [isValid, wroostClearFineEntry, Fin.ext_iff]

@[simp] theorem slot_clear : slot (wroostClearFineEntry wtd k) = update (slot wtd) k none := by
  funext l
  by_cases h : l = k
  · subst h
    rw [update_self, slot_eq_none, isValid_clear]
    simp
  · have hentry : (wroostClearFineEntry wtd k).fineEntries l = wtd.fineEntries l :=
      update_of_ne h _ _
    rw [update_of_ne h, slot, slot, isValid_clear, hentry]
    simp [h]

private theorem slot_evictOne :
    slot (if isValid wtd k && g.wroostFineEntryIndex (wtd.fineEntries k) == i.val then
        wroostClearFineEntry wtd k else wtd) =
      update (slot wtd) k
        ((slot wtd k).filter fun id => g.wroostFineEntryIndex id ≠ i) := by
  split_ifs with h
  · obtain ⟨hv, hi⟩ := Bool.and_eq_true_iff.1 h
    have hi : g.wroostFineEntryIndex (wtd.fineEntries k) = i := by simpa using hi
    rw [slot_clear, slot_eq_some.2 ⟨hv, rfl⟩, Option.filter_some, if_neg (by simpa using hi)]
  symm
  rw [update_eq_self_iff]
  cases hs : slot wtd k with
  | none => rfl
  | some id =>
    obtain ⟨hv, rfl⟩ := slot_eq_some.1 hs
    have hi : g.wroostFineEntryIndex (wtd.fineEntries k) ≠ i := by simpa [hv] using h
    simp [hi]

private theorem slot_evictAll (slots : List (Fin 4)) (hs : slots.Nodup) :
    slot (slots.foldl (fun w k =>
        if isValid w k && g.wroostFineEntryIndex (w.fineEntries k) == i.val then
          wroostClearFineEntry w k else w) wtd) =
      fun k => if k ∈ slots then
        (slot wtd k).filter fun id => g.wroostFineEntryIndex id ≠ i else slot wtd k := by
  induction slots generalizing wtd with
  | nil => simp
  | cons k slots ih =>
    obtain ⟨hk, hs⟩ := nodup_cons.1 hs
    rw [foldl_cons, ih hs, slot_evictOne]
    funext l
    by_cases h : l = k
    · subst h
      simp [hk]
    · simp [h]

/-- Eviction drops the ids of the counter and keeps all others. -/
theorem fineIds_evict :
    fineIds (wroostEvictFineEntries g wtd i) =
      (fineIds wtd).filter fun id => g.wroostFineEntryIndex id ≠ i := by
  rw [fineIds, fineIds, wroostEvictFineEntries, slot_evictAll _ (nodup_finRange 4),
    ← entries_filter]
  simp

theorem evict_frame :
    (wroostEvictFineEntries g wtd i).counters = wtd.counters ∧
      (wroostEvictFineEntries g wtd i).readNestingDepth = wtd.readNestingDepth := by
  unfold wroostEvictFineEntries
  generalize finRange 4 = slots
  induction slots generalizing wtd with
  | nil => exact ⟨rfl, rfl⟩
  | cons k slots ih =>
    rw [foldl_cons]
    refine ⟨ih.1.trans ?_, ih.2.trans ?_⟩ <;> split_ifs <;> rfl

/-- A slot that is handed out was free, and it has the id once that is written. -/
theorem fineIds_alloc (id : ℕ) (h : wroostAllocFineEntry wtd = some (k, w)) :
    (fineIds (setLockId w k id)).Perm (id :: fineIds wtd) ∧
      (setLockId w k id).counters = wtd.counters ∧
      (setLockId w k id).readNestingDepth = wtd.readNestingDepth := by
  obtain ⟨k', hfind, heq⟩ := Option.map_eq_some_iff.1 h
  obtain ⟨rfl, rfl⟩ := Prod.mk.inj heq
  have hfree : slot wtd k' = none := slot_eq_none.2 (by simpa using find?_some hfind)
  refine ⟨?_, rfl, rfl⟩
  have hslot : slot (setLockId { wtd with fineValid := wtd.fineValid ||| twoPow 4 k' }
      k' id) = update (slot wtd) k' (some id) := by
    funext l
    by_cases hl : l = k'
    · subst hl
      simp [slot, isValid, setLockId]
    · simp [slot, isValid, setLockId, hl, Fin.val_ne_of_ne hl]
  rw [fineIds, fineIds, hslot]
  exact entries_fill hfree

/-- What `wroost_get_fine_entry` finds is a valid entry of the counter. -/
theorem wroostGetFineEntry_some (h : wroostGetFineEntry g wtd i = some k) :
    wtd.fineEntries k ∈ fineIds wtd ∧ g.wroostFineEntryIndex (wtd.fineEntries k) = i := by
  have hk := find?_some h
  obtain ⟨hv, hi⟩ := Bool.and_eq_true_iff.1 hk
  exact ⟨mem_entries.2 ⟨k, slot_eq_some.2 ⟨hv, rfl⟩⟩, by simpa using hi⟩

theorem wroostGetFineEntry_none (h : wroostGetFineEntry g wtd i = none) (hid : id ∈ fineIds wtd) :
    g.wroostFineEntryIndex id ≠ i := by
  obtain ⟨k, hk⟩ := mem_entries.1 hid
  obtain ⟨hv, rfl⟩ := slot_eq_some.1 hk
  have := find?_eq_none.1 h k (mem_finRange k)
  simpa [hv] using this

/-- The loop of `post_read_release` takes the id out of the fine entries if it is there. -/
theorem fineIds_drop (wtd : WroostThreadData) (id : ℕ) :
    (id ∈ fineIds wtd ∧ (fineIds wtd).Perm (id :: fineIds (dropFineEntry wtd id)) ∨
      id ∉ fineIds wtd ∧ fineIds (dropFineEntry wtd id) = fineIds wtd) ∧
    (dropFineEntry wtd id).counters = wtd.counters ∧
      (dropFineEntry wtd id).readNestingDepth = wtd.readNestingDepth := by
  unfold dropFineEntry
  split
  · rename_i k hk
    have hfound := find?_some hk
    obtain ⟨hv, hid⟩ := Bool.and_eq_true_iff.1 hfound
    have hslot : slot wtd k = some id := slot_eq_some.2 ⟨hv, by simpa using hid⟩
    refine ⟨.inl ⟨mem_entries.2 ⟨k, hslot⟩, ?_⟩, rfl, rfl⟩
    rw [fineIds, fineIds, slot_clear]
    exact entries_free hslot
  · rename_i hnone
    refine ⟨.inr ⟨fun hid => ?_, rfl⟩, rfl, rfl⟩
    obtain ⟨k, hk⟩ := mem_entries.1 hid
    obtain ⟨hv, rfl⟩ := slot_eq_some.1 hk
    have := find?_eq_none.1 hnone k (mem_finRange k)
    simp [hv] at this

end Charmos.ReaderSets
