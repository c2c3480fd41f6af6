import Mathlib.Tactic.IntervalCases

/-!
# The word of the queued spinlock

The layout of `sync/qspinlock.h`: the locked byte in bits 0 to 7, the pending bit 8, the level of
the last waiter in bits 9 and 10, and its CPU plus one in bits 16 to 31. The words that the lock
goes through are `enc locked pending tail` for a tail that lies within its mask; each operation of
the lock on such a word changes one of the three parts.
-/

namespace Charmos.Sync

open BitVec

/-- A CPU and the `enum qspinlock_level` it acquires at: one node of `qnodes`. There are fewer than
`2 ^ 16` CPUs, so `cpu + 1` fits the field. -/
structure Waiter where
  cpu : Fin 65535
  lvl : Fin 3
  deriving DecidableEq

def lockedMask : BitVec 32 := 0x000000FF#32

def lockedVal : BitVec 32 := 0x00000001#32

def pendingMask : BitVec 32 := 0x00000100#32

def pendingVal : BitVec 32 := 0x00000100#32

def lockedPendingMask : BitVec 32 := lockedMask ||| pendingMask

def tailLvlMask : BitVec 32 := 0x00000600#32

def tailCpuMask : BitVec 32 := 0xFFFF0000#32

def tailMask : BitVec 32 := tailLvlMask ||| tailCpuMask

/-- `((cpu + 1) << Q_SPIN_TAIL_CPU_OFFSET) | (lvl << Q_SPIN_TAIL_LVL_OFFSET)`. -/
def mkTail (a : Waiter) : BitVec 32 :=
  (BitVec.ofNat 32 (a.cpu + 1) <<< 16) ||| (BitVec.ofNat 32 a.lvl <<< 9)

/-- The CPU that a tail names, `((tail & Q_SPIN_TAIL_CPU_MASK) >> Q_SPIN_TAIL_CPU_OFFSET) - 1`. -/
def tailCpu (t : BitVec 32) : BitVec 32 := ((t &&& tailCpuMask) >>> 16) - 1#32

/-- The level that a tail names. -/
def tailLvl (t : BitVec 32) : BitVec 32 := (t &&& tailLvlMask) >>> 9

/-- A word by its parts. -/
def enc (locked pending : Bool) (tail : BitVec 32) : BitVec 32 :=
  (if locked then lockedVal else 0#32) ||| (if pending then pendingVal else 0#32) ||| tail

/-- The store of zero to the locked byte. -/
def clearLocked (v : BitVec 32) : BitVec 32 := v &&& ~~~lockedMask

variable {l p : Bool} {t : BitVec 32}

section

variable (ht : t &&& tailMask = t)
include ht

/-- A tail has no bit in common with a mask outside the tail mask. -/
private theorem tail_and_eq_zero {m : BitVec 32} (hm : tailMask &&& m = 0#32) : t &&& m = 0#32 := by
  rw [← ht, BitVec.and_assoc, hm, BitVec.and_zero]

theorem enc_and_tailMask : enc l p t &&& tailMask = t := by
  unfold enc
  rw [and_or_distrib_right, ht]
  cases l <;> cases p <;> simp [lockedVal, pendingVal, tailMask, tailLvlMask, tailCpuMask]

theorem enc_and_lockedMask : enc l p t &&& lockedMask = if l then lockedVal else 0#32 := by
  unfold enc
  rw [and_or_distrib_right, tail_and_eq_zero ht (by decide)]
  cases l <;> cases p <;> decide

theorem enc_and_pendingMask : enc l p t &&& pendingMask = if p then pendingVal else 0#32 := by
  unfold enc
  rw [and_or_distrib_right, tail_and_eq_zero ht (by decide)]
  cases l <;> cases p <;> decide

theorem enc_and_lockedPendingMask :
    enc l p t &&& lockedPendingMask = 0#32 ↔ l = false ∧ p = false := by
  unfold enc
  rw [and_or_distrib_right, tail_and_eq_zero ht (by decide)]
  cases l <;> cases p <;> decide

end

private theorem or_right_comm (a b c : BitVec 32) : a ||| b ||| c = a ||| c ||| b := by
  rw [BitVec.or_assoc, BitVec.or_comm b, ← BitVec.or_assoc]

/-- `val | Q_SPIN_PENDING_VAL`. -/
theorem enc_or_pendingVal : enc l false t ||| pendingVal = enc l true t := by
  unfold enc
  rw [or_right_comm]
  cases l <;> simp

/-- `atomic_fetch_or_acq(&lock->val, Q_SPIN_LOCKED_VAL)`. -/
theorem enc_or_lockedVal : enc false p t ||| lockedVal = enc true p t := by
  unfold enc
  rw [or_right_comm]
  cases p <;> simp [BitVec.or_comm]

section

variable (ht : t &&& tailMask = t)
include ht

theorem clearLocked_enc : clearLocked (enc l p t) = enc false p t := by
  have htail : t &&& ~~~lockedMask = t := by
    rw [← ht, BitVec.and_assoc]
    congr 1
  unfold clearLocked enc
  rw [and_or_distrib_right, htail]
  cases l <;> cases p <;> congr 1

/-- `(val & ~Q_SPIN_TAIL_MASK) | tail`. -/
theorem enc_withTail (t' : BitVec 32) : (enc l p t &&& ~~~tailMask) ||| t' = enc l p t' := by
  unfold enc
  rw [and_or_distrib_right, tail_and_eq_zero ht (by decide), or_zero]
  cases l <;> cases p <;> congr 1

/-- The addition of `Q_SPIN_LOCKED_VAL - Q_SPIN_PENDING_VAL` moves the pending bit to the locked
byte and touches nothing else. -/
theorem enc_pendingToLocked : enc false true t + (lockedVal - pendingVal) = enc true false t := by
  have hp : pendingVal &&& t = 0#32 := by
    rw [BitVec.and_comm]
    exact tail_and_eq_zero ht (by decide)
  have hl : lockedVal &&& t = 0#32 := by
    rw [BitVec.and_comm]
    exact tail_and_eq_zero ht (by decide)
  have hpend : enc false true t = pendingVal + t := by
    simp [enc, add_eq_or_of_and_eq_zero _ _ hp]
  have hlock : enc true false t = lockedVal + t := by
    simp [enc, add_eq_or_of_and_eq_zero _ _ hl]
  rw [hpend, hlock, BitVec.add_comm pendingVal, BitVec.add_assoc, BitVec.add_comm t]
  rfl

theorem enc_eq_zero : enc l p t = 0#32 ↔ (l = false ∧ p = false) ∧ t = 0#32 := by
  constructor
  · intro h
    refine ⟨(enc_and_lockedPendingMask ht).mp (by rw [h, zero_and]), ?_⟩
    rw [← enc_and_tailMask (l := l) (p := p) ht, h, zero_and]
  · rintro ⟨⟨rfl, rfl⟩, rfl⟩
    rfl

end

/-! ### Tails -/

/-- The CPU field of a word lies above every bit below 16. -/
private theorem shiftLeft_and_cpuMask (x : BitVec 32) : x <<< 16 &&& tailCpuMask = x <<< 16 := by
  apply eq_of_getLsbD_eq
  intro i hi
  rw [getLsbD_and, getLsbD_shiftLeft]
  interval_cases i <;> simp [tailCpuMask]

private theorem and_lvl_shiftLeft (x : BitVec 32) (k : Fin 3) :
    x <<< 16 &&& (BitVec.ofNat 32 k <<< 9) = 0#32 := by
  rw [← shiftLeft_and_cpuMask, BitVec.and_assoc]
  have hk : tailCpuMask &&& (BitVec.ofNat 32 k <<< 9) = 0#32 := by
    revert k
    decide
  rw [hk, and_zero]

private theorem mkTail_toNat (a : Waiter) :
    (mkTail a).toNat = (a.cpu + 1) * 65536 + a.lvl * 512 := by
  have hc := a.cpu.isLt
  have hl := a.lvl.isLt
  rw [mkTail, ← add_eq_or_of_and_eq_zero _ _ (and_lvl_shiftLeft _ _)]
  simp only [toNat_add, toNat_shiftLeft, toNat_ofNat, Nat.shiftLeft_eq]
  omega

theorem mkTail_and_tailMask (a : Waiter) : mkTail a &&& tailMask = mkTail a := by
  have hc : BitVec.ofNat 32 (a.cpu + 1) <<< 16 &&& tailMask =
      BitVec.ofNat 32 (a.cpu + 1) <<< 16 := by
    rw [← shiftLeft_and_cpuMask, BitVec.and_assoc]
    congr 1
  have hl : ∀ k : Fin 3, BitVec.ofNat 32 k <<< 9 &&& tailMask = BitVec.ofNat 32 k <<< 9 := by
    decide
  rw [mkTail, and_or_distrib_right, hc, hl]

theorem mkTail_ne_zero (a : Waiter) : mkTail a ≠ 0#32 := by
  intro h
  have := congrArg BitVec.toNat h
  rw [mkTail_toNat] at this
  simp at this

theorem mkTail_injective : Function.Injective mkTail := by
  intro a b h
  have hn := congrArg BitVec.toNat h
  rw [mkTail_toNat, mkTail_toNat] at hn
  have ha := a.lvl.isLt
  have hb := b.lvl.isLt
  obtain ⟨⟨c, _⟩, ⟨l, _⟩⟩ := a
  obtain ⟨⟨c', _⟩, ⟨l', _⟩⟩ := b
  simp only at hn ha hb
  obtain rfl : c = c' := by omega
  obtain rfl : l = l' := by omega
  rfl

/-- A published tail names the CPU that published it. -/
theorem tailCpu_mkTail (a : Waiter) : (tailCpu (mkTail a)).toNat = a.cpu := by
  have hc := a.cpu.isLt
  have hfield : mkTail a &&& tailCpuMask = BitVec.ofNat 32 (a.cpu + 1) <<< 16 := by
    have hl : ∀ k : Fin 3, BitVec.ofNat 32 k <<< 9 &&& tailCpuMask = 0#32 := by decide
    rw [mkTail, and_or_distrib_right, shiftLeft_and_cpuMask, hl, or_zero]
  rw [tailCpu, hfield]
  simp only [toNat_sub, toNat_ushiftRight, toNat_shiftLeft,
    toNat_ofNat, Nat.shiftLeft_eq, Nat.shiftRight_eq_div_pow]
  omega

/-- A published tail names the level of its node. -/
theorem tailLvl_mkTail (a : Waiter) : (tailLvl (mkTail a)).toNat = a.lvl := by
  have hc : BitVec.ofNat 32 (a.cpu + 1) <<< 16 &&& tailLvlMask = 0#32 := by
    rw [← shiftLeft_and_cpuMask, BitVec.and_assoc]
    exact and_zero
  have hl : ∀ k : Fin 3, ((BitVec.ofNat 32 k <<< 9 &&& tailLvlMask) >>> 9).toNat = k := by decide
  rw [tailLvl, mkTail, and_or_distrib_right, hc, zero_or, hl]

end Charmos.Sync
