import Charmos.Lib.BitMask

/-!
# Fixed-point numbers

A number of the type `fx32_32_t` is a signed word of 64 bits, of which the lower 32 are the
fraction. The product is computed from the halves of the absolute values. For two numbers that are
not negative, and whose product fits, it is the product rounded down to the next fraction.
-/

namespace Charmos.Math

open BitVec

/-- `fx32_32_t`. -/
abbrev Fx := BitVec 64

/-- `FX_ONE`. -/
def fxOne : Fx := 1#64 <<< 32

def fxAdd (a b : Fx) : Fx := a + b

def fxSub (a b : Fx) : Fx := a - b

/-- The absolute value, as an unsigned word. -/
def fxAbs (a : Fx) : Fx := if a.msb then -a else a

/-- The product of two unsigned words without its lower 32 bits, from the products of their
halves. -/
def mulHalves (ua ub : BitVec 64) : BitVec 64 :=
  let low := 0xFFFFFFFF#64
  let aHi := ua >>> 32
  let aLo := ua &&& low
  let bHi := ub >>> 32
  let bLo := ub &&& low
  let p0 := aLo * bLo
  let p1 := aLo * bHi
  let p2 := aHi * bLo
  let p3 := aHi * bHi
  let mid := (p0 >>> 32) + (p1 &&& low) + (p2 &&& low)
  let high := p3 + (p1 >>> 32) + (p2 >>> 32) + (mid >>> 32)
  (high <<< 32) ||| (mid &&& low)

def fxMul (a b : Fx) : Fx :=
  let q := mulHalves (fxAbs a) (fxAbs b)
  if (a ^^^ b).msb then -q else q

def fxFromInt (x : BitVec 64) : Fx := x <<< 32

def fxToInt (x : Fx) : ℤ := (x.sshiftRight 32).toInt

def fxMin (a b : Fx) : Fx := if b.slt a then b else a

def fxMax (a b : Fx) : Fx := if a.slt b then b else a

def fxClamp (x lo hi : Fx) : Fx := fxMax lo (fxMin x hi)

/-- The loop of `fx_pow_i32` for an exponent that is not negative. -/
def fxPowLoop : ℕ → Fx → Fx → ℕ → Fx
  | 0, result, _, _ => result
  | fuel + 1, result, base, exp =>
    if exp = 0 then result
    else
      fxPowLoop fuel (if exp % 2 = 1 then fxMul result base else result) (fxMul base base)
        (exp / 2)

def fxPowI32 (base : Fx) (exp : ℕ) : Fx := fxPowLoop exp fxOne base exp

/-! ### The product -/

private theorem partial_products (a b : ℕ) :
    a * b / 2 ^ 32 =
      (a / 2 ^ 32 * (b / 2 ^ 32) + a % 2 ^ 32 * (b / 2 ^ 32) / 2 ^ 32 +
          a / 2 ^ 32 * (b % 2 ^ 32) / 2 ^ 32 +
        (a % 2 ^ 32 * (b % 2 ^ 32) / 2 ^ 32 + a % 2 ^ 32 * (b / 2 ^ 32) % 2 ^ 32 +
          a / 2 ^ 32 * (b % 2 ^ 32) % 2 ^ 32) / 2 ^ 32) * 2 ^ 32 +
      (a % 2 ^ 32 * (b % 2 ^ 32) / 2 ^ 32 + a % 2 ^ 32 * (b / 2 ^ 32) % 2 ^ 32 +
        a / 2 ^ 32 * (b % 2 ^ 32) % 2 ^ 32) % 2 ^ 32 := by
  have hprod : a * b = (a / 2 ^ 32 * 2 ^ 32 + a % 2 ^ 32) * (b / 2 ^ 32 * 2 ^ 32 + b % 2 ^ 32) := by
    rw [Nat.div_add_mod', Nat.div_add_mod']
  rw [hprod]
  generalize a / 2 ^ 32 = ah, a % 2 ^ 32 = al, b / 2 ^ 32 = bh, b % 2 ^ 32 = bl
  have hexpand : (ah * 2 ^ 32 + al) * (bh * 2 ^ 32 + bl) =
      ah * bh * 2 ^ 64 + (al * bh) * 2 ^ 32 + (ah * bl) * 2 ^ 32 + al * bl := by ring
  rw [hexpand]
  generalize ah * bh = p3, al * bh = p1, ah * bl = p2, al * bl = p0
  omega

/-- The words wrap nowhere when the result fits. -/
theorem toNat_mulHalves (a b : BitVec 64) (h : a.toNat * b.toNat / 2 ^ 32 < 2 ^ 64) :
    (mulHalves a b).toNat = a.toNat * b.toNat / 2 ^ 32 := by
  have hlow : ∀ x : BitVec 64, (x &&& 0xFFFFFFFF#64).toNat = x.toNat % 2 ^ 32 :=
    fun x => BitMask.toNat_and_low x rfl
  have hshr : ∀ x : BitVec 64, (x >>> 32).toNat = x.toNat / 2 ^ 32 := by
    intro x
    rw [toNat_ushiftRight, Nat.shiftRight_eq_div_pow]
  have hsum := partial_products a.toNat b.toNat
  have ha := a.isLt
  have hb := b.isLt
  have hal : a.toNat % 2 ^ 32 < 2 ^ 32 := Nat.mod_lt _ (by decide)
  have hbl : b.toNat % 2 ^ 32 < 2 ^ 32 := Nat.mod_lt _ (by decide)
  have hah : a.toNat / 2 ^ 32 < 2 ^ 32 := by omega
  have hbh : b.toNat / 2 ^ 32 < 2 ^ 32 := by omega
  unfold mulHalves
  simp only [toNat_or, toNat_shiftLeft, toNat_add, toNat_mul, hlow, hshr]
  generalize a.toNat / 2 ^ 32 = ah, a.toNat % 2 ^ 32 = al, b.toNat / 2 ^ 32 = bh,
    b.toNat % 2 ^ 32 = bl at *
  have hmul : ∀ x y, x < 2 ^ 32 → y < 2 ^ 32 → x * y < 2 ^ 64 :=
    fun x y hx hy => (Nat.mul_lt_mul'' hx hy).trans_eq (by norm_num)
  rw [Nat.mod_eq_of_lt (hmul al bl hal hbl), Nat.mod_eq_of_lt (hmul al bh hal hbh),
    Nat.mod_eq_of_lt (hmul ah bl hah hbl), Nat.mod_eq_of_lt (hmul ah bh hah hbh)]
  have hp0 := hmul al bl hal hbl
  generalize al * bl = p0, al * bh = p1, ah * bl = p2, ah * bh = p3 at *
  have hmid : (p0 / 2 ^ 32 + p1 % 2 ^ 32) % 2 ^ 64 + p2 % 2 ^ 32 =
      p0 / 2 ^ 32 + p1 % 2 ^ 32 + p2 % 2 ^ 32 := by omega
  have hmidlt : p0 / 2 ^ 32 + p1 % 2 ^ 32 + p2 % 2 ^ 32 < 2 ^ 64 := by omega
  rw [hmid, Nat.mod_eq_of_lt hmidlt]
  generalize p0 / 2 ^ 32 + p1 % 2 ^ 32 + p2 % 2 ^ 32 = mid at *
  rw [hsum]
  rw [hsum] at h
  have hhigh : (((p3 + p1 / 2 ^ 32) % 2 ^ 64 + p2 / 2 ^ 32) % 2 ^ 64 + mid / 2 ^ 32) % 2 ^ 64 =
      p3 + p1 / 2 ^ 32 + p2 / 2 ^ 32 + mid / 2 ^ 32 := by omega
  have hhighlt : p3 + p1 / 2 ^ 32 + p2 / 2 ^ 32 + mid / 2 ^ 32 < 2 ^ 32 := by omega
  rw [hhigh]
  generalize p3 + p1 / 2 ^ 32 + p2 / 2 ^ 32 + mid / 2 ^ 32 = high at *
  have hshift : high * 2 ^ 32 < 2 ^ 64 :=
    (Nat.mul_lt_mul_of_pos_right hhighlt (Nat.two_pow_pos 32)).trans_eq (by norm_num)
  have hlast : mid % 2 ^ 32 < 2 ^ 32 := Nat.mod_lt mid (Nat.two_pow_pos 32)
  rw [Nat.shiftLeft_eq, Nat.mod_eq_of_lt hshift, ← Nat.shiftLeft_eq,
    ← Nat.shiftLeft_add_eq_or_of_lt hlast, Nat.shiftLeft_eq]

theorem msb_eq_false_of_lt {a : Fx} (ha : a.toNat < 2 ^ 63) : a.msb = false :=
  msb_eq_false_iff_two_mul_lt.mpr (by omega)

/-- The product of two numbers that are not negative. -/
theorem toNat_fxMul {a b : Fx} (ha : a.toNat < 2 ^ 63) (hb : b.toNat < 2 ^ 63)
    (h : a.toNat * b.toNat / 2 ^ 32 < 2 ^ 64) : (fxMul a b).toNat = a.toNat * b.toNat / 2 ^ 32 := by
  have hma := msb_eq_false_of_lt ha
  have hmb := msb_eq_false_of_lt hb
  have hx : (a ^^^ b).msb = false := by rw [msb_xor, hma, hmb]; rfl
  simp only [fxMul, fxAbs, hma, hmb, hx, Bool.false_eq_true, if_false]
  exact toNat_mulHalves a b h

/-! ### Comparisons of numbers that are not negative -/

theorem slt_eq_of_lt {a b : Fx} (ha : a.toNat < 2 ^ 63) (hb : b.toNat < 2 ^ 63) :
    a.slt b = decide (a.toNat < b.toNat) := by
  rw [slt_eq_ult_of_msb_eq (by rw [msb_eq_false_of_lt ha, msb_eq_false_of_lt hb])]
  rfl

theorem toNat_fxMin {a b : Fx} (ha : a.toNat < 2 ^ 63) (hb : b.toNat < 2 ^ 63) :
    (fxMin a b).toNat = min a.toNat b.toNat := by
  simp only [fxMin, slt_eq_of_lt hb ha, decide_eq_true_eq]
  split
  · omega
  · omega

theorem toNat_fxMax {a b : Fx} (ha : a.toNat < 2 ^ 63) (hb : b.toNat < 2 ^ 63) :
    (fxMax a b).toNat = max a.toNat b.toNat := by
  simp only [fxMax, slt_eq_of_lt ha hb, decide_eq_true_eq]
  split
  · omega
  · omega

end Charmos.Math
