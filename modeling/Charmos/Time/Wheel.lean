import Mathlib

/-!
# The timer wheel

The wheel has ten levels of 64 buckets. The buckets of a level stand for times that are multiples of
its granularity, `16 ^ level` microseconds, and a timer is put on the first level whose buckets
reach far enough from the base's clock, into the bucket of the first multiple after its expiration.
Timers never move to another level.

`InSlot c i e` says that bucket `i` stands for the time `e` when the clock is `c`: a bucket stands
for one time only (`InSlot.unique`). The scan for the next pending bucket stops as soon as no higher
level can have an earlier one; it finds the least time of all pending buckets
(`timerRecalcNext_least`). Times do not reach `TIME_US_MAX`, which is `none` here.
-/

namespace Charmos.Time

open List Option

def timerLevels : ℕ := 10

/-- `TIMER_LEVEL_GRANULARITY`. -/
def timerLevelGranularity (n : ℕ) : ℕ := 16 ^ n

/-- `TIMER_LEVEL_START`. -/
def timerLevelStart (n : ℕ) : ℕ := 63 * 16 ^ (n - 1)

/-- `TIMER_WHEEL_TIMEOUT_CUTOFF`. -/
def timerWheelTimeoutCutoff : ℕ := timerLevelStart timerLevels

/-- `TIMER_WHEEL_TIMEOUT_MAX`. -/
def timerWheelTimeoutMax : ℕ :=
  timerWheelTimeoutCutoff - timerLevelGranularity (timerLevels - 1)

/-- `wheel_index_for_level`: the bucket and the time it stands for. -/
def wheelIndexForLevel (expiration level : ℕ) : ℕ × ℕ :=
  let e := expiration / timerLevelGranularity level + 1
  (level * 64 + e % 64, e * timerLevelGranularity level)

/-- `wheel_index_for`: the levels are tried one after the other. -/
def wheelIndexFor (expiration now : ℕ) : ℕ × ℕ :=
  let delta := expiration - now
  if expiration < now then (now % 64, now)
  else
    match (range timerLevels).find? fun l => delta < timerLevelStart (l + 1) with
    | some level => wheelIndexForLevel expiration level
    | none =>
      let e := if delta ≥ timerWheelTimeoutCutoff then now + timerWheelTimeoutMax else expiration
      wheelIndexForLevel e (timerLevels - 1)

/-- `bitmap_find_next_bit`. -/
def bitmapFindNextBit (map : ℕ → Bool) (nbits start : ℕ) : Option ℕ :=
  (range' start (nbits - start)).find? map

/-- `timer_next_pending`: the distance to the next pending bucket of a level, cyclically. -/
def timerNextPending (map : ℕ → Bool) (offset clock : ℕ) : Option ℕ :=
  let start := offset + clock
  match bitmapFindNextBit map (offset + 64) start with
  | some pos => some (pos - start)
  | none => (bitmapFindNextBit map start offset).map fun pos => pos + 64 - start

/-- The loop of `timer_recalc_next_expiration` for `n` levels from `level` on, with the clock of the
level. -/
def timerRecalcFrom (map : ℕ → Bool) : ℕ → ℕ → ℕ → Option ℕ → Option ℕ
  | 0, _, _, next => next
  | n + 1, level, clock, next =>
    let clockLevel := clock % 16
    let higher := clock / 16 + if clockLevel ≠ 0 then 1 else 0
    match timerNextPending map (level * 64) (clock % 64) with
    | some pos =>
      let sum := (clock + pos) * timerLevelGranularity level
      let next' := if next.all (sum < ·) then some sum else next
      if pos ≤ (16 - clockLevel) % 16 then next'
      else timerRecalcFrom map n (level + 1) higher next'
    | none => timerRecalcFrom map n (level + 1) higher next

/-- `next` as `timer_recalc_next_expiration` computes it. -/
def timerRecalcNext (map : ℕ → Bool) (clock : ℕ) : Option ℕ :=
  timerRecalcFrom map timerLevels 0 clock none

/-! ### Buckets -/

/-- Bucket `i` stands for the time `e` when the clock is `c`. -/
structure InSlot (c i e : ℕ) : Prop where
  index : i < 640
  dvd : 16 ^ (i / 64) ∣ e
  slot : e / 16 ^ (i / 64) % 64 = i % 64
  lower : c ≤ e
  upper : e < c + 64 * 16 ^ (i / 64)

variable {c c' i e e' n p q : ℕ} {map : ℕ → Bool} {l offset : ℕ} {r : Option ℕ} {D : ℕ → Prop}

/-- A bucket stands for one time. -/
theorem InSlot.unique (h : InSlot c i e) (h' : InSlot c i e') : e = e' := by
  have hg : 0 < 16 ^ (i / 64) := Nat.pow_pos (by decide)
  obtain ⟨a, ha⟩ := h.dvd
  obtain ⟨b, hb⟩ := h'.dvd
  have hslot := h.slot.trans h'.slot.symm
  have hl := h.lower
  have hu := h.upper
  have hl' := h'.lower
  have hu' := h'.upper
  generalize 16 ^ (i / 64) = g at *
  subst ha hb
  rw [Nat.mul_div_cancel_left _ hg, Nat.mul_div_cancel_left _ hg] at hslot
  have hab : a < b + 64 := by
    refine Nat.lt_of_mul_lt_mul_left (a := g) ?_
    rw [mul_add, mul_comm g 64]
    omega
  have hba : b < a + 64 := by
    refine Nat.lt_of_mul_lt_mul_left (a := g) ?_
    rw [mul_add, mul_comm g 64]
    omega
  have : a = b := by omega
  rw [this]

/-- The clock goes on, but not past the time of the bucket. -/
theorem InSlot.advance (h : InSlot c i e) (hc : c ≤ c') (he : c' ≤ e) : InSlot c' i e :=
  ⟨h.index, h.dvd, h.slot, he, by have := h.upper; omega⟩

private theorem level_div {k : ℕ} (hk : k < 64) : (l * 64 + k) / 64 = l := by omega

private theorem level_mod {k : ℕ} (hk : k < 64) : (l * 64 + k) % 64 = k := by omega

private theorem wheelIndexForLevel_slot (hl : l < 10) (hc : c ≤ e) (hd : e - c < 63 * 16 ^ l) :
    InSlot c (wheelIndexForLevel e l).1 (wheelIndexForLevel e l).2 ∧
      (wheelIndexForLevel e l).1 / 64 = l ∧ e < (wheelIndexForLevel e l).2 ∧
      (wheelIndexForLevel e l).2 ≤ e + 16 ^ l := by
  have hg : 0 < 16 ^ l := by positivity
  have hk : (e / 16 ^ l + 1) % 64 < 64 := Nat.mod_lt _ (by decide)
  have hfloor : 16 ^ l * (e / 16 ^ l) ≤ e := Nat.mul_div_le e _
  have hceil : e < 16 ^ l * (e / 16 ^ l + 1) := Nat.lt_mul_div_succ e hg
  have htime : (wheelIndexForLevel e l).2 = 16 ^ l * (e / 16 ^ l + 1) := mul_comm _ _
  have hlev : (wheelIndexForLevel e l).1 / 64 = l := level_div hk
  rw [mul_add, mul_one] at hceil htime
  refine ⟨⟨?_, ?_, ?_, ?_, ?_⟩, hlev, by omega, by omega⟩
  · omega
  · rw [hlev]
    exact Nat.dvd_mul_left _ _
  · rw [hlev]
    change (e / 16 ^ l + 1) * 16 ^ l / 16 ^ l % 64 = (l * 64 + (e / 16 ^ l + 1) % 64) % 64
    rw [Nat.mul_div_cancel _ hg, level_mod hk]
  · omega
  · rw [hlev]
    omega

/-- The bucket that a timer is put into stands for a time that is not in the past; if the expiration
is not in the past either, it is after the expiration by the level's granularity at most. -/
theorem wheelIndexFor_slot (e c : ℕ) :
    InSlot c (wheelIndexFor e c).1 (wheelIndexFor e c).2 ∧
      (e < c → (wheelIndexFor e c).2 = c) ∧
      (c ≤ e → e - c < timerWheelTimeoutCutoff → e < (wheelIndexFor e c).2 ∧
        (wheelIndexFor e c).2 ≤ e + timerLevelGranularity ((wheelIndexFor e c).1 / 64)) := by
  unfold wheelIndexFor
  dsimp only
  split
  case isTrue hlt =>
    refine ⟨⟨?_, ?_, ?_, ?_, ?_⟩, fun _ => rfl, fun hle => absurd hlt (by omega)⟩
    · omega
    · have : c % 64 / 64 = 0 := by omega
      rw [this]
      exact Nat.one_dvd c
    · have : c % 64 / 64 = 0 := by omega
      simp
    · exact le_refl c
    · exact Nat.lt_add_of_pos_right (Nat.mul_pos (by decide) (Nat.pow_pos (by decide)))
  case isFalse hge =>
    have hle : c ≤ e := by omega
    split
    case h_1 l hl =>
      have hlt := mem_range.mp (mem_of_find?_eq_some hl)
      have hd : e - c < 63 * 16 ^ l := by
        have hfound := find?_some hl
        simpa [timerLevelStart] using of_decide_eq_true hfound
      obtain ⟨hslot, hlev, hafter, hlate⟩ := wheelIndexForLevel_slot hlt hle hd
      refine ⟨hslot, fun hc => absurd hc hge, fun _ _ => ⟨hafter, ?_⟩⟩
      rw [hlev]
      exact hlate
    case h_2 hnone =>
      have hcut : timerWheelTimeoutCutoff ≤ e - c := by
        have := find?_eq_none.mp hnone 9 (mem_range.mpr (by decide))
        simpa [timerWheelTimeoutCutoff, timerLevels] using this
      rw [if_pos hcut]
      have hmax : timerWheelTimeoutMax < 63 * 16 ^ 9 := by decide
      obtain ⟨hslot, -, -, -⟩ := wheelIndexForLevel_slot (l := timerLevels - 1) (by decide)
        (Nat.le_add_right c timerWheelTimeoutMax)
        (by rw [Nat.add_sub_cancel_left]; exact hmax)
      exact ⟨hslot, fun hc => absurd hc hge, fun _ hd => absurd hcut (by omega)⟩

/-! ### The next pending bucket -/

private theorem bitmapFindNextBit_some {nbits start pos : ℕ}
    (h : bitmapFindNextBit map nbits start = some pos) :
    start ≤ pos ∧ pos < nbits ∧ map pos = true ∧ ∀ q, start ≤ q → q < pos → map q = false := by
  obtain ⟨hpos, l₁, l₂, hsplit, hbefore⟩ := find?_eq_some_iff_append.mp h
  have hmem : pos ∈ range' start (nbits - start) := by
    rw [hsplit]
    simp
  rw [mem_range'_1] at hmem
  refine ⟨hmem.1, by omega, hpos, fun q hq hqp => ?_⟩
  have hq' : q ∈ range' start (nbits - start) := mem_range'_1.mpr (by omega)
  have hpair := pairwise_lt_range' (s := start) (n := nbits - start)
  rw [hsplit] at hq' hpair
  rcases mem_append.mp hq' with hq' | hq'
  · simpa using hbefore q hq'
  rcases mem_cons.mp hq' with rfl | hq'
  · omega
  · have := (pairwise_cons.mp (pairwise_append.mp hpair).2.1).1 q hq'
    omega

private theorem bitmapFindNextBit_none {nbits start : ℕ}
    (h : bitmapFindNextBit map nbits start = none) :
    ∀ q, start ≤ q → q < nbits → map q = false := by
  intro q hq hqn
  have := find?_eq_none.mp h q (mem_range'_1.mpr (by omega))
  simpa using this

/-- The next pending bucket of a level is the first from the clock on, cyclically. -/
theorem timerNextPending_some (hc : c < 64) (h : timerNextPending map offset c = some p) :
    p < 64 ∧ map (offset + (c + p) % 64) = true ∧
      ∀ q < p, map (offset + (c + q) % 64) = false := by
  unfold timerNextPending at h
  dsimp only at h
  split at h
  case h_1 pos hpos =>
    obtain ⟨hge, hlt, hbit, hbefore⟩ := bitmapFindNextBit_some hpos
    obtain ⟨⟩ := h
    refine ⟨by omega, ?_, fun q hq => hbefore _ (by omega) (by omega)⟩
    have : offset + (c + (pos - (offset + c))) % 64 = pos := by omega
    rw [this]
    exact hbit
  case h_2 hnone =>
    obtain ⟨pos, hpos, rfl⟩ := map_eq_some_iff.mp h
    obtain ⟨hge, hlt, hbit, hbefore⟩ := bitmapFindNextBit_some hpos
    have hafter := bitmapFindNextBit_none hnone
    refine ⟨by omega, ?_, fun q hq => ?_⟩
    · have : offset + (c + (pos + 64 - (offset + c))) % 64 = pos := by omega
      rw [this]
      exact hbit
    · by_cases hqc : c + q < 64
      · exact hafter _ (by omega) (by omega)
      · exact hbefore _ (by omega) (by omega)

theorem timerNextPending_none (hc : c < 64) (h : timerNextPending map offset c = none) :
    ∀ q, map (offset + q % 64) = false := by
  unfold timerNextPending at h
  dsimp only at h
  split at h
  case h_1 => cases h
  case h_2 hnone =>
    have hbefore := bitmapFindNextBit_none (map_eq_none_iff.mp h)
    have hafter := bitmapFindNextBit_none hnone
    intro q
    by_cases hqc : c ≤ q % 64
    · exact hafter _ (by omega) (by omega)
    · exact hbefore _ (by omega) (by omega)

/-- `r` is the least element, if there is any. -/
def LeastOf (D : ℕ → Prop) : Option ℕ → Prop
  | none => ∀ e, ¬ D e
  | some n => D n ∧ ∀ e, D e → n ≤ e

/-- More elements, none of which is before all the others. -/
theorem LeastOf.widen {D' : ℕ → Prop} (h : LeastOf D r) (hD : ∀ e, D e → D' e)
    (hle : ∀ e, D' e → ∃ e', D e' ∧ e' ≤ e) : LeastOf D' r := by
  cases r with
  | none =>
    intro e he
    obtain ⟨e', he', -⟩ := hle e he
    exact h e' he'
  | some n =>
    refine ⟨hD n h.1, fun e he => ?_⟩
    obtain ⟨e', he', hlt⟩ := hle e he
    exact le_trans (h.2 e' he') hlt

/-- The smaller one of a least element and of another one. -/
theorem LeastOf.min {D' : ℕ → Prop} (h : LeastOf D r) (hn : LeastOf D' (some n)) :
    LeastOf (fun e => D e ∨ D' e) (if r.all (n < ·) then some n else r) := by
  cases r with
  | none =>
    refine ⟨.inr hn.1, ?_⟩
    rintro e (he | he)
    · exact absurd he (h e)
    · exact hn.2 e he
  | some m =>
    by_cases hm : n < m
    · simp only [all_some, hm, decide_true, if_true]
      refine ⟨.inr hn.1, ?_⟩
      rintro e (he | he)
      · exact le_trans (Nat.le_of_lt hm) (h.2 e he)
      · exact hn.2 e he
    · simp only [all_some, hm, decide_false, Bool.false_eq_true, if_false]
      refine ⟨.inl h.1, ?_⟩
      rintro e (he | he)
      · exact h.2 e he
      · exact le_trans (Nat.le_of_not_lt hm) (hn.2 e he)

/-- Bucket expirations of the level. -/
private def AtLevel (map : ℕ → Bool) (c l e : ℕ) : Prop :=
  ∃ i, i / 64 = l ∧ map i = true ∧ InSlot c i e

/-- The clock of a level: the first multiple of its granularity that is not past. -/
private def levelClock (c l : ℕ) : ℕ := (c + 16 ^ l - 1) / 16 ^ l

private theorem levelClock_le (c l : ℕ) : c ≤ 16 ^ l * levelClock c l := by
  have hg : 0 < 16 ^ l := by positivity
  have := Nat.lt_mul_div_succ (c + 16 ^ l - 1) hg
  unfold levelClock
  rw [mul_add, mul_one] at this
  omega

private theorem levelClock_lt (c l : ℕ) : 16 ^ l * levelClock c l < c + 16 ^ l := by
  have hg : 0 < 16 ^ l := by positivity
  have := Nat.mul_div_le (c + 16 ^ l - 1) (16 ^ l)
  unfold levelClock
  omega

private theorem levelClock_succ (c l : ℕ) : levelClock c l / 16 +
    (if levelClock c l % 16 ≠ 0 then 1 else 0) = levelClock c (l + 1) := by
  have hg : 0 < 16 ^ l := by positivity
  have hround : levelClock c l / 16 + (if levelClock c l % 16 ≠ 0 then 1 else 0) =
      (levelClock c l + 15) / 16 := by
    split <;> omega
  rw [hround]
  unfold levelClock
  rw [← Nat.add_mul_div_left _ _ hg, Nat.div_div_eq_div_mul, pow_succ]
  congr 1
  omega

/-- A multiple of the granularity that is not past is one of the clock's successors. -/
private theorem levelClock_le_div (hd : 16 ^ l ∣ e) (hc : c ≤ e) : levelClock c l ≤ e / 16 ^ l := by
  have hg : 0 < 16 ^ l := by positivity
  obtain ⟨k, rfl⟩ := hd
  rw [Nat.mul_div_cancel_left _ hg]
  have hlt := levelClock_lt c l
  refine Nat.le_of_lt_succ (Nat.lt_of_mul_lt_mul_left (a := 16 ^ l) ?_)
  rw [Nat.succ_eq_add_one, mul_add, mul_one]
  omega

private theorem div_lt_levelClock (hd : 16 ^ l ∣ e) (hc : e < c + 64 * 16 ^ l) :
    e / 16 ^ l < levelClock c l + 64 := by
  have hg : 0 < 16 ^ l := by positivity
  obtain ⟨k, rfl⟩ := hd
  rw [Nat.mul_div_cancel_left _ hg]
  have hle := levelClock_le c l
  refine Nat.lt_of_mul_lt_mul_left (a := 16 ^ l) ?_
  rw [mul_add, mul_comm _ 64]
  omega

/-- The least bucket expiration of a level is at the first pending bucket from its clock on. -/
private theorem atLevel_least (hl : l < 10)
    (h : timerNextPending map (l * 64) (levelClock c l % 64) = some p) :
    LeastOf (AtLevel map c l) (some ((levelClock c l + p) * timerLevelGranularity l)) := by
  have hg : 0 < 16 ^ l := by positivity
  obtain ⟨hp, hbit, hfirst⟩ := timerNextPending_some (Nat.mod_lt _ (by decide)) h
  have hk : (levelClock c l + p) % 64 < 64 := Nat.mod_lt _ (by decide)
  rw [Nat.mod_add_mod] at hbit
  refine ⟨⟨l * 64 + (levelClock c l + p) % 64, level_div hk, hbit, ?_⟩, ?_⟩
  · have hle := levelClock_le c l
    have hlt := levelClock_lt c l
    have hpg : 16 ^ l * p ≤ 16 ^ l * 63 := Nat.mul_le_mul_left _ (by omega)
    have htime : (levelClock c l + p) * timerLevelGranularity l =
        16 ^ l * levelClock c l + 16 ^ l * p := by
      unfold timerLevelGranularity
      rw [mul_comm, mul_add]
    refine ⟨by omega, ?_, ?_, by omega, ?_⟩ <;> rw [level_div hk]
    · exact Nat.dvd_mul_left _ _
    · rw [level_mod hk]
      exact congrArg (· % 64) (Nat.mul_div_cancel _ hg)
    · omega
  · rintro e ⟨i, rfl, hi, hslot⟩
    have hge := levelClock_le_div hslot.dvd hslot.lower
    have hlt := div_lt_levelClock hslot.dvd hslot.upper
    have hidx : i = i / 64 * 64 + e / 16 ^ (i / 64) % 64 := by
      rw [hslot.slot]
      omega
    have hpq : p ≤ e / 16 ^ (i / 64) - levelClock c (i / 64) := by
      by_contra hlt
      have hclear := hfirst (e / 16 ^ (i / 64) - levelClock c (i / 64)) (by omega)
      rw [Nat.mod_add_mod, Nat.add_sub_cancel' hge, ← hidx, hi] at hclear
      cases hclear
    calc (levelClock c (i / 64) + p) * 16 ^ (i / 64)
        ≤ e / 16 ^ (i / 64) * 16 ^ (i / 64) := Nat.mul_le_mul_right _ (by omega)
      _ = e := Nat.div_mul_cancel hslot.dvd

private theorem atLevel_none (h : timerNextPending map (l * 64) (levelClock c l % 64) = none) :
    ∀ e, ¬ AtLevel map c l e := by
  rintro e ⟨i, rfl, hi, -⟩
  have := timerNextPending_none (Nat.mod_lt _ (by decide)) h i
  have hidx : i / 64 * 64 + i % 64 = i := by omega
  rw [hidx, hi] at this
  cases this

/-- Higher levels have no bucket before the first multiple of their granularity. -/
private theorem atLevel_higher {l' : ℕ} (hl : l < l') (he : AtLevel map c l' e) :
    (levelClock c l + (16 - levelClock c l % 16) % 16) * timerLevelGranularity l ≤ e := by
  obtain ⟨i, rfl, -, hslot⟩ := he
  have hd : 16 ^ (l + 1) ∣ e := Nat.dvd_trans (Nat.pow_dvd_pow 16 hl) hslot.dvd
  have hge := levelClock_le_div hd hslot.lower
  have hround : levelClock c l + (16 - levelClock c l % 16) % 16 = 16 * levelClock c (l + 1) := by
    rw [← levelClock_succ]
    split <;> omega
  rw [hround]
  calc 16 * levelClock c (l + 1) * timerLevelGranularity l
      = levelClock c (l + 1) * 16 ^ (l + 1) := by
        unfold timerLevelGranularity
        rw [pow_succ, mul_comm 16, mul_assoc, mul_comm 16]
    _ ≤ e / 16 ^ (l + 1) * 16 ^ (l + 1) := Nat.mul_le_mul_right _ hge
    _ = e := Nat.div_mul_cancel hd

private theorem timerRecalcFrom_least {next : Option ℕ} (hn : l + n ≤ 10) (hD : LeastOf D next) :
    LeastOf (fun e => D e ∨ ∃ k, l ≤ k ∧ k < l + n ∧ AtLevel map c k e)
      (timerRecalcFrom map n l (levelClock c l) next) := by
  induction n generalizing l D next with
  | zero =>
    refine hD.widen (fun e he => .inl he) ?_
    rintro e (he | ⟨k, hk, hk', -⟩)
    · exact ⟨e, he, le_refl e⟩
    · omega
  | succ n ih =>
    simp only [timerRecalcFrom]
    split
    case h_1 p hp =>
      have hlevel := atLevel_least (by omega) hp
      have hleast := hD.min hlevel
      split
      case isTrue hbreak =>
        -- no higher level has a bucket before the one that was found
        refine hleast.widen ?_ ?_
        · rintro e (he | he)
          · exact .inl he
          · exact .inr ⟨l, le_refl l, by omega, he⟩
        rintro e (he | ⟨k, hk, -, he⟩)
        · exact ⟨e, .inl he, le_refl e⟩
        by_cases hkl : k = l
        · subst hkl
          exact ⟨e, .inr he, le_refl e⟩
        · have hhigher := atLevel_higher (l := l) (by omega) he
          refine ⟨_, .inr hlevel.1, le_trans ?_ hhigher⟩
          exact Nat.mul_le_mul_right _ (by omega)
      case isFalse =>
        rw [levelClock_succ]
        refine (ih (by omega) hleast).widen ?_ ?_
        · rintro e ((he | he) | ⟨k, hk, hk', he⟩)
          · exact .inl he
          · exact .inr ⟨l, le_refl l, by omega, he⟩
          · exact .inr ⟨k, by omega, by omega, he⟩
        · rintro e (he | ⟨k, hk, hk', he⟩)
          · exact ⟨e, .inl (.inl he), le_refl e⟩
          by_cases hkl : k = l
          · subst hkl
            exact ⟨e, .inl (.inr he), le_refl e⟩
          · exact ⟨e, .inr ⟨k, by omega, by omega, he⟩, le_refl e⟩
    case h_2 hp =>
      rw [levelClock_succ]
      refine (ih (by omega) hD).widen ?_ ?_
      · rintro e (he | ⟨k, hk, hk', he⟩)
        · exact .inl he
        · exact .inr ⟨k, by omega, by omega, he⟩
      rintro e (he | ⟨k, hk, hk', he⟩)
      · exact ⟨e, .inl he, le_refl e⟩
      by_cases hkl : k = l
      · subst hkl
        exact absurd he (atLevel_none hp e)
      · exact ⟨e, .inr ⟨k, by omega, by omega, he⟩, le_refl e⟩

/-- The scan finds the least time that a pending bucket stands for. -/
theorem timerRecalcNext_least (map : ℕ → Bool) (c : ℕ) :
    LeastOf (fun e => ∃ i, map i = true ∧ InSlot c i e) (timerRecalcNext map c) := by
  have hstart : levelClock c 0 = c := by simp [levelClock]
  have hscan : LeastOf (fun e => False ∨ ∃ k, 0 ≤ k ∧ k < 0 + timerLevels ∧ AtLevel map c k e)
      (timerRecalcFrom map timerLevels 0 (levelClock c 0) none) :=
    timerRecalcFrom_least (by decide) (fun _ he => he)
  rw [hstart] at hscan
  refine hscan.widen ?_ ?_
  · rintro e (he | ⟨k, -, -, i, -, hi, hslot⟩)
    · exact he.elim
    · exact ⟨i, hi, hslot⟩
  rintro e ⟨i, hi, hslot⟩
  have hlevel : i / 64 < 0 + timerLevels := by
    have := hslot.index
    unfold timerLevels
    omega
  exact ⟨e, .inr ⟨i / 64, Nat.zero_le _, hlevel, i, rfl, hi, hslot⟩, le_refl e⟩

end Charmos.Time
