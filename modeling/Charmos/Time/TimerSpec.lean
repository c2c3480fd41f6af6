import Charmos.Time.Timer

/-!
# The invariant of the timers

An armed timer is in the bucket that its flags name, which stands for its bucket expiration
(`WheelOk`), or it has been collected and is on a list of `timer_base_run` or of the DPC, and then
its bucket expiration is past (`PlaceOk`). The next expiration of the base is the least one of its
buckets, except while collected timers are called and the base has not been scanned since
(`NextOk`).
-/

namespace Charmos.Time

open Function List

variable {T : Type}

/-- The buckets hold what they stand for. -/
structure WheelOk (b : TimerBase T) (bucket E : T → ℕ) : Prop where
  slot : ∀ i, ∀ t ∈ b.buckets i, bucket t = i ∧ InSlot b.clock i (E t)
  map : ∀ i, b.pendingMap i = true ↔ b.buckets i ≠ []
  nodup : ∀ i, (b.buckets i).Nodup
  pending : b.pending = b.nextExpiration.isSome

/-- The next expiration is the least one of all buckets. -/
def NextExact (b : TimerBase T) (E : T → ℕ) : Prop :=
  LeastOf (fun e => ∃ i, ∃ t ∈ b.buckets i, E t = e) b.nextExpiration

/-- The next expiration is exact, or it is the one that has been collected. -/
def NextOk (b : TimerBase T) (E : T → ℕ) : RunPhase T → Prop
  | .idle => NextExact b E
  | .looping _ => NextExact b E
  | _ => NextExact b E ∨ ∃ n, b.nextExpiration = some n ∧ n ≤ b.clock

/-- The time that `timer_base_run` has read is not after `now`. -/
def RunPhase.timeLe (now : ℕ) : RunPhase T → Prop
  | .idle => True
  | .looping time => time ≤ now
  | .expiring time _ => time ≤ now
  | .calling time _ _ => time ≤ now

/-- Where the timers are: in a bucket, collected, or with the DPC. -/
structure PlaceOk (s : TimerSys T) : Prop where
  headsNodup : s.phase.heads.flatten.Nodup
  dpcNodup : s.dpcTimers.Nodup
  bucketApart : ∀ i, ∀ t ∈ s.base.buckets i, t ∉ s.phase.heads.flatten ∧ t ∉ s.dpcTimers
  headsApart : ∀ t ∈ s.phase.heads.flatten, t ∉ s.dpcTimers
  hashed : ∀ t, s.hashed t = true ↔
    (∃ i, t ∈ s.base.buckets i) ∨ t ∈ s.phase.heads.flatten ∨ t ∈ s.dpcTimers
  queued : ∀ t, s.dpcQueued t = true ↔ t ∈ s.dpcTimers
  headsDue : ∀ t ∈ s.phase.heads.flatten, s.bucketExpiration t ≤ s.now
  dpcDue : ∀ t ∈ s.dpcTimers, s.bucketExpiration t ≤ s.now

/-- The bucket expiration of a timer against its expiration and the clock it was armed at. -/
structure ArmOk (expiration bucketExpiration armedClock bucket : ℕ) : Prop where
  after : expiration < bucketExpiration
  late : armedClock ≤ expiration →
    bucketExpiration ≤ expiration + timerLevelGranularity (bucket / 64)
  passed : expiration < armedClock → bucketExpiration = armedClock

/-- The invariant. -/
structure TimerOk (s : TimerSys T) : Prop where
  wheel : WheelOk s.base s.bucket s.bucketExpiration
  place : PlaceOk s
  next : NextOk s.base s.bucketExpiration s.phase
  clock : s.base.clock ≤ s.now
  time : s.phase.timeLe s.now
  arm : ∀ t, s.hashed t = true → s.capped t = false →
    ArmOk (s.expiration t) (s.bucketExpiration t) (s.armedClock t) (s.bucket t)
  count : ∀ t, s.armed t = s.fired t + s.cancelled t + if s.hashed t then 1 else 0

variable {b : TimerBase T} {bucket E : T → ℕ} {s s' : TimerSys T} {t : T} {c i l n : ℕ}

/-! ### Places -/

/-- What `PlaceOk` says of one timer. -/
structure PlacedOk (s : TimerSys T) (t : T) : Prop where
  bucketApart : ∀ i, t ∈ s.base.buckets i → t ∉ s.phase.heads.flatten ∧ t ∉ s.dpcTimers
  headsApart : t ∈ s.phase.heads.flatten → t ∉ s.dpcTimers
  hashed : s.hashed t = true ↔
    (∃ i, t ∈ s.base.buckets i) ∨ t ∈ s.phase.heads.flatten ∨ t ∈ s.dpcTimers
  queued : s.dpcQueued t = true ↔ t ∈ s.dpcTimers
  due : t ∈ s.phase.heads.flatten ∨ t ∈ s.dpcTimers → s.bucketExpiration t ≤ s.now

theorem PlacedOk.nowhere (hb : ∀ i, t ∉ s.base.buckets i) (hh : t ∉ s.phase.heads.flatten)
    (hd : t ∉ s.dpcTimers) (hf : s.hashed t = false) (hq : s.dpcQueued t = false) :
    PlacedOk s t := by
  refine ⟨fun i hi => absurd hi (hb i), fun hm => absurd hm hh, ?_, by simp [hq, hd], ?_⟩
  · simp [hf, hb, hh, hd]
  · rintro (hm | hm)
    · exact absurd hm hh
    · exact absurd hm hd

/-- The timer is where it was. -/
structure SamePlace (s s' : TimerSys T) (t : T) : Prop where
  buckets : ∀ i, t ∈ s'.base.buckets i ↔ t ∈ s.base.buckets i
  heads : t ∈ s'.phase.heads.flatten ↔ t ∈ s.phase.heads.flatten
  dpc : t ∈ s'.dpcTimers ↔ t ∈ s.dpcTimers
  hashed : s'.hashed t = s.hashed t
  queued : s'.dpcQueued t = s.dpcQueued t
  due : s.bucketExpiration t ≤ s.now → s'.bucketExpiration t ≤ s'.now

/-- Every timer is where it was or in its new place. -/
theorem PlaceOk.move (h : PlaceOk s) (hheads : s'.phase.heads.flatten.Nodup)
    (hdpc : s'.dpcTimers.Nodup) (hall : ∀ t, SamePlace s s' t ∨ PlacedOk s' t) : PlaceOk s' := by
  have hp : ∀ t, PlacedOk s' t := by
    intro t
    rcases hall t with hs | hp
    · refine ⟨fun i hi => ?_, ?_, ?_, ?_, ?_⟩
      · rw [hs.heads, hs.dpc]
        exact h.bucketApart i t ((hs.buckets i).mp hi)
      · rw [hs.heads, hs.dpc]
        exact h.headsApart t
      · simp only [hs.hashed, hs.buckets, hs.heads, hs.dpc]
        exact h.hashed t
      · rw [hs.queued, hs.dpc]
        exact h.queued t
      · rw [hs.heads, hs.dpc]
        exact fun hm => hs.due (hm.elim (h.headsDue t) (h.dpcDue t))
    · exact hp
  exact ⟨hheads, hdpc, fun i t => (hp t).bucketApart i, fun t => (hp t).headsApart,
    fun t => (hp t).hashed, fun t => (hp t).queued, fun t hm => (hp t).due (.inl hm),
    fun t hm => (hp t).due (.inr hm)⟩

/-! ### The next expiration -/

theorem NextExact.le (h : NextExact b E) (hn : b.nextExpiration = some n)
    (ht : t ∈ b.buckets i) : n ≤ E t := by
  rw [NextExact, hn] at h
  exact h.2 _ ⟨i, t, ht, rfl⟩

theorem NextExact.exists_mem (h : NextExact b E) (hn : b.nextExpiration = some n) :
    ∃ i, ∃ t ∈ b.buckets i, E t = n := by
  rw [NextExact, hn] at h
  exact h.1

theorem NextExact.not_mem (h : NextExact b E) (hn : b.nextExpiration = none) : t ∉ b.buckets i := by
  rw [NextExact, hn] at h
  exact fun ht => h _ ⟨i, t, ht, rfl⟩

/-! ### The scan -/

/-- After the scan the next expiration is exact. -/
theorem WheelOk.recalc (h : WheelOk b bucket E) :
    WheelOk (timerRecalcNextExpiration b) bucket E ∧ NextExact (timerRecalcNextExpiration b) E := by
  refine ⟨⟨h.slot, h.map, h.nodup, rfl⟩, ?_⟩
  refine (timerRecalcNext_least b.pendingMap b.clock).widen ?_ ?_
  · rintro e ⟨i, hi, hslot⟩
    obtain ⟨t, ht⟩ := exists_mem_of_ne_nil _ ((h.map i).mp hi)
    exact ⟨i, t, ht, (h.slot i t ht).2.unique hslot⟩
  · rintro e ⟨i, t, ht, rfl⟩
    exact ⟨E t, ⟨i, (h.map i).mpr (ne_nil_of_mem ht), (h.slot i t ht).2⟩, le_refl _⟩

/-! ### Collecting -/

/-- Bucket `i` stands for the time `c` on one of `n` levels from `l` on. -/
private def Taken (c l n i : ℕ) : Prop :=
  ∃ k, l ≤ k ∧ k < l + n ∧ 16 ^ k ∣ c ∧ i = k * 64 + c / 16 ^ k % 64

private theorem taken_succ (hd : 16 ^ l ∣ c) (hm : c / 16 ^ l % 16 = 0) :
    Taken c l (n + 1) i ↔ i = l * 64 + c / 16 ^ l % 64 ∨ Taken c (l + 1) n i := by
  refine ⟨?_, ?_⟩
  · rintro ⟨k, hk, hk', hd', rfl⟩
    by_cases hkl : k = l
    · subst hkl
      exact .inl rfl
    · exact .inr ⟨k, by omega, by omega, hd', rfl⟩
  · rintro (rfl | ⟨k, hk, hk', hd', rfl⟩)
    · exact ⟨l, le_refl l, by omega, hd, rfl⟩
    · exact ⟨k, by omega, by omega, hd', rfl⟩

private theorem taken_last (hd : 16 ^ l ∣ c) (hm : c / 16 ^ l % 16 ≠ 0) :
    Taken c l (n + 1) i ↔ i = l * 64 + c / 16 ^ l % 64 := by
  refine ⟨?_, ?_⟩
  · rintro ⟨k, hk, hk', hd', rfl⟩
    by_cases hkl : k = l
    · subst hkl
      rfl
    have hdvd : 16 ^ (l + 1) ∣ c := Nat.dvd_trans (Nat.pow_dvd_pow 16 (by omega)) hd'
    obtain ⟨a, rfl⟩ := hdvd
    have hg : 0 < 16 ^ l := by positivity
    rw [pow_succ, mul_assoc, Nat.mul_div_cancel_left _ hg] at hm
    omega
  · rintro rfl
    exact ⟨l, le_refl l, by omega, hd, rfl⟩

private theorem not_taken_higher : ¬ Taken c (l + 1) n (l * 64 + c / 16 ^ l % 64) := by
  rintro ⟨k, hk, -, -, he⟩
  omega

/-- The bits say which buckets are empty, and no timer is in two of them. -/
private structure BucketsOk (b : TimerBase T) : Prop where
  map : ∀ i, b.pendingMap i = true ↔ b.buckets i ≠ []
  nodup : ∀ i, (b.buckets i).Nodup
  apart : ∀ i j t, t ∈ b.buckets i → t ∈ b.buckets j → i = j

/-- What the loop of `timer_collect_expired` takes. -/
private structure Collected (b : TimerBase T) (taken : ℕ → Prop)
    (r : TimerBase T × List (List T)) : Prop where
  frame : r.1.clock = b.clock ∧ r.1.nextExpiration = b.nextExpiration ∧ r.1.pending = b.pending
  bucketTaken : ∀ i, taken i → r.1.buckets i = [] ∧ r.1.pendingMap i = false
  bucketKept : ∀ i, ¬ taken i →
    r.1.buckets i = b.buckets i ∧ r.1.pendingMap i = b.pendingMap i
  mem : ∀ t, t ∈ r.2.flatten ↔ ∃ i, taken i ∧ t ∈ b.buckets i
  nodup : r.2.flatten.Nodup
  nonempty : ∀ l ∈ r.2, l ≠ []

section Collected

variable {taken taken' : ℕ → Prop} {r r' : TimerBase T × List (List T)}

private theorem Collected.mem_kept (h : Collected b taken r) :
    t ∈ r.1.buckets i ↔ ¬ taken i ∧ t ∈ b.buckets i := by
  by_cases hi : taken i
  · simp [hi, (h.bucketTaken i hi).1]
  · simp [hi, (h.bucketKept i hi).1]

private theorem Collected.bucketsOk (h : Collected b taken r) (hb : BucketsOk b) :
    BucketsOk r.1 := by
  refine ⟨fun i => ?_, fun i => ?_, fun i j t hi hj => ?_⟩
  · by_cases hi : taken i
    · obtain ⟨hnil, hmap⟩ := h.bucketTaken i hi
      simp [hnil, hmap]
    · obtain ⟨hsame, hmap⟩ := h.bucketKept i hi
      rw [hsame, hmap]
      exact hb.map i
  · by_cases hi : taken i
    · rw [(h.bucketTaken i hi).1]
      exact nodup_nil
    · rw [(h.bucketKept i hi).1]
      exact hb.nodup i
  · exact hb.apart i j t (h.mem_kept.mp hi).2 (h.mem_kept.mp hj).2

/-- One bucket is taken, which is empty if its bit is clear. -/
private theorem BucketsOk.collected (hb : BucketsOk b) (idx : ℕ) : Collected b (· = idx)
    ({ b with
        pendingMap := update b.pendingMap idx false
        buckets := if b.pendingMap idx then update b.buckets idx [] else b.buckets },
      if b.pendingMap idx then [b.buckets idx] else []) := by
  by_cases hp : b.pendingMap idx = true
  · simp only [if_pos hp]
    refine ⟨⟨rfl, rfl, rfl⟩, ?_, fun i hi => ⟨update_of_ne hi _ _, update_of_ne hi _ _⟩, by simp,
      by simpa using hb.nodup idx, by simpa using (hb.map idx).mp hp⟩
    rintro _ rfl
    exact ⟨update_self _ _ _, update_self _ _ _⟩
  · have hnil : b.buckets idx = [] := by
      by_contra hne
      exact hp ((hb.map idx).mpr hne)
    simp only [if_neg hp]
    refine ⟨⟨rfl, rfl, rfl⟩, ?_, fun i hi => ⟨rfl, update_of_ne hi _ _⟩, by simp [hnil], nodup_nil,
      nofun⟩
    rintro _ rfl
    exact ⟨hnil, update_self _ _ _⟩

/-- Other buckets are taken after the first ones. -/
private theorem Collected.append (h : Collected b taken r) (h' : Collected r.1 taken' r')
    (hb : BucketsOk b) (hdisj : ∀ i, taken i → ¬ taken' i) :
    Collected b (fun i => taken i ∨ taken' i) (r'.1, r.2 ++ r'.2) := by
  have hmem : ∀ t, t ∈ r'.2.flatten ↔ ∃ i, taken' i ∧ t ∈ b.buckets i := by
    intro t
    rw [h'.mem]
    refine exists_congr fun i => and_congr_right fun hi => ?_
    rw [(h.bucketKept i fun hc => hdisj i hc hi).1]
  refine ⟨?_, ?_, fun i hi => ?_, fun t => ?_, ?_, fun l hl => ?_⟩
  · obtain ⟨h1, h2, h3⟩ := h'.frame
    exact ⟨h1.trans h.frame.1, h2.trans h.frame.2.1, h3.trans h.frame.2.2⟩
  · rintro i (hi | hi)
    · obtain ⟨h1, h2⟩ := h'.bucketKept i (hdisj i hi)
      exact ⟨h1.trans (h.bucketTaken i hi).1, h2.trans (h.bucketTaken i hi).2⟩
    · exact h'.bucketTaken i hi
  · rw [not_or] at hi
    obtain ⟨h1, h2⟩ := h'.bucketKept i hi.2
    exact ⟨h1.trans (h.bucketKept i hi.1).1, h2.trans (h.bucketKept i hi.1).2⟩
  · simp only [flatten_append, mem_append, h.mem, hmem, or_and_right, exists_or]
  · rw [flatten_append]
    refine nodup_append.mpr ⟨h.nodup, h'.nodup, ?_⟩
    rintro x hx y hy rfl
    obtain ⟨i, hi, hxi⟩ := (h.mem x).mp hx
    obtain ⟨j, hj, hxj⟩ := (hmem x).mp hy
    exact hdisj i hi (hb.apart i j x hxi hxj ▸ hj)
  · exact (mem_append.mp hl).elim (h.nonempty l) (h'.nonempty l)

end Collected

private theorem timerCollectFrom_collected (hb : BucketsOk b) (hd : 16 ^ l ∣ c) :
    Collected b (Taken c l n) (timerCollectFrom b n l (c / 16 ^ l)) := by
  induction n generalizing b l with
  | zero =>
    have hnot : Taken c l 0 = fun _ => False := by
      funext i
      refine eq_false ?_
      rintro ⟨k, hk, hk', -⟩
      omega
    rw [hnot]
    exact ⟨⟨rfl, rfl, rfl⟩, nofun, fun _ _ => ⟨rfl, rfl⟩, by simp [timerCollectFrom], nodup_nil,
      nofun⟩
  | succ n ih =>
    have hone := hb.collected (l * 64 + c / 16 ^ l % 64)
    simp only [timerCollectFrom]
    by_cases hm : c / 16 ^ l % 16 = 0
    · have hd' : 16 ^ (l + 1) ∣ c := by
        obtain ⟨a, rfl⟩ := hd
        have hg : 0 < 16 ^ l := by positivity
        rw [Nat.mul_div_cancel_left _ hg] at hm
        rw [pow_succ]
        exact Nat.mul_dvd_mul_left _ (Nat.dvd_of_mod_eq_zero hm)
      rw [if_neg (not_not.mpr hm), Nat.div_div_eq_div_mul, ← pow_succ,
        show Taken c l (n + 1) = _ from funext fun i => propext (taken_succ hd hm)]
      refine hone.append (ih (hone.bucketsOk hb) hd') hb ?_
      rintro _ rfl
      exact not_taken_higher
    · rw [if_pos hm, show Taken c l (n + 1) = _ from funext fun i => propext (taken_last hd hm)]
      exact hone

/-- `timer_collect_expired` takes the timers whose bucket expiration is the next one. -/
theorem WheelOk.collect (h : WheelOk b bucket E) (hn : b.nextExpiration = some n)
    (hexact : NextExact b E) (hc : b.clock ≤ n) :
    WheelOk (timerCollectExpired b n).1 bucket E ∧ (timerCollectExpired b n).1.clock = n ∧
      (timerCollectExpired b n).1.nextExpiration = some n ∧
      (timerCollectExpired b n).2.flatten.Nodup ∧
      (∀ t, t ∈ (timerCollectExpired b n).2.flatten ↔ (∃ i, t ∈ b.buckets i) ∧ E t = n) ∧
      (∀ i t, t ∈ (timerCollectExpired b n).1.buckets i ↔ t ∈ b.buckets i ∧ E t ≠ n) ∧
      ∀ l ∈ (timerCollectExpired b n).2, l ≠ [] := by
  have hbuckets : BucketsOk { b with clock := n } := ⟨h.map, h.nodup, fun i j t hi hj =>
    (h.slot i t hi).1.symm.trans (h.slot j t hj).1⟩
  have hcol := timerCollectFrom_collected (n := timerLevels) (l := 0) (c := n) hbuckets
    (Nat.one_dvd n)
  rw [Nat.pow_zero, Nat.div_one] at hcol
  -- a bucket is taken if and only if it stands for the next expiration
  have hslot : ∀ i, ∀ t ∈ b.buckets i, InSlot n i (E t) := by
    intro i t ht
    exact (h.slot i t ht).2.advance hc (hexact.le hn ht)
  have htaken : ∀ i, ∀ t ∈ b.buckets i, (Taken n 0 timerLevels i ↔ E t = n) := by
    intro i t ht
    have hs := hslot i t ht
    refine ⟨?_, ?_⟩
    · rintro ⟨k, -, hk, hd, rfl⟩
      have hlev : (k * 64 + n / 16 ^ k % 64) / 64 = k := by omega
      refine hs.unique ⟨hs.index, ?_, ?_, le_refl n, ?_⟩ <;> rw [hlev]
      · exact hd
      · omega
      · exact Nat.lt_add_of_pos_right (Nat.mul_pos (by decide) (Nat.pow_pos (by decide)))
    · intro he
      have hidx := hs.index
      rw [he] at hs
      refine ⟨i / 64, Nat.zero_le _, ?_, hs.dvd, ?_⟩
      · unfold timerLevels
        omega
      · rw [hs.slot]
        omega
  have hkept : ∀ i t, t ∈ (timerCollectExpired b n).1.buckets i ↔ t ∈ b.buckets i ∧ E t ≠ n := by
    intro i t
    rw [timerCollectExpired, hcol.mem_kept, and_comm]
    exact and_congr_right fun ht => not_congr (htaken i t ht)
  have hok := hcol.bucketsOk hbuckets
  refine ⟨⟨?_, hok.map, hok.nodup, ?_⟩, hcol.frame.1, hcol.frame.2.1.trans hn, hcol.nodup, ?_,
    hkept, hcol.nonempty⟩
  · intro i t ht
    have hb := ((hkept i t).mp ht).1
    refine ⟨(h.slot i t hb).1, ?_⟩
    rw [timerCollectExpired, hcol.frame.1]
    exact hslot i t hb
  · obtain ⟨-, h2, h3⟩ := hcol.frame
    rw [timerCollectExpired, h2, h3]
    exact h.pending
  · intro t
    rw [timerCollectExpired, hcol.mem]
    refine ⟨?_, ?_⟩
    · rintro ⟨i, hi, ht⟩
      exact ⟨⟨i, ht⟩, (htaken i t ht).mp hi⟩
    · rintro ⟨⟨i, ht⟩, he⟩
      exact ⟨i, (htaken i t ht).mpr he, ht⟩

end Charmos.Time
