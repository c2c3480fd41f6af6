import Charmos.Lib.Trace
import Charmos.Time.TimerSpec

/-!
# Timers never fire early and none is forgotten

Arming, modifying, deleting and running keep the invariant, whatever the callbacks do. So in every
run a callback is called only after the expiration of its timer, each arming is called once or
cancelled or still there, and when `timer_base_run` returns no timer is left whose bucket expiration
is not after the time it began.

## Main definitions

* `runLeft`: a bound on what is left of a `timer_base_run`.
* `OnePlace`, `TimerSound`: what holds in every reachable state.

## Main results

* `timerStep_ok`, `timerSteps_ok`: a step and a run keep the invariant.
* `timerStep_fired`, `timerBaseRun_return`, `timerStep_left`: what a callback, the return and each
  step say about the due timers.
* `timerRun_sound`: no timer fires early and none is forgotten.
-/

namespace Charmos.Time

open Function List Option Relation

/-! ### The wheel -/

section Wheel

variable {T : Type} {b b' : TimerBase T} {bucket E E' : T → ℕ} {s : TimerSys T} {t : T}
  {c e i n time : ℕ} {p : RunPhase T}

theorem NextOk.of_exact (h : NextExact b E) (p : RunPhase T) : NextOk b E p := by
  cases p with
  | idle | looping => exact h
  | expiring | calling => exact .inl h

theorem NextOk.cases (h : NextOk b E p) :
    NextExact b E ∨ ∃ n, b.nextExpiration = some n ∧ n ≤ b.clock := by
  cases p with
  | idle | looping => exact .inl h
  | expiring | calling => exact h

theorem NextOk.mono (h : NextOk b E p) (hexact : NextExact b E → NextExact b' E')
    (hnext : ∀ n, b.nextExpiration = some n → n ≤ b.clock →
      ∃ m, b'.nextExpiration = some m ∧ m ≤ b'.clock) : NextOk b' E' p := by
  cases p with
  | idle | looping => exact hexact h
  | expiring | calling =>
    rcases h with h | ⟨n, hn, hle⟩
    · exact .inl (hexact h)
    · exact .inr (hnext n hn hle)

/-- The clock that a timer is armed from is not past, and no bucket is before it. -/
theorem timerAddClock_le (h : WheelOk b bucket E) (hn : NextOk b E p)
    (hc : b.clock ≤ n) : b.clock ≤ timerAddClock b n ∧ timerAddClock b n ≤ n ∧
      ∀ i, ∀ t ∈ b.buckets i, timerAddClock b n ≤ E t := by
  unfold timerAddClock
  split
  case isFalse => exact ⟨le_refl _, hc, fun i t ht => (h.slot i t ht).2.lower⟩
  case isTrue hcond =>
    refine ⟨hc, le_refl n, fun i t ht => ?_⟩
    rw [h.pending] at hcond
    rcases hn.cases with hexact | ⟨m, hm, hle⟩
    · cases hnext : b.nextExpiration with
      | none => exact absurd ht (hexact.not_mem hnext)
      | some m =>
        rw [hnext] at hcond
        have hle := hexact.le hnext ht
        have hlt : n < m := by simpa using hcond
        omega
    · rw [hm] at hcond
      have hlt : n < m := by simpa using hcond
      omega

theorem WheelOk.setClock (h : WheelOk b bucket E) (hc : b.clock ≤ c)
    (hle : ∀ i, ∀ t ∈ b.buckets i, c ≤ E t) : WheelOk { b with clock := c } bucket E :=
  ⟨fun i t ht => ⟨(h.slot i t ht).1, (h.slot i t ht).2.advance hc (hle i t ht)⟩, h.map, h.nodup,
    h.pending⟩

theorem timerEnqueueInternal_spec : (timerEnqueueInternal b t i e).buckets =
      update b.buckets i (t :: b.buckets i) ∧
    (timerEnqueueInternal b t i e).pendingMap = update b.pendingMap i true ∧
      (timerEnqueueInternal b t i e).clock = b.clock := by
  unfold timerEnqueueInternal
  split <;> exact ⟨rfl, rfl, rfl⟩

theorem mem_timerEnqueueInternal {j : ℕ} {u : T} :
    u ∈ (timerEnqueueInternal b t i e).buckets j ↔ u ∈ b.buckets j ∨ j = i ∧ u = t := by
  rw [timerEnqueueInternal_spec.1]
  by_cases hj : j = i
  · subst hj
    simp [or_comm]
  · simp [hj]

/-- The next expiration of a pending base is not before its clock, when it is exact. -/
private theorem clock_le_next (h : WheelOk b bucket E) (hexact : NextExact b E)
    (hn : b.nextExpiration = some n) : b.clock ≤ n := by
  obtain ⟨i, t, ht, rfl⟩ := hexact.exists_mem hn
  exact (h.slot i t ht).2.lower

private theorem collect_ok (h : TimerOk s) (hp : s.phase = .looping time)
    (hn : s.base.nextExpiration = some n) (hnt : n ≤ time) :
    TimerOk { s with
      base := (timerCollectExpired s.base n).1
      phase := .expiring time (timerCollectExpired s.base n).2 } := by
  have hexact := h.next
  have htime := h.time
  rw [hp] at hexact htime
  obtain ⟨hwheel, hclock, hnext, hnodup, hmem, hkept, -⟩ :=
    h.wheel.collect hn hexact (clock_le_next h.wheel hexact hn)
  have hnow : n ≤ s.now := le_trans hnt htime
  refine ⟨hwheel, h.place.move hnodup h.place.dpcNodup fun u => ?_,
    .inr ⟨n, hnext, Nat.le_of_eq hclock.symm⟩, hclock.trans_le hnow, htime, h.arm, h.count⟩
  by_cases hu : u ∈ (timerCollectExpired s.base n).2.flatten
  · obtain ⟨⟨i, hi⟩, he⟩ := (hmem u).mp hu
    exact .inr ⟨fun j hj => absurd he ((hkept j u).mp hj).2,
      fun _ => (h.place.bucketApart i u hi).2,
      iff_of_true ((h.place.hashed u).mpr (.inl ⟨i, hi⟩)) (.inr (.inl hu)), h.place.queued u,
      fun _ => he.trans_le hnow⟩
  · refine .inl ⟨fun i => (hkept i u).trans (and_iff_left_of_imp fun hi he => ?_),
      iff_of_false hu ?_, .rfl, rfl, rfl, id⟩
    · exact hu ((hmem u).mpr ⟨⟨i, hi⟩, he⟩)
    · rw [hp]
      exact not_mem_nil

/-- Only the phase changes, and the collected timers stay. -/
private theorem TimerOk.setPhase {p q : RunPhase T} (h : TimerOk s) (hq : s.phase = q)
    (hh : p.heads.flatten = q.heads.flatten)
    (hn : NextOk s.base s.bucketExpiration q → NextOk s.base s.bucketExpiration p)
    (ht : q.timeLe s.now → p.timeLe s.now) : TimerOk { s with phase := p } := by
  subst hq
  refine { h with
    place := h.place.move ?_ h.place.dpcNodup fun u => ?_, next := hn h.next, time := ht h.time }
  · rw [hh]
    exact h.place.headsNodup
  · exact .inl ⟨fun _ => .rfl, by rw [hh], .rfl, rfl, rfl, id⟩

private theorem TimerOk.pending_iff (h : TimerOk s) (hexact : NextExact s.base s.bucketExpiration) :
    s.base.pending = true ↔ ∃ i, s.base.buckets i ≠ [] := by
  rw [h.wheel.pending]
  cases hn : s.base.nextExpiration with
  | none =>
    refine iff_of_false (by decide) ?_
    rintro ⟨i, hi⟩
    obtain ⟨t, ht⟩ := exists_mem_of_ne_nil _ hi
    exact hexact.not_mem hn ht
  | some n =>
    obtain ⟨i, t, ht, -⟩ := hexact.exists_mem hn
    exact iff_of_true rfl ⟨i, ne_nil_of_mem ht⟩

/-- The timers in the buckets whose bucket expiration is not after `time`. -/
def dueCount (b : TimerBase T) (E : T → ℕ) (time : ℕ) : ℕ :=
  ((range 640).map fun i => (b.buckets i).countP (E · ≤ time)).sum

/-- A bound for the sections that are left of `timer_base_run`. -/
def runLeft (s : TimerSys T) : ℕ :=
  match s.phase with
  | .idle => 0
  | .looping time => 5 * dueCount s.base s.bucketExpiration time + 1
  | .expiring time heads =>
    5 * dueCount s.base s.bucketExpiration time + 2 * heads.flatten.length + heads.length + 2
  | .calling time _ heads =>
    5 * dueCount s.base s.bucketExpiration time + 2 * heads.flatten.length + heads.length + 3

private theorem length_le_flatten {l : List (List T)} (h : ∀ x ∈ l, x ≠ []) :
    l.length ≤ l.flatten.length := by
  induction l with
  | nil => exact le_refl _
  | cons x l ih =>
    have hx : 0 < x.length := length_pos_iff.mpr (h x mem_cons_self)
    have hl := ih fun y hy => h y (mem_cons_of_mem _ hy)
    rw [flatten_cons, length_append, length_cons]
    omega

private theorem flatMap_buckets_nodup (h : WheelOk b bucket E) :
    ((range 640).flatMap b.buckets).Nodup := by
  refine nodup_flatMap.mpr ⟨fun i _ => h.nodup i, ?_⟩
  refine nodup_range.imp ?_
  intro i j hij t hi hj
  exact hij ((h.slot i t hi).1.symm.trans (h.slot j t hj).1)

/-- Collecting takes at least one timer out of the buckets, and all that it takes are due. -/
private theorem collect_dueCount (h : WheelOk b bucket E)
    (hn : b.nextExpiration = some n) (hexact : NextExact b E) (hnt : n ≤ time) :
    dueCount (timerCollectExpired b n).1 E time + (timerCollectExpired b n).2.flatten.length =
      dueCount b E time ∧ 0 < (timerCollectExpired b n).2.flatten.length ∧
      (timerCollectExpired b n).2.length ≤ (timerCollectExpired b n).2.flatten.length := by
  obtain ⟨hwheel, -, -, hnodup, hmem, hkept, hne⟩ := h.collect hn hexact (clock_le_next h hexact hn)
  have hperm : ((range 640).flatMap (timerCollectExpired b n).1.buckets ++
      (timerCollectExpired b n).2.flatten).Perm ((range 640).flatMap b.buckets) := by
    refine (perm_ext_iff_of_nodup ?_ (flatMap_buckets_nodup h)).mpr ?_
    · refine nodup_append.mpr ⟨flatMap_buckets_nodup hwheel, hnodup, ?_⟩
      rintro x hx y hy rfl
      obtain ⟨i, -, hi⟩ := mem_flatMap.mp hx
      exact ((hkept i x).mp hi).2 ((hmem x).mp hy).2
    intro u
    rw [mem_append, mem_flatMap, mem_flatMap, hmem]
    refine ⟨?_, ?_⟩
    · rintro (⟨i, hi, hu⟩ | ⟨⟨i, hu⟩, -⟩)
      · exact ⟨i, hi, ((hkept i u).mp hu).1⟩
      · exact ⟨i, mem_range.mpr (h.slot i u hu).2.index, hu⟩
    · rintro ⟨i, hi, hu⟩
      by_cases he : E u = n
      · exact .inr ⟨⟨i, hu⟩, he⟩
      · exact .inl ⟨i, hi, (hkept i u).mpr ⟨hu, he⟩⟩
  have hcount := hperm.countP_eq (E · ≤ time)
  have hall : (timerCollectExpired b n).2.flatten.countP (E · ≤ time) =
      (timerCollectExpired b n).2.flatten.length := by
    refine countP_eq_length.mpr fun u hu => decide_eq_true ?_
    rw [((hmem u).mp hu).2]
    exact hnt
  rw [countP_append, countP_flatMap, countP_flatMap, hall] at hcount
  refine ⟨hcount, ?_, length_le_flatten hne⟩
  obtain ⟨i, u, hu, he⟩ := hexact.exists_mem hn
  exact length_pos_of_mem ((hmem u).mpr ⟨⟨i, hu⟩, he⟩)

private theorem dueCount_le (time : ℕ)
    (h : ∀ i, (b'.buckets i).countP (E' · ≤ time) ≤ (b.buckets i).countP (E · ≤ time)) :
    dueCount b' E' time ≤ dueCount b E time :=
  sum_le_sum fun i _ => h i

theorem timerInit_ok : TimerOk (timerInit : TimerSys T) := by
  refine ⟨⟨nofun, ?_, fun _ => nodup_nil, rfl⟩, ?_, ?_, le_refl 0, trivial, nofun,
    fun _ => rfl⟩
  · intro i
    simp [timerInit]
  · refine ⟨nodup_nil, nodup_nil, nofun, nofun, ?_, ?_, nofun, nofun⟩
    · intro t
      simp [timerInit, RunPhase.heads]
    · intro t
      simp [timerInit]
  · rintro e ⟨i, t, ht, -⟩
    cases ht

end Wheel

variable {T : Type} [DecidableEq T] {b : TimerBase T} {bucket E : T → ℕ} {s s' : TimerSys T} {t : T}
  {e i n : ℕ} {irq : T → Bool}

/-! ### Arming -/

theorem WheelOk.enqueue (h : WheelOk b bucket E) (ht : ∀ j, t ∉ b.buckets j)
    (hslot : InSlot b.clock i e) : WheelOk (timerEnqueueInternal b t i e)
      (update bucket t i) (update E t e) := by
  obtain ⟨hbuckets, hmap, hclock⟩ := timerEnqueueInternal_spec (b := b) (t := t) (i := i) (e := e)
  refine ⟨?_, ?_, ?_, ?_⟩
  · intro j u hu
    rw [hclock]
    rcases mem_timerEnqueueInternal.mp hu with hu | ⟨rfl, rfl⟩
    · have hne : u ≠ t := fun he => ht j (he ▸ hu)
      rw [update_of_ne hne, update_of_ne hne]
      exact h.slot j u hu
    · rw [update_self, update_self]
      exact ⟨rfl, hslot⟩
  · intro j
    rw [hmap, hbuckets]
    by_cases hj : j = i
    · subst hj
      simp
    · rw [update_of_ne hj, update_of_ne hj]
      exact h.map j
  · rw [hbuckets]
    exact (forall_update_iff b.buckets fun _ l => l.Nodup).mpr
      ⟨nodup_cons.mpr ⟨ht i, h.nodup i⟩, fun j _ => h.nodup j⟩
  · unfold timerEnqueueInternal
    split
    · rfl
    · exact h.pending

theorem NextOk.enqueue {p : RunPhase T} (h : WheelOk b bucket E) (hn : NextOk b E p)
    (ht : ∀ j, t ∉ b.buckets j) (he : b.clock ≤ e) :
    NextOk (timerEnqueueInternal b t i e) (update E t e) p := by
  -- the expirations of the buckets are those from before and the new one
  have hD : ∀ x, (∃ j, ∃ u ∈ (timerEnqueueInternal b t i e).buckets j,
      update E t e u = x) ↔ (∃ j, ∃ u ∈ b.buckets j, E u = x) ∨ e = x := by
    intro x
    refine ⟨?_, ?_⟩
    · rintro ⟨j, u, hu, hx⟩
      rcases mem_timerEnqueueInternal.mp hu with hu | ⟨-, rfl⟩
      · have hne : u ≠ t := fun he => ht j (he ▸ hu)
        rw [update_of_ne hne] at hx
        exact .inl ⟨j, u, hu, hx⟩
      · rw [update_self] at hx
        exact .inr hx
    · rintro (⟨j, u, hu, hx⟩ | hx)
      · have hne : u ≠ t := fun he => ht j (he ▸ hu)
        refine ⟨j, u, mem_timerEnqueueInternal.mpr (.inl hu), ?_⟩
        rw [update_of_ne hne]
        exact hx
      · refine ⟨i, t, mem_timerEnqueueInternal.mpr (.inr ⟨rfl, rfl⟩), ?_⟩
        rw [update_self]
        exact hx
  refine hn.mono ?_ ?_
  · intro hexact
    have hnew : LeastOf (fun x => e = x) (some e) := ⟨rfl, fun x hx => Nat.le_of_eq hx⟩
    have hmin := LeastOf.min hexact hnew
    have hnext : (timerEnqueueInternal b t i e).nextExpiration =
        if b.nextExpiration.all (e < ·) then some e else b.nextExpiration := by
      unfold timerEnqueueInternal
      rw [h.pending]
      cases b.nextExpiration with
      | none => simp
      | some m =>
        by_cases hlt : e < m
        · simp [hlt]
        · simp [hlt]
    unfold NextExact
    rw [hnext]
    exact hmin.widen (fun x hx => (hD x).mpr hx) fun x hx => ⟨x, (hD x).mp hx, le_refl x⟩
  · intro m hm hle
    have hp : b.pending = true := by
      rw [h.pending, hm]
      rfl
    have hge : ¬ e < m := by omega
    refine ⟨m, ?_, hle.trans_eq timerEnqueueInternal_spec.2.2.symm⟩
    simp [timerEnqueueInternal, hp, hm, hge]

/-- A timer that is not armed is armed. -/
theorem timerArm_ok (h : TimerOk s) (ht : s.hashed t = false) : TimerOk (timerArm s t e) := by
  obtain ⟨hc, hcn, hle⟩ := timerAddClock_le h.wheel h.next h.clock
  obtain ⟨hslot, hpassed, hafter⟩ := wheelIndexFor_slot e (timerAddClock s.base s.now)
  have hfree : ¬ ((∃ i, t ∈ s.base.buckets i) ∨ t ∈ s.phase.heads.flatten ∨ t ∈ s.dpcTimers) := by
    rw [← h.place.hashed t, ht]
    decide
  simp only [not_or, not_exists] at hfree
  obtain ⟨hbuck, hheads, hdpc⟩ := hfree
  have hne : ∀ u, s.hashed u = true → u ≠ t := by
    rintro u hu rfl
    rw [ht] at hu
    cases hu
  have hwheel := h.wheel.setClock hc hle
  have hmem : ∀ i u, u ∈ (timerArm s t e).base.buckets i ↔ u ∈ s.base.buckets i ∨
      i = (wheelIndexFor e (timerAddClock s.base s.now)).1 ∧ u = t := fun i u =>
    mem_timerEnqueueInternal
  refine ⟨hwheel.enqueue hbuck hslot, ?_, ?_, ?_, h.time, ?_, ?_⟩
  · refine h.place.move h.place.headsNodup h.place.dpcNodup fun u => ?_
    by_cases hut : u = t
    · subst hut
      refine .inr ⟨fun _ _ => ⟨hheads, hdpc⟩, fun hm => absurd hm hheads,
        iff_of_true (update_self _ _ _) (.inl ⟨_, (hmem _ u).mpr (.inr ⟨rfl, rfl⟩)⟩),
        h.place.queued u, ?_⟩
      rintro (hm | hm)
      · exact absurd hm hheads
      · exact absurd hm hdpc
    · have hE : (timerArm s t e).bucketExpiration u = s.bucketExpiration u := update_of_ne hut _ _
      exact .inl ⟨fun i => (hmem i u).trans (or_iff_left fun hi => hut hi.2), .rfl, .rfl,
        update_of_ne hut _ _, rfl, hE.trans_le⟩
  · refine NextOk.enqueue hwheel (h.next.mono (fun hx => hx) ?_) hbuck hslot.lower
    intro m hm hle'
    exact ⟨m, hm, le_trans hle' hc⟩
  · exact timerEnqueueInternal_spec.2.2.trans_le hcn
  · intro u hu hcap
    by_cases hut : u = t
    · subst hut
      simp only [timerArm, update_self, decide_eq_false_iff_not, Nat.not_le] at hcap ⊢
      refine ⟨?_, ?_, hpassed⟩
      · by_cases hlt : e < timerAddClock s.base s.now
        · rw [hpassed hlt]
          exact hlt
        · exact (hafter (by omega) hcap).1
      · intro hle'
        exact (hafter hle' hcap).2
    · simp only [timerArm, update_of_ne hut] at hu hcap ⊢
      exact h.arm u hu hcap
  · intro u
    have hcount := h.count u
    by_cases hut : u = t
    · subst hut
      rw [ht] at hcount
      simp only [timerArm, update_self]
      simp only [Bool.false_eq_true, if_false] at hcount
      simp only [if_true]
      omega
    · simp only [timerArm, update_of_ne hut]
      exact hcount

/-! ### Deleting -/

private theorem mem_flatten_erase_of_ne {l : List (List T)} {u : T} (hut : u ≠ t) :
    u ∈ (l.map (·.erase t)).flatten ↔ u ∈ l.flatten := by
  simp [mem_flatten, mem_erase_of_ne hut]

private theorem not_mem_flatten_erase {l : List (List T)} (h : l.flatten.Nodup) :
    t ∉ (l.map (·.erase t)).flatten := by
  intro ht
  obtain ⟨_, hmap, hmem⟩ := mem_flatten.mp ht
  obtain ⟨x, hx, rfl⟩ := List.mem_map.mp hmap
  exact ((nodup_flatten.mp h).1 x hx).not_mem_erase hmem

private theorem flatten_erase_sublist {l : List (List T)} :
    (l.map (·.erase t)).flatten.Sublist l.flatten := by
  induction l with
  | nil => exact .refl _
  | cons x l ih => exact erase_sublist.append ih

private theorem heads_erase (p : RunPhase T) : (p.erase t).heads = p.heads.map (·.erase t) := by
  cases p <;> rfl

private theorem NextOk.erase {p : RunPhase T} (h : NextOk b E p) : NextOk b E (p.erase t) := by
  cases p <;> exact h

private theorem timeLe_erase {p : RunPhase T} (h : p.timeLe n) : (p.erase t).timeLe n := by
  cases p <;> exact h

/-- The timer is on no list any more. -/
theorem PlaceOk.del {s₁ : TimerSys T} (h : PlaceOk s) (hnodup : ∀ i, (s.base.buckets i).Nodup)
    (hb : s₁.base.buckets = fun i => (s.base.buckets i).erase t) (hp : s₁.phase = s.phase.erase t)
    (hd : s₁.dpcTimers = s.dpcTimers.erase t) (hh : s₁.hashed = update s.hashed t false)
    (hq : s₁.dpcQueued = update s.dpcQueued t false)
    (hE : s₁.bucketExpiration = s.bucketExpiration) (hn : s₁.now = s.now) : PlaceOk s₁ := by
  have hheads : s₁.phase.heads = s.phase.heads.map (·.erase t) := by rw [hp, heads_erase]
  refine h.move ?_ ?_ fun u => ?_
  · rw [hheads]
    exact h.headsNodup.sublist flatten_erase_sublist
  · rw [hd]
    exact h.dpcNodup.erase t
  by_cases hut : u = t
  · subst hut
    refine .inr (.nowhere (fun i => ?_) ?_ ?_ (by rw [hh, update_self]) (by rw [hq, update_self]))
    · rw [hb]
      exact (hnodup i).not_mem_erase
    · rw [hheads]
      exact not_mem_flatten_erase h.headsNodup
    · rw [hd]
      exact h.dpcNodup.not_mem_erase
  · refine .inl ⟨fun i => ?_, ?_, ?_, ?_, ?_, ?_⟩
    · rw [hb, mem_erase_of_ne hut]
    · rw [hheads, mem_flatten_erase_of_ne hut]
    · rw [hd, mem_erase_of_ne hut]
    · rw [hh, update_of_ne hut]
    · rw [hq, update_of_ne hut]
    · rw [hE, hn]
      exact id

/-- The buckets without the timer, with the bit of its bucket cleared if that is empty. -/
private theorem WheelOk.del (h : WheelOk b bucket E) :
    WheelOk { b with
      buckets := fun i => (b.buckets i).erase t
      pendingMap := if ((b.buckets (bucket t)).erase t).isEmpty then
        update b.pendingMap (bucket t) false else b.pendingMap } bucket E := by
  have hother : ∀ i, i ≠ bucket t → (b.buckets i).erase t = b.buckets i := by
    intro i hi
    exact erase_of_not_mem fun hm => hi (h.slot i t hm).1.symm
  refine ⟨?_, ?_, fun i => (h.nodup i).erase t, h.pending⟩
  · intro i u hu
    exact h.slot i u (mem_of_mem_erase hu)
  intro i
  dsimp only
  by_cases hi : i = bucket t
  · subst hi
    split
    case isTrue he =>
      rw [update_self, isEmpty_iff.mp he]
      simp
    case isFalse he =>
      have hne : (b.buckets (bucket t)).erase t ≠ [] := fun hc => he (by rw [hc]; rfl)
      refine iff_of_true ((h.map _).mpr ?_) hne
      intro hc
      rw [hc] at hne
      exact hne rfl
  · rw [hother i hi]
    split
    · rw [update_of_ne hi]
      exact h.map i
    · exact h.map i

section

variable (h : TimerOk s)
include h

/-- An arming has come to its end, which one of the counters says. -/
private theorem TimerOk.unhash (hht : s.hashed t = true) {f g : T → ℕ}
    (hfg : ∀ u, f u + g u = s.fired u + s.cancelled u + if u = t then 1 else 0) :
    (∀ u, update s.hashed t false u = true → s.capped u = false →
      ArmOk (s.expiration u) (s.bucketExpiration u) (s.armedClock u) (s.bucket u)) ∧
      ∀ u, s.armed u = f u + g u + if update s.hashed t false u then 1 else 0 := by
  refine ⟨fun u hu => ?_, fun u => ?_⟩
  · have hut : u ≠ t := by
      rintro rfl
      simp at hu
    rw [update_of_ne hut] at hu
    exact h.arm u hu
  · rw [hfg, h.count u]
    by_cases hut : u = t
    · subst hut
      simp [hht]
    · simp [hut]

private theorem TimerOk.called (hht : s.hashed t = true) :
    (∀ u, update s.hashed t false u = true → s.capped u = false →
      ArmOk (s.expiration u) (s.bucketExpiration u) (s.armedClock u) (s.bucket u)) ∧
      ∀ u, s.armed u = update s.fired t (s.fired t + 1) u + s.cancelled u +
        if update s.hashed t false u then 1 else 0 :=
  h.unhash hht fun u => by
    by_cases hut : u = t
    · subst hut
      rw [update_self, if_pos rfl]
      omega
    · rw [update_of_ne hut, if_neg hut, add_zero]

/-- `timer_delete` and `timer_modify` take the timer off. -/
theorem timerDetach_ok : TimerOk (timerDetach s t) ∧ (timerDetach s t).hashed t = false := by
  by_cases hh : s.hashed t = true
  case neg =>
    have hq : s.dpcQueued t = false := by
      by_contra hc
      refine hh ((h.place.hashed t).mpr (.inr (.inr ((h.place.queued t).mp ?_))))
      simpa using hc
    have hsame : timerDetach s t = s := by
      simp [timerDetach, hh, hq]
    rw [hsame]
    exact ⟨h, by simpa using hh⟩
  case pos =>
    obtain ⟨harm, hcount⟩ := h.unhash hh (f := s.fired)
      (g := update s.cancelled t (s.cancelled t + 1)) fun u => by
        by_cases hut : u = t
        · subst hut
          rw [update_self, if_pos rfl, Nat.add_assoc]
        · rw [update_of_ne hut, if_neg hut, add_zero]
    by_cases hq : s.dpcQueued t = true
    · have hnot : ∀ i, t ∉ s.base.buckets i := fun i hi =>
        (h.place.bucketApart i t hi).2 ((h.place.queued t).mp hq)
      have hbuckets : (fun i => (s.base.buckets i).erase t) = s.base.buckets := by
        funext i
        exact erase_of_not_mem (hnot i)
      have hbase : ({ s.base with buckets := fun i => (s.base.buckets i).erase t } : TimerBase T) =
          s.base := by
        rw [hbuckets]
      have heq : timerDetach s t = { timerDetachDpc s t with
          cancelled := update s.cancelled t (s.cancelled t + 1) } := by
        simp [timerDetach, hh, hq]
      rw [heq]
      refine ⟨⟨?_, ?_, ?_, ?_, timeLe_erase h.time, harm, hcount⟩, update_self _ _ _⟩
      · change WheelOk { s.base with buckets := _ } _ _
        rw [hbase]
        exact h.wheel
      · exact h.place.del h.wheel.nodup rfl rfl rfl rfl rfl rfl rfl
      · change NextOk { s.base with buckets := _ } _ _
        rw [hbase]
        exact h.next.erase
      · exact h.clock
    · have hqf : s.dpcQueued t = false := by simpa using hq
      have heq : timerDetach s t = { timerDequeueBucket s t with
          cancelled := update s.cancelled t (s.cancelled t + 1) } := by
        simp [timerDetach, hh, hqf]
      obtain ⟨hwheel, hexact⟩ := (h.wheel.del (t := t)).recalc
      rw [heq]
      refine ⟨⟨hwheel, ?_, .of_exact hexact _, h.clock, timeLe_erase h.time, harm, hcount⟩,
        update_self _ _ _⟩
      refine h.place.del h.wheel.nodup rfl rfl rfl rfl ?_ rfl rfl
      rw [← hqf, update_eq_self]
      rfl

/-! ### Running -/

/-- A timer that was collected is called, or put on the list of the DPC. -/
private theorem expire_ok {time : ℕ} {l : List T} {heads : List (List T)}
    (hp : s.phase = .expiring time ((t :: l) :: heads)) : TimerOk (timerBaseRun irq s) := by
  have hflat : s.phase.heads.flatten = t :: (l :: heads).flatten := by
    rw [hp]
    rfl
  have hplace := h.place
  have hnodup := hplace.headsNodup
  rw [hflat] at hnodup
  obtain ⟨htl, hnodup'⟩ := nodup_cons.mp hnodup
  have hmemt : t ∈ s.phase.heads.flatten := by
    rw [hflat]
    exact mem_cons_self
  have hht : s.hashed t = true := (hplace.hashed t).mpr (.inr (.inl hmemt))
  have hheads : ∀ u, u ≠ t → (u ∈ (l :: heads).flatten ↔ u ∈ s.phase.heads.flatten) := by
    intro u hut
    rw [hflat, mem_cons, or_iff_right hut]
  have hnotb : ∀ i, t ∉ s.base.buckets i := fun i hi => (hplace.bucketApart i t hi).1 hmemt
  have hnotd := hplace.headsApart t hmemt
  have hnext := h.next
  have htime := h.time
  rw [hp] at hnext htime
  simp only [timerBaseRun, hp]
  split
  · refine ⟨h.wheel, hplace.move hnodup' hplace.dpcNodup fun u => ?_, hnext, h.clock, htime,
      (h.called hht).1, (h.called hht).2⟩
    by_cases hut : u = t
    · subst hut
      refine .inr (.nowhere hnotb htl hnotd (update_self _ _ _) ?_)
      exact Bool.eq_false_iff.mpr (mt (hplace.queued u).mp hnotd)
    · exact .inl ⟨fun _ => .rfl, hheads u hut, .rfl, update_of_ne hut _ _, rfl, id⟩
  · refine ⟨h.wheel, hplace.move hnodup' (nodup_cons.mpr ⟨hnotd, hplace.dpcNodup⟩) fun u => ?_,
      hnext, h.clock, htime, h.arm, h.count⟩
    by_cases hut : u = t
    · subst hut
      exact .inr ⟨fun i hi => absurd hi (hnotb i), fun hm => absurd hm htl,
        iff_of_true hht (.inr (.inr mem_cons_self)), iff_of_true (update_self _ _ _) mem_cons_self,
        fun _ => hplace.headsDue u hmemt⟩
    · exact .inl ⟨fun _ => .rfl, hheads u hut, mem_cons.trans (or_iff_right hut), rfl,
        update_of_ne hut _ _, id⟩

/-- A section of `timer_base_run` keeps the invariant. -/
theorem timerBaseRun_ok : TimerOk (timerBaseRun irq s) := by
  unfold timerBaseRun
  split
  case h_1 => exact h
  case h_2 time hp =>
    have hidle : TimerOk { s with phase := .idle } := h.setPhase hp rfl id fun _ => trivial
    split
    case h_1 n hpend hn =>
      split
      case isTrue hcond => exact collect_ok h hp hn hcond.2
      case isFalse => exact hidle
    case h_2 => exact hidle
  case h_3 time hp =>
    obtain ⟨hwheel, hexact⟩ := h.wheel.recalc
    have hloop : TimerOk { s with base := timerRecalcNextExpiration s.base } := by
      refine ⟨hwheel, ?_, .of_exact hexact _, h.clock, h.time, h.arm, h.count⟩
      exact { h.place with }
    exact hloop.setPhase hp rfl (fun _ => hexact) id
  case h_4 time heads hp => exact h.setPhase hp rfl id id
  case h_5 time t l heads hp =>
    have hrun : TimerOk (timerBaseRun irq s) := expire_ok h hp
    simp only [timerBaseRun, hp] at hrun
    exact hrun
  case h_6 time t heads hp => exact h.setPhase hp rfl id id

/-- The DPC calls a timer. -/
theorem timerDpc_ok : TimerOk (timerDpc s) := by
  unfold timerDpc
  split
  case h_1 => exact h
  case h_2 t l hl =>
    have hplace := h.place
    have hnodup := hplace.dpcNodup
    rw [hl] at hnodup
    obtain ⟨htl, hnodup'⟩ := nodup_cons.mp hnodup
    have hmemt : t ∈ s.dpcTimers := by
      rw [hl]
      exact mem_cons_self
    have hht : s.hashed t = true := (hplace.hashed t).mpr (.inr (.inr hmemt))
    refine ⟨h.wheel, hplace.move hplace.headsNodup hnodup' fun u => ?_, h.next, h.clock, h.time,
      (h.called hht).1, (h.called hht).2⟩
    by_cases hut : u = t
    · subst hut
      exact .inr (.nowhere (fun i hi => (hplace.bucketApart i u hi).2 hmemt)
        (fun hm => hplace.headsApart u hm hmemt) htl (update_self _ _ _) (update_self _ _ _))
    · refine .inl ⟨fun _ => .rfl, .rfl, ?_, update_of_ne hut _ _, update_of_ne hut _ _, id⟩
      rw [hl, mem_cons, or_iff_right hut]

/-! ### The end of a run -/

/-- Every section of `timer_base_run` brings it nearer to its end. -/
theorem timerBaseRun_left (hp : s.phase ≠ .idle) : runLeft (timerBaseRun irq s) < runLeft s := by
  cases hphase : s.phase with
  | idle => exact absurd hphase hp
  | looping time =>
    have hexact := h.next
    rw [hphase] at hexact
    have hleft : runLeft s = 5 * dueCount s.base s.bucketExpiration time + 1 := by
      simp only [runLeft, hphase]
    have hidle : runLeft { s with phase := .idle } < runLeft s := by
      rw [hleft]
      exact Nat.succ_pos _
    simp only [timerBaseRun, hphase]
    split
    case h_1 n hpend hn =>
      split
      case isTrue hcond =>
        obtain ⟨hdue, hpos, hlen⟩ := collect_dueCount h.wheel hn hexact hcond.2
        rw [hleft]
        simp only [runLeft]
        omega
      case isFalse => exact hidle
    case h_2 => exact hidle
  | expiring time heads =>
    have hleft : runLeft s = 5 * dueCount s.base s.bucketExpiration time +
        2 * heads.flatten.length + heads.length + 2 := by
      simp only [runLeft, hphase]
    rw [hleft]
    cases heads with
    | nil =>
      simp only [timerBaseRun, hphase, runLeft]
      change 5 * dueCount s.base s.bucketExpiration time + 1 < _
      omega
    | cons l heads =>
      cases l with
      | nil =>
        simp only [timerBaseRun, hphase, runLeft, flatten_cons, nil_append, length_cons]
        omega
      | cons t l =>
        simp only [timerBaseRun, hphase]
        split
        · simp only [runLeft, flatten_cons, length_cons, length_append]
          omega
        · simp only [runLeft, flatten_cons, length_cons, length_append]
          omega
  | calling time t heads =>
    simp only [timerBaseRun, hphase, runLeft]
    omega

end

/-- Taking a timer off a list does not prolong the run. -/
theorem timerDetach_left : runLeft (timerDetach s t) ≤ runLeft s := by
  have hdel : runLeft (timerListDel s t) ≤ runLeft s := by
    have hdue : ∀ time, dueCount (timerListDel s t).base s.bucketExpiration time ≤
        dueCount s.base s.bucketExpiration time := fun time =>
      dueCount_le time fun i => Sublist.countP_le erase_sublist
    have hflat : ∀ heads : List (List T),
        (heads.map (·.erase t)).flatten.length ≤ heads.flatten.length := fun heads =>
      flatten_erase_sublist.length_le
    unfold runLeft
    cases hp : s.phase with
    | idle =>
      simp only [timerListDel, hp, RunPhase.erase]
      exact le_refl 0
    | looping time =>
      have := hdue time
      simp only [timerListDel, hp, RunPhase.erase] at this ⊢
      omega
    | expiring time heads | calling time u heads =>
      have := hdue time
      have := hflat heads
      simp only [timerListDel, hp, RunPhase.erase, length_map] at *
      omega
  unfold timerDetach
  split_ifs
  · exact hdel
  · exact hdel
  · exact hdel
  · exact le_refl _

/-- The time that the run has read. -/
def RunPhase.time : RunPhase T → Option ℕ
  | .idle => none
  | .looping time => some time
  | .expiring time _ => some time
  | .calling time _ _ => some time

/-- Arming a timer that is not due does not prolong the run. -/
theorem timerArm_left (h : TimerOk s) (ht : s.hashed t = false)
    (hdue : ∀ time ∈ s.phase.time, time < (timerArm s t e).bucketExpiration t) :
    runLeft (timerArm s t e) ≤ runLeft s := by
  have hfree : ∀ i, t ∉ s.base.buckets i := by
    intro i hi
    have := (h.place.hashed t).mpr (.inl ⟨i, hi⟩)
    rw [ht] at this
    cases this
  have hcount : ∀ time ∈ s.phase.time,
      dueCount (timerArm s t e).base (timerArm s t e).bucketExpiration time ≤
        dueCount s.base s.bucketExpiration time := by
    intro time htime
    refine dueCount_le time fun i => ?_
    have hlt := hdue time htime
    obtain ⟨E', hE'⟩ : ∃ E', E' = (timerArm s t e).bucketExpiration := ⟨_, rfl⟩
    have hsame : (s.base.buckets i).countP (E' · ≤ time) =
        (s.base.buckets i).countP (s.bucketExpiration · ≤ time) := by
      refine countP_congr fun u hu => ?_
      have hne : u ≠ t := fun he => hfree i (he ▸ hu)
      rw [hE']
      simp only [timerArm, update_of_ne hne]
    rw [← hE'] at hlt ⊢
    rw [← hsame]
    have hbuck : (timerArm s t e).base.buckets =
        update s.base.buckets (wheelIndexFor e (timerAddClock s.base s.now)).1
          (t :: s.base.buckets (wheelIndexFor e (timerAddClock s.base s.now)).1) :=
      timerEnqueueInternal_spec.1
    rw [hbuck]
    by_cases hi : i = (wheelIndexFor e (timerAddClock s.base s.now)).1
    · subst hi
      rw [update_self, countP_cons_of_neg]
      simpa using hlt
    · rw [update_of_ne hi]
  have hphase : (timerArm s t e).phase = s.phase := rfl
  unfold runLeft
  rw [hphase]
  cases hp : s.phase with
  | idle => exact le_refl 0
  | looping time | expiring time | calling time =>
    have := hcount time (by rw [hp]; rfl)
    dsimp only
    omega

/-! ### Runs -/

/-- Every step keeps the invariant. -/
theorem timerStep_ok {irq : T → Bool} {a : TimerAct T} (h : TimerOk s)
    (hs : timerStep irq s a = some s') : TimerOk s' := by
  cases a with
  | tick us =>
    obtain ⟨⟩ := hs
    refine ⟨h.wheel, ?_, h.next, le_add_right h.clock, ?_, h.arm, h.count⟩
    · exact h.place.move h.place.headsNodup h.place.dpcNodup fun u =>
        .inl ⟨fun _ => .rfl, .rfl, .rfl, rfl, rfl, le_add_right⟩
    have htime := h.time
    cases hp : s.phase with
    | idle => exact trivial
    | looping | expiring | calling =>
      rw [hp] at htime
      exact le_add_right htime
  | add t e =>
    obtain ⟨hcond, ⟨⟩⟩ := ite_none_right_eq_some.mp hs
    exact timerArm_ok h hcond.2
  | modify t e =>
    obtain ⟨-, ⟨⟩⟩ := ite_none_right_eq_some.mp hs
    exact timerArm_ok (timerDetach_ok h).1 (timerDetach_ok h).2
  | delete t =>
    obtain ⟨-, ⟨⟩⟩ := ite_none_right_eq_some.mp hs
    exact (timerDetach_ok h).1
  | isr =>
    simp only [timerStep] at hs
    split at hs
    case h_1 hp =>
      obtain ⟨⟩ := hs
      exact h.setPhase hp rfl id fun _ => le_refl _
    case h_2 => cases hs
  | run =>
    simp only [timerStep] at hs
    split at hs
    case h_1 => cases hs
    case h_2 =>
      obtain ⟨⟩ := hs
      exact timerBaseRun_ok h
  | dpc =>
    obtain ⟨-, ⟨⟩⟩ := ite_none_left_eq_some.mp hs
    exact timerDpc_ok h

/-- One step of the system. -/
def TimerStep (irq : T → Bool) (s s' : TimerSys T) : Prop :=
  ∃ a, timerStep irq s a = some s'

/-- A whole run keeps the invariant. -/
theorem timerSteps_ok {irq : T → Bool} (h : ReflTransGen (TimerStep irq) timerInit s) :
    TimerOk s := by
  induction h with
  | refl => exact timerInit_ok
  | tail _ hstep ih =>
    obtain ⟨a, ha⟩ := hstep
    exact timerStep_ok ih ha

/-! ### What the runs guarantee -/

/-- The timer is in one bucket, once, or it is once among those that are being delivered. -/
def OnePlace (s : TimerSys T) (t : T) : Prop :=
  (∃ i, (s.base.buckets i).count t = 1 ∧ (∀ j, j ≠ i → t ∉ s.base.buckets j) ∧
    t ∉ s.phase.heads.flatten ∧ t ∉ s.dpcTimers) ∨
  (∀ i, t ∉ s.base.buckets i) ∧ s.phase.heads.flatten.count t + s.dpcTimers.count t = 1

theorem TimerOk.onePlace (h : TimerOk s) (ht : s.hashed t = true) : OnePlace s t := by
  have hplace := h.place
  rcases (hplace.hashed t).mp ht with ⟨i, hi⟩ | hheads | hdpc
  · refine .inl ⟨i, count_eq_one_of_mem (h.wheel.nodup i) hi, ?_, hplace.bucketApart i t hi⟩
    intro j hj ht'
    exact hj ((h.wheel.slot j t ht').1.symm.trans (h.wheel.slot i t hi).1)
  · refine .inr ⟨fun i hi => (hplace.bucketApart i t hi).1 hheads, ?_⟩
    rw [count_eq_one_of_mem hplace.headsNodup hheads,
      count_eq_zero_of_not_mem (hplace.headsApart t hheads)]
  · refine .inr ⟨fun i hi => (hplace.bucketApart i t hi).2 hdpc, ?_⟩
    rw [count_eq_one_of_mem hplace.dpcNodup hdpc,
      count_eq_zero_of_not_mem fun hheads => hplace.headsApart t hheads hdpc]

private theorem timerDetach_fired : (timerDetach s t).fired = s.fired := by
  unfold timerDetach
  split_ifs <;> rfl

private theorem timerBaseRun_fired (irq : T → Bool) (s : TimerSys T) :
    (timerBaseRun irq s).fired = s.fired ∨ ∃ u ∈ s.phase.heads.flatten,
      (timerBaseRun irq s).fired = update s.fired u (s.fired u + 1) := by
  unfold timerBaseRun
  split
  case h_2 =>
    split
    · split <;> exact .inl rfl
    · exact .inl rfl
  case h_5 time u l heads hp =>
    split
    · refine .inr ⟨u, ?_, rfl⟩
      rw [hp]
      exact mem_cons_self
    · exact .inl rfl
  all_goals exact .inl rfl

/-- A callback is called for a timer that is armed and whose bucket expiration has come. -/
theorem timerStep_fired {irq : T → Bool} {a : TimerAct T} (h : TimerOk s)
    (hs : timerStep irq s a = some s') (hf : s'.fired t ≠ s.fired t) :
    s'.fired t = s.fired t + 1 ∧ s.hashed t = true ∧ s.bucketExpiration t ≤ s.now := by
  have hplace := h.place
  -- a call for `u`, which was on one of the two lists
  have hcall : ∀ u, (u ∈ s.phase.heads.flatten ∨ u ∈ s.dpcTimers) →
      s'.fired = update s.fired u (s.fired u + 1) →
      s'.fired t = s.fired t + 1 ∧ s.hashed t = true ∧ s.bucketExpiration t ≤ s.now := by
    intro u hu hfu
    have htu : t = u := by
      by_contra hne
      rw [hfu, update_of_ne hne] at hf
      exact hf rfl
    subst htu
    refine ⟨?_, (hplace.hashed t).mpr (.inr hu), ?_⟩
    · rw [hfu, update_self]
    · rcases hu with hu | hu
      · exact hplace.headsDue t hu
      · exact hplace.dpcDue t hu
  cases a with
  | tick us =>
    obtain ⟨⟩ := hs
    exact absurd rfl hf
  | add u e | isr =>
    simp only [timerStep] at hs
    split at hs <;> cases hs
    exact absurd rfl hf
  | modify u e | delete u =>
    simp only [timerStep] at hs
    split at hs <;> cases hs
    exact absurd (congrFun timerDetach_fired t) hf
  | run =>
    simp only [timerStep] at hs
    split at hs
    case h_1 => cases hs
    case h_2 =>
      cases hs
      rcases timerBaseRun_fired irq s with hsame | ⟨u, hu, hfu⟩
      · exact absurd (congrFun hsame t) hf
      · exact hcall u (.inl hu) hfu
  | dpc =>
    obtain ⟨hne, hs⟩ := ite_none_left_eq_some.mp hs
    cases hs
    cases hd : s.dpcTimers with
    | nil => exact absurd hd hne
    | cons u l =>
      refine hcall u (.inr ?_) ?_
      · rw [hd]
        exact mem_cons_self
      · unfold timerDpc
        rw [hd]

/-- When `timer_base_run` returns, no timer is left that was due at the time it has read. -/
theorem timerBaseRun_return {irq : T → Bool} {time : ℕ} (h : TimerOk s)
    (hp : s.phase = .looping time) (hret : (timerBaseRun irq s).phase = .idle) :
    ∀ i, ∀ t ∈ (timerBaseRun irq s).base.buckets i,
      time < (timerBaseRun irq s).bucketExpiration t := by
  have hexact := h.next
  rw [hp] at hexact
  unfold timerBaseRun at hret ⊢
  rw [hp] at hret ⊢
  dsimp only at hret ⊢
  split at hret
  case h_1 n hpend hn =>
    split at hret
    case isTrue => cases hret
    case isFalse hcond =>
      rw [if_neg hcond]
      intro i t ht
      have hclock := (h.wheel.slot i t ht).2.lower
      have hnext := NextExact.le hexact hn ht
      dsimp only
      omega
  case h_2 hother =>
    -- nothing is pending, so every bucket is empty
    have hnone : s.base.nextExpiration = none := by
      have hpend := h.wheel.pending
      cases hn : s.base.nextExpiration with
      | none => rfl
      | some n =>
        rw [hn] at hpend
        exact absurd hn (hother n hpend)
    intro i t ht
    exact absurd ht (NextExact.not_mem hexact hnone)

private theorem timerDetach_time : (timerDetach s t).phase.time = s.phase.time := by
  have herase : (s.phase.erase t).time = s.phase.time := by
    cases s.phase <;> rfl
  unfold timerDetach
  split_ifs
  · exact herase
  · exact herase
  · exact herase
  · rfl

/-- The timers that a step arms. -/
def TimerAct.arms : TimerAct T → T → Prop
  | .add t _, u => u = t
  | .modify t _, u => u = t
  | _, _ => False

/-- While `timer_base_run` runs, the other steps do not prolong it, except by arming a timer that is
due at the time it has read. -/
theorem timerStep_left {irq : T → Bool} {a : TimerAct T} (h : TimerOk s) (hp : s.phase ≠ .idle)
    (hdue : ∀ t, a.arms t → ∀ time ∈ s.phase.time, time < s'.bucketExpiration t)
    (hs : timerStep irq s a = some s') : runLeft s' ≤ runLeft s := by
  cases a with
  | tick us =>
    obtain ⟨⟩ := hs
    exact le_refl _
  | add t e =>
    obtain ⟨hcond, ⟨⟩⟩ := ite_none_right_eq_some.mp hs
    exact timerArm_left h hcond.2 (hdue t rfl)
  | modify t e =>
    obtain ⟨hcond, ⟨⟩⟩ := ite_none_right_eq_some.mp hs
    refine le_trans (timerArm_left (timerDetach_ok h).1 (timerDetach_ok h).2 ?_) timerDetach_left
    rw [timerDetach_time]
    exact hdue t rfl
  | delete t =>
    obtain ⟨-, ⟨⟩⟩ := ite_none_right_eq_some.mp hs
    exact timerDetach_left
  | isr =>
    simp only [timerStep] at hs
    cases hs
  | run =>
    simp only [timerStep] at hs
    obtain ⟨⟩ := hs
    exact Nat.le_of_lt (timerBaseRun_left h hp)
  | dpc =>
    obtain ⟨-, ⟨⟩⟩ := ite_none_left_eq_some.mp hs
    refine Nat.le_of_eq ?_
    unfold timerDpc
    split <;> rfl

/-- What holds in every reachable state. -/
structure TimerSound (irq : T → Bool) (s : TimerSys T) : Prop where
  /-- An armed timer is in exactly one bucket or being delivered. -/
  place : ∀ t, s.hashed t = true → OnePlace s t
  /-- Each arming has been called once, or cancelled, or it is still there. -/
  account : ∀ t, s.armed t = s.fired t + s.cancelled t + if s.hashed t then 1 else 0
  /-- A callback is called after the expiration of its timer. -/
  notEarly : ∀ a s', timerStep irq s a = some s' → ∀ t, s'.fired t ≠ s.fired t →
    s'.fired t = s.fired t + 1 ∧ s.hashed t = true ∧ s.bucketExpiration t ≤ s.now ∧
      (s.capped t = false → s.expiration t < s.now)
  /-- The bucket expiration of an armed timer: at most one granularity after its expiration, if that
  was not before the clock of the base, and else that clock. -/
  late : ∀ t, s.hashed t = true → s.capped t = false →
    ArmOk (s.expiration t) (s.bucketExpiration t) (s.armedClock t) (s.bucket t)
  /-- Between two rounds of the loop, and when no `timer_base_run` runs, `next_expiration_us` is the
  least expiration of a bucket, and `pending` says whether there is one. -/
  next : (s.phase = .idle ∨ ∃ time, s.phase = .looping time) →
    NextExact s.base s.bucketExpiration ∧
      (s.base.pending = true ↔ ∃ i, s.base.buckets i ≠ [])
  /-- Within a round it may also be the time that has been collected. -/
  collected : NextExact s.base s.bucketExpiration ∨
    ∃ n, s.base.nextExpiration = some n ∧ n ≤ s.base.clock
  pending : s.base.pending = s.base.nextExpiration.isSome
  /-- `timer_base_run` returns when no timer is left that is due at the time it has read. -/
  complete : ∀ time s', s.phase = .looping time → timerStep irq s .run = some s' →
    s'.phase = .idle → ∀ i, ∀ t ∈ s'.base.buckets i, time < s'.bucketExpiration t
  /-- It always goes on, and each of its sections brings it nearer to its end. -/
  progress : s.phase ≠ .idle → ∃ s', timerStep irq s .run = some s' ∧ runLeft s' < runLeft s
  /-- Only arming a timer that is due makes it longer. -/
  steady : ∀ a s', s.phase ≠ .idle → timerStep irq s a = some s' →
    (∀ t, a.arms t → ∀ time ∈ s.phase.time, time < s'.bucketExpiration t) →
    runLeft s' ≤ runLeft s

/-- The invariant says what the runs guarantee. -/
theorem TimerOk.sound (irq : T → Bool) (h : TimerOk s) : TimerSound irq s := by
  refine ⟨fun t ht => h.onePlace ht, h.count, ?_, h.arm, ?_, h.next.cases, h.wheel.pending, ?_, ?_,
    fun a s' hp hs hdue => timerStep_left h hp hdue hs⟩
  · intro a s' hs t hf
    obtain ⟨hone, hhashed, hdue⟩ := timerStep_fired h hs hf
    exact ⟨hone, hhashed, hdue,
      fun hcap => Nat.lt_of_lt_of_le (h.arm t hhashed hcap).after hdue⟩
  · intro hphase
    have hexact : NextExact s.base s.bucketExpiration := by
      have hnext := h.next
      rcases hphase with hp | ⟨time, hp⟩ <;> rw [hp] at hnext <;> exact hnext
    exact ⟨hexact, h.pending_iff hexact⟩
  · intro time s' hp hs hret
    simp only [timerStep, hp] at hs
    obtain ⟨⟩ := hs
    exact timerBaseRun_return h hp hret
  · intro hp
    refine ⟨timerBaseRun irq s, ?_, timerBaseRun_left h hp⟩
    simp only [timerStep]

/-- In every run, whatever is armed, modified and deleted and whatever the callbacks do, no timer
fires early and none is forgotten. -/
theorem timerRun_sound (irq : T → Bool)
    (h : ReflTransGen (TimerStep irq) timerInit s) : TimerSound irq s :=
  (timerSteps_ok h).sound irq

/-- The steps one after the other. -/
def timerTrace (irq : T → Bool) (s : TimerSys T) : List (TimerAct T) → Option (TimerSys T)
  | [] => some s
  | a :: as => (timerStep irq s a).bind (timerTrace irq · as)

private theorem timerTrace_run {irq : T → Bool} {as : List (TimerAct T)}
    (h : timerTrace irq s as = some s') : ReflTransGen (TimerStep irq) s s' :=
  reflTransGen_of_trace h fun _ a _ hs => ⟨a, hs⟩

/-- Two timers on one base: the first is called, its callback arms it again, the second goes to the
DPC. -/
theorem timerRun_sound_rearmed : ∃ s : TimerSys (Fin 2),
    ReflTransGen (TimerStep fun t => t == 0) timerInit s ∧
      (s.fired 0, s.fired 1, s.hashed 0, s.phase.unlocked, s.now) = (1, 1, true, true, 105) ∧
      TimerSound (fun t => t == 0) s := by
  have hobs : (timerTrace (fun t : Fin 2 => t == 0) timerInit
      [.tick 50, .add 0 100, .add 1 100, .tick 55, .isr, .run, .run, .run, .modify 0 200, .run,
        .run, .run, .run, .dpc]).map
        (fun s => (s.fired 0, s.fired 1, s.hashed 0, s.phase.unlocked, s.now)) =
      some (1, 1, true, true, 105) := by decide +kernel
  obtain ⟨s, hs, hobs⟩ := map_eq_some_iff.mp hobs
  exact ⟨s, timerTrace_run hs, hobs, timerRun_sound _ (timerTrace_run hs)⟩

/-- A timer that is armed for a time before the clock of the base: its bucket expires at that clock,
however many granularities of its level after its expiration that is. And when the only timer has
been collected, the buckets are empty and `next_expiration_us` is still its expiration. -/
theorem timerRun_passed_late :
    (∃ s : TimerSys Unit, ReflTransGen (TimerStep fun _ => true) timerInit s ∧
      s.hashed () = true ∧ s.capped () = false ∧ s.expiration () = 0 ∧
      timerLevelGranularity (s.bucket () / 64) = 1 ∧ s.bucketExpiration () = 1000) ∧
    ∃ s : TimerSys Unit, ReflTransGen (TimerStep fun _ => true) timerInit s ∧
      (∀ i, s.base.buckets i = []) ∧ s.base.nextExpiration = some 101 := by
  constructor
  · have hobs : (timerTrace (fun _ : Unit => true) timerInit [.tick 1000, .add () 0]).map
        (fun s => (s.hashed (), s.capped (), s.expiration (),
          timerLevelGranularity (s.bucket () / 64), s.bucketExpiration ())) =
        some (true, false, 0, 1, 1000) := by decide +kernel
    obtain ⟨s, hs, hobs⟩ := map_eq_some_iff.mp hobs
    exact ⟨s, timerTrace_run hs, by simpa using hobs⟩
  · have hobs : (timerTrace (fun _ : Unit => true) timerInit
        [.tick 50, .add () 100, .tick 55, .isr, .run]).map
        (fun s => (s.phase.heads.flatten, s.base.nextExpiration)) = some ([()], some 101) := by
      decide +kernel
    obtain ⟨s, hs, hobs⟩ := map_eq_some_iff.mp hobs
    obtain ⟨hheads, hnext⟩ := Prod.mk.inj hobs
    refine ⟨s, timerTrace_run hs, fun i => eq_nil_iff_forall_not_mem.mpr fun t ht => ?_, hnext⟩
    exact ((timerSteps_ok (timerTrace_run hs)).place.bucketApart i t ht).1 (by simp [hheads])

end Charmos.Time
