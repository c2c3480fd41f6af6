import Charmos.Sched.Donation

/-!
# What the donation accounts count

`Ok` says what the three records of `Charmos.Sched.Donation` are: `class_floors` counts the
contributions of donations, self boosts and the reader boost, `perceived_prio_class` is the highest
class of the base class and the counted ones, and every field of `raw_tally` is the number of
switched-out writers at its class.

Every operation on the floors takes a contribution from a class, gives one to a class, or both
(`change`), and then recomputes the class. With the counts right and no more than 255 contributions
to a class, none of the checks on the floors fails (`step_of_change`). The word of a bucket is the
sum of the bits of its writers whatever their number (`Inv.word`); its fields are the numbers of
writers if these fit in 16 bits (`Inv.ok`).
-/

namespace Charmos.Donation

open AgentSum ClassDonation Function List Option Sync Sys Thread

variable {T D : Type} [DecidableEq T] {n : PrioClass → ℕ}

/-! ### What is counted -/

/-- One if the donation is an active one of the class to the thread. -/
def ClassDonation.gives (t : T) (c : PrioClass) (dn : ClassDonation T) : ℕ :=
  if dn.active ∧ dn.target = some t ∧ dn.cls = c then 1 else 0

/-- One if the boost of a reader contributes to the class. -/
def Thread.readerBoost (th : Thread) (c : PrioClass) : ℕ :=
  if th.contributedFloor ∧ th.floor = c then 1 else 0

/-- The contributions to a class of a thread. -/
def contributions [Fintype D] (s : Sys T D) (t : T) (c : PrioClass) : ℕ :=
  total (ClassDonation.gives t c) s.donations + (s.threads t).selfBoosts c +
    (s.threads t).readerBoost c

/-- One if the thread is a switched-out writer that wants the bucket and is perceived at the
class. -/
def Thread.countedAt (id : ℕ) (c : PrioClass) (th : Thread) : ℕ :=
  if th.writerState = .bump ∧ th.wantLockId = id ∧ th.perceivedPrioClass = c then 1 else 0

/-- The switched-out writers of a bucket that are perceived at a class. -/
def counted [Fintype T] (s : Sys T D) (id : ℕ) (c : PrioClass) : ℕ :=
  total (Thread.countedAt id c) s.threads

/-- The accounts are right. -/
structure Ok [Fintype T] [Fintype D] (s : Sys T D) : Prop where
  floors : ∀ t c, (s.threads t).classFloors c = contributions s t c
  perceived : ∀ t, IsGreatest
    {c | c = (s.threads t).basePrioClass ∨ (s.threads t).classFloors c ≠ 0}
    (s.threads t).perceivedPrioClass
  tally : ∀ id c, wroostReadTally (s.rawTally id) c = counted s id c

/-- The loop finds the highest class. -/
theorem threadRecomputePrioClassDryLocked_isGreatest (base : PrioClass) (floors : PrioClass → ℕ) :
    IsGreatest {c | c = base ∨ floors c ≠ 0} (threadRecomputePrioClassDryLocked base floors) := by
  have hmem : ∀ base c : PrioClass, c ∈ takeWhile (base < ·)
      [PrioClass.urgent, .realtime, .timeshare, .background] ↔ base < c := by decide
  have hsorted : ∀ base : PrioClass, (takeWhile (base < ·)
      [PrioClass.urgent, .realtime, .timeshare, .background]).Pairwise (· > ·) := by decide
  replace hmem := hmem base
  replace hsorted := hsorted base
  unfold threadRecomputePrioClassDryLocked
  dsimp only
  revert hmem hsorted
  generalize takeWhile (base < ·) [PrioClass.urgent, .realtime, .timeshare, .background] =
    above
  intro hmem hsorted
  rcases hfind : above.find? (floors · ≠ 0) with _ | b
  · -- no class above the base class is counted
    refine ⟨.inl rfl, ?_⟩
    rintro c (rfl | hc)
    · exact le_rfl
    · by_contra hlt
      have := find?_eq_none.1 hfind c ((hmem c).2 (not_le.1 hlt))
      simp_all
  · obtain ⟨hb, before, after, rfl, hbefore⟩ := find?_eq_some_iff_append.1 hfind
    have hbase : base < b := (hmem b).1 (by simp)
    refine ⟨.inr (by simpa using hb), ?_⟩
    rintro c (rfl | hc)
    · exact hbase.le
    by_contra hlt
    have hin := (hmem c).2 (hbase.trans (not_le.1 hlt))
    rcases mem_append.1 hin with hin | hin
    · simpa [hc] using hbefore c hin
    rcases mem_cons.1 hin with rfl | hin
    · exact hlt le_rfl
    · have hpair := (pairwise_append.1 hsorted).2.1
      exact hlt (rel_of_pairwise_cons hpair hin).le

/-! ### The word of a bucket -/

/-- What a thread adds to the word of a bucket. -/
def Thread.weight (id : ℕ) (th : Thread) : BitVec 64 :=
  if th.writerState = .bump ∧ th.wantLockId = id then classBit th.perceivedPrioClass else 0

theorem classBit_eq (c : PrioClass) : classBit c = ((2 ^ (16 * c.index) : ℕ) : BitVec 64) := by
  cases c <;> rfl

theorem weight_eq_sum (id : ℕ) (th : Thread) :
    th.weight id = ∑ c, (th.countedAt id c : BitVec 64) * classBit c := by
  by_cases h : th.writerState = .bump ∧ th.wantLockId = id
  · rw [Finset.sum_eq_single th.perceivedPrioClass]
    · simp [weight, countedAt, h]
    · intro c _ hc
      simp [countedAt, hc.symm]
    · simp
  · have hno : ∀ c, th.countedAt id c = 0 := fun c => by
      rw [countedAt, if_neg fun hc => h ⟨hc.1, hc.2.1⟩]
    simp [weight, h, hno]

omit [DecidableEq T] in
/-- The word as the sum of the fields. -/
theorem total_weight [Fintype T] (s : Sys T D) (id : ℕ) :
    total (weight id) s.threads =
      ((∑ c, counted s id c * 2 ^ (16 * c.index) : ℕ) : BitVec 64) := by
  simp only [total, counted, weight_eq_sum, classBit_eq]
  rw [Finset.sum_comm]
  push_cast
  exact Finset.sum_congr rfl fun c _ => (Finset.sum_mul _ _ _).symm

theorem wroostReadTally_eq (raw : BitVec 64) (c : PrioClass) :
    wroostReadTally raw c = raw.toNat / 2 ^ (16 * c.index) % 65536 := by
  rw [wroostReadTally, BitVec.toNat_and, BitVec.toNat_ushiftRight, Nat.shiftRight_eq_div_pow]
  exact Nat.and_two_pow_sub_one_eq_mod _ 16

/-- Fields that fit in 16 bits can be read back. -/
theorem wroostReadTally_sum (hn : ∀ c, n c ≤ 65535) (c : PrioClass) :
    wroostReadTally ((∑ c, n c * 2 ^ (16 * c.index) : ℕ) : BitVec 64) c = n c := by
  have hb := hn .background
  have ht := hn .timeshare
  have hr := hn .realtime
  have hu := hn .urgent
  have hsum : ∑ c : PrioClass, n c * 2 ^ (16 * c.index) =
      n .background + n .timeshare * 2 ^ 16 + n .realtime * 2 ^ 32 + n .urgent * 2 ^ 48 := by
    simp [show (Finset.univ : Finset PrioClass) = {.background, .timeshare, .realtime, .urgent}
      from rfl, PrioClass.index]
    ring
  rw [wroostReadTally_eq, hsum, BitVec.natCast_eq_ofNat, BitVec.toNat_ofNat]
  cases c <;> simp only [PrioClass.index] <;> omega

/-! ### The invariant -/

/-- What every operation keeps, whatever the number of writers. -/
structure Inv [Fintype T] [Fintype D] (s : Sys T D) : Prop where
  floors : ∀ t c, (s.threads t).classFloors c = contributions s t c
  target : ∀ d, (s.donations d).active → ∃ t, (s.donations d).target = some t
  perceived : ∀ t, (s.threads t).perceivedPrioClass =
    threadRecomputePrioClassDryLocked (s.threads t).basePrioClass (s.threads t).classFloors
  word : ∀ id, s.rawTally id = total (Thread.weight id) s.threads

variable {s s' : Sys T D} {dn : ClassDonation T} {th : Thread} {c : PrioClass}

omit [DecidableEq T] in
/-- The fields of a word that is the sum of its writers. -/
theorem wroostReadTally_total [Fintype T] (hfits : ∀ id c, counted s id c ≤ 65535) (id : ℕ)
    (c : PrioClass) : wroostReadTally (total (weight id) s.threads) c = counted s id c := by
  rw [total_weight]
  exact wroostReadTally_sum (hfits id) c

section Invariant

variable [Fintype T] [Fintype D]

theorem Inv.ok (h : Inv s) (hfits : ∀ id c, counted s id c ≤ 65535) : Ok s where
  floors := h.floors
  perceived t := by
    rw [h.perceived t]
    exact threadRecomputePrioClassDryLocked_isGreatest _ _
  tally id c := by
    rw [h.word id]
    exact wroostReadTally_total hfits id c

/-- A field of 16 bits holds no more. -/
theorem Ok.fits (h : Ok s) (id : ℕ) (c : PrioClass) : counted s id c ≤ 65535 := by
  rw [← h.tally, wroostReadTally_eq]
  omega

theorem sysInit_inv (base : T → PrioClass) :
    Inv (sysInit base : Sys T D) where
  floors t c := by
    simp [sysInit, threadInit, contributions, total, gives, readerBoost]
  target d := by simp [sysInit]
  perceived t := by
    rcases (threadRecomputePrioClassDryLocked_isGreatest (base t) fun _ => 0).1 with hbase | hne
    · exact hbase.symm
    · exact absurd rfl hne
  word id := by
    rw [total_const_zero fun t => by simp [sysInit, threadInit, weight]]
    rfl

end Invariant

/-! ### Changes of the floors -/

/-- One for the given class. -/
def one (o : Option PrioClass) (c : PrioClass) : ℕ := if o = some c then 1 else 0

/-- The floors after a class has lost a contribution and a class has gained one. -/
def floorsAfter (floors : PrioClass → ℕ) (lose gain : Option PrioClass) (c : PrioClass) : ℕ :=
  floors c - one lose c + one gain c

/-- The thread whose floors an operation changes, the class that loses a contribution, and the class
that gains one. -/
structure Change (T : Type) where
  thread : T
  lose : Option PrioClass
  gain : Option PrioClass

/-- The change by `thread_donation_raise_locked`. -/
def raiseChange (s : Sys T D) (t : T) (d : D) (c : PrioClass) : Option (Change T) :=
  if (s.donations d).active then
    if c ≤ (s.donations d).cls then none
    else some { thread := t, lose := some (s.donations d).cls, gain := some c }
  else some { thread := t, lose := none, gain := some c }

/-- The classes that lose and gain by the boost of a reader. -/
def boostChange (th : Thread) (prio : PrioClass) : Option PrioClass × Option PrioClass :=
  if ¬ th.contributedFloor then (none, some prio)
  else if th.floor < prio then (some th.floor, some prio)
  else (none, none)

/-- The change by an operation. -/
def change (s : Sys T D) : Act T D → Option (Change T)
  | .inheritPriority boosted fromThread d =>
    raiseChange s boosted d (s.threads fromThread).perceivedPrioClass
  | .donateClass boosted c d => raiseChange s boosted d c
  | .uninheritPriority d =>
    if (s.donations d).active then
      (s.donations d).target.map fun t =>
        { thread := t, lose := some (s.donations d).cls, gain := none }
    else none
  | .boostSelf t c => some { thread := t, lose := none, gain := some c }
  | .unboostSelf t c => some { thread := t, lose := some c, gain := none }
  | .boostThreadTo t prio | .boostThreadInDpc t prio =>
    some
      { thread := t
        lose := (boostChange (s.threads t) prio).1
        gain := (boostChange (s.threads t) prio).2 }
  | .unboostThread t =>
    some
      { thread := t
        lose := if (s.threads t).contributedFloor then some (s.threads t).floor else none
        gain := none }
  | _ => none

/-- An operation that is used as it may be: a self boost is taken back only if it is outstanding,
and no class of a thread gets more than 255 contributions. -/
def allowed [Fintype D] (s : Sys T D) (act : Act T D) : Bool :=
  (match act with
    | .unboostSelf t c => decide (0 < (s.threads t).selfBoosts c)
    | _ => true) &&
  match change s act with
  | some { thread := t, gain := some c, .. } => decide (contributions s t c < 255)
  | _ => true

theorem one_none (c : PrioClass) : one none c = 0 := rfl

theorem one_self (c : PrioClass) : one (some c) c = 1 := if_pos rfl

theorem one_of_ne {b : PrioClass} (h : b ≠ c) : one (some b) c = 0 :=
  if_neg fun hb => h (some.inj hb)

theorem threadClassFloorIncLocked_eq (h : th.classFloors c < 255) :
    threadClassFloorIncLocked th c =
      .ok { th with classFloors := floorsAfter th.classFloors none (some c) } := by
  rw [threadClassFloorIncLocked, if_neg (by omega)]
  congr 2
  funext b
  rcases eq_or_ne b c with rfl | hne
  · simp [floorsAfter, one]
  · simp [floorsAfter, one, hne, hne.symm]

theorem threadClassFloorDecLocked_eq (h : 0 < th.classFloors c) :
    threadClassFloorDecLocked th c =
      .ok { th with classFloors := floorsAfter th.classFloors (some c) none } := by
  rw [threadClassFloorDecLocked, if_neg (by omega)]
  congr 2
  funext b
  rcases eq_or_ne b c with rfl | hne
  · simp [floorsAfter, one]
  · simp [floorsAfter, one, hne, hne.symm]

theorem floorsAfter_lose_gain (floors : PrioClass → ℕ) (b c : PrioClass) :
    floorsAfter (floorsAfter floors (some b) none) none (some c) =
      floorsAfter floors (some b) (some c) := by
  funext a
  simp [floorsAfter, one_none]

theorem floorsAfter_gain_lose (floors : PrioClass → ℕ) {b : PrioClass} (hne : b ≠ c) :
    floorsAfter (floorsAfter floors none (some c)) (some b) none =
      floorsAfter floors (some b) (some c) := by
  funext a
  rcases eq_or_ne a b with rfl | hab
  · simp [floorsAfter, one_none, one_of_ne hne.symm]
  · simp [floorsAfter, one_none, one_of_ne hab.symm]

theorem floorsAfter_none (floors : PrioClass → ℕ) : floorsAfter floors none none = floors := rfl

/-- What the boost of a reader does, if the floors have room. -/
theorem contributeFloor_eq {prio : PrioClass}
    (hpos : th.contributedFloor → 0 < th.classFloors th.floor)
    (hroom : (boostChange th prio).2 = some prio → th.classFloors prio < 255) :
    contributeFloor th prio = .ok
      { th with
        classFloors := floorsAfter th.classFloors (boostChange th prio).1 (boostChange th prio).2
        contributedFloor := true
        floor := if th.contributedFloor ∧ prio ≤ th.floor then th.floor else prio } := by
  by_cases hc : th.contributedFloor
  · by_cases hlt : th.floor < prio
    · have hch : boostChange th prio = (some th.floor, some prio) := by
        simp [boostChange, hc, hlt]
      rw [hch] at hroom ⊢
      rw [contributeFloor, if_neg (not_not.2 hc), if_pos hlt,
        threadClassFloorIncLocked_eq (hroom rfl)]
      have hdec : 0 < floorsAfter th.classFloors none (some prio) th.floor := by
        have := hpos hc
        simp only [floorsAfter, one_none]
        omega
      simp only [Bind.bind, Except.bind]
      rw [threadClassFloorDecLocked_eq hdec]
      simp [floorsAfter_gain_lose _ hlt.ne, hc, not_le.2 hlt]
    · have hch : boostChange th prio = (none, none) := by simp [boostChange, hc, hlt]
      rw [contributeFloor, if_neg (not_not.2 hc), if_neg hlt, hch, floorsAfter_none,
        if_pos ⟨hc, not_lt.1 hlt⟩]
      cases th
      cases hc
      rfl
  · have hch : boostChange th prio = (none, some prio) := by simp [boostChange, hc]
    rw [hch] at hroom ⊢
    rw [contributeFloor, if_pos hc, threadClassFloorIncLocked_eq (by exact hroom rfl)]
    simp [hc]

/-! ### Recomputing the class -/

section Recompute

variable {debug : Bool} {t : T}

/-- The thread gets its new class, and the word of its bucket follows. -/
theorem threadRecomputePrioClassLocked_ok
    (h : threadRecomputePrioClassLocked debug s t = .ok s') :
    s'.threads = update s.threads t (threadRecomputePrioClassRawLocked (s.threads t)) ∧
      s'.donations = s.donations ∧
      ∀ id, s'.rawTally id + (s.threads t).weight id =
        s.rawTally id + (threadRecomputePrioClassRawLocked (s.threads t)).weight id := by
  obtain ⟨th, hth⟩ : ∃ th, th = threadRecomputePrioClassRawLocked (s.threads t) := ⟨_, rfl⟩
  have hstate : th.writerState = (s.threads t).writerState := by rw [hth]; rfl
  have hwant : th.wantLockId = (s.threads t).wantLockId := by rw [hth]; rfl
  rw [threadRecomputePrioClassLocked, ← hth] at h
  rw [← hth]
  simp only [wroostPostPrioChangeLocked, setThread, update_self, wroostMoveTally] at h
  split_ifs at h with hbump hover
  · obtain ⟨⟩ := h
    refine ⟨rfl, rfl, fun id => ?_⟩
    by_cases hid : id = (s.threads t).wantLockId
    · simp only [addTally, hid, update_self, weight, hbump.1,
        hstate.symm.trans hbump.1, hwant, and_self, if_true]
      ring
    · simp [addTally, update_of_ne hid, weight, hwant, Ne.symm hid]
  · obtain ⟨⟩ := h
    refine ⟨rfl, rfl, fun id => ?_⟩
    have hsame : th.weight id = (s.threads t).weight id := by
      simp only [weight, hstate, hwant]
      by_cases hb : (s.threads t).writerState = .bump
      · have hclass : (s.threads t).perceivedPrioClass = th.perceivedPrioClass := by
          by_contra hne
          exact hbump ⟨hstate.trans hb, hne⟩
        rw [hclass]
      · simp [hb]
    rw [hsame]

/-- A donation is not read on the way. -/
theorem threadRecomputePrioClassLocked_setDonation [DecidableEq D] (d : D) (dn : ClassDonation T) :
    threadRecomputePrioClassLocked debug (s.setDonation d dn) t =
      (threadRecomputePrioClassLocked debug s t).map (·.setDonation d dn) := by
  simp only [threadRecomputePrioClassLocked, wroostPostPrioChangeLocked, wroostMoveTally,
    setDonation, setThread, update_self]
  split_ifs <;> rfl

/-- `boost_thread_in_dpc` does the same as `boost_thread_to`, if the class is not stale. -/
theorem boostThreadInDpc_eq
    (hfresh : (s.threads t).perceivedPrioClass = threadRecomputePrioClassDryLocked
      (s.threads t).basePrioClass (s.threads t).classFloors) (prio : PrioClass) :
    boostThreadInDpc debug s t prio = boostThreadTo debug s t prio := by
  have hstale : ¬ (debug ∧ (threadRecomputePrioClassRawLocked (s.threads t)).perceivedPrioClass ≠
      (s.threads t).perceivedPrioClass) := fun hs => hs.2 hfresh.symm
  rw [boostThreadInDpc, if_neg hstale, boostThreadTo]
  rcases contributeFloor (s.threads t) prio with f | th
  · rfl
  simp only [Bind.bind, Except.bind, threadRecomputePrioClassLocked, wroostPostPrioChangeLocked,
    setThread, update_self, threadRecomputePrioClassRawLocked]
  obtain ⟨new, hnew⟩ : ∃ new, new =
    threadRecomputePrioClassDryLocked th.basePrioClass th.classFloors := ⟨_, rfl⟩
  rw [← hnew]
  by_cases hsame : th.perceivedPrioClass = new
  · simp [← hsame]
  by_cases hb : th.writerState = .bump
  · simp only [hb, hsame, ne_eq, not_false_eq_true, and_self, if_true, wroostMoveTally, update_idem]
    split_ifs <;> simp [addTally]
  · simp [hb, hsame]

end Recompute

/-! ### One change -/

theorem gives_active {t : T} (ha : dn.active) (ht : dn.target = some t) (c : PrioClass) :
    dn.gives t c = one (some dn.cls) c := by
  simp [gives, one, ha, ht]

theorem gives_of_ne {t u : T} (ht : dn.target = some t) (hne : u ≠ t) (c : PrioClass) :
    dn.gives u c = 0 := by
  simp [gives, ht, hne.symm]

theorem gives_inactive (ha : ¬ dn.active) (t : T) (c : PrioClass) : dn.gives t c = 0 := by
  simp [gives, ha]

variable [Fintype T] [Fintype D]

/-- The state `s₁` is `s` with the floors changed, before the class is recomputed. -/
structure Edit (s : Sys T D) (ch : Change T) (s₁ : Sys T D) : Prop where
  threads : ∃ th, s₁.threads = Function.update s.threads ch.thread th ∧
    th.basePrioClass = (s.threads ch.thread).basePrioClass ∧
    th.perceivedPrioClass = (s.threads ch.thread).perceivedPrioClass ∧
    th.writerState = (s.threads ch.thread).writerState ∧
    th.wantLockId = (s.threads ch.thread).wantLockId ∧
    th.classFloors = floorsAfter (s.threads ch.thread).classFloors ch.lose ch.gain
  rawTally : s₁.rawTally = s.rawTally
  floors : ∀ t c, (s₁.threads t).classFloors c = contributions s₁ t c
  target : ∀ d, (s₁.donations d).active → ∃ t, (s₁.donations d).target = some t

/-- The floors stay right if the contributions change as the floors do. -/
theorem Edit.of (h : Inv s) {ch : Change T} {ds : D → ClassDonation T}
    (hbase : th.basePrioClass = (s.threads ch.thread).basePrioClass)
    (hclass : th.perceivedPrioClass = (s.threads ch.thread).perceivedPrioClass)
    (hstate : th.writerState = (s.threads ch.thread).writerState)
    (hwant : th.wantLockId = (s.threads ch.thread).wantLockId)
    (hfloors : th.classFloors = floorsAfter (s.threads ch.thread).classFloors ch.lose ch.gain)
    (hpos : ∀ c, one ch.lose c ≤ contributions s ch.thread c)
    (hown : ∀ c, total (gives ch.thread c) ds + th.selfBoosts c + th.readerBoost c +
      one ch.lose c = contributions s ch.thread c + one ch.gain c)
    (hother : ∀ t c, t ≠ ch.thread →
      total (gives t c) ds = total (gives t c) s.donations)
    (htarget : ∀ d, (ds d).active → ∃ t, (ds d).target = some t) :
    Edit s ch { s with threads := update s.threads ch.thread th, donations := ds } where
  threads := ⟨th, rfl, hbase, hclass, hstate, hwant, hfloors⟩
  rawTally := rfl
  floors t c := by
    rcases eq_or_ne t ch.thread with rfl | hne
    · have hc := hown c
      have hle := hpos c
      simp only [contributions, update_self] at hc hle ⊢
      rw [hfloors, floorsAfter, h.floors, contributions]
      omega
    · simp only [contributions, update_of_ne hne, hother t c hne]
      exact h.floors t c
  target := htarget

theorem one_le_of_mem {lose : Option PrioClass} (h : ∀ c, lose = some c → 0 < n c) (c : PrioClass) :
    one lose c ≤ n c := by
  unfold one
  split_ifs with hc
  · exact h c hc
  · exact Nat.zero_le _

section Operations

variable {debug : Bool} {t : T} {c : PrioClass} {th : Thread} {ch : Change T} {d : D}

/-- One donation changes. It was not for another thread, and is not now. -/
theorem Edit.of_donation [DecidableEq D] (h : Inv s) {lose gain : Option PrioClass}
    {dn : ClassDonation T} (hlose : ∀ c, (s.donations d).gives t c = one lose c)
    (hgain : ∀ c, dn.gives t c = one gain c) (hold : ∀ u c, u ≠ t → (s.donations d).gives u c = 0)
    (hnew : ∀ u c, u ≠ t → dn.gives u c = 0) (htarget : dn.active → ∃ t, dn.target = some t) :
    Edit s { thread := t, lose, gain }
      ((s.setThread t { s.threads t with
        classFloors := floorsAfter (s.threads t).classFloors lose gain }).setDonation d dn) := by
  refine Edit.of h rfl rfl rfl rfl rfl (fun c => ?_) (fun c => ?_) (fun u c hne => ?_) (fun e => ?_)
  · have hle := le_total (gives t c) s.donations d
    rw [hlose c] at hle
    simp only [contributions]
    omega
  · have hmove := total_update (gives t c) s.donations d dn
    rw [hlose c, hgain c] at hmove
    simp only [contributions, readerBoost, setThread]
    omega
  · have hmove := total_update (gives u c) s.donations d dn
    rw [hold u c hne, hnew u c hne] at hmove
    simpa [setThread] using hmove
  · simp only [setThread]
    rcases eq_or_ne e d with rfl | hne
    · simpa using htarget
    · simpa [update_of_ne hne] using h.target e

theorem Inv.donated_pos (h : Inv s) (ha : (s.donations d).active)
    (ht : (s.donations d).target = some t) : 0 < (s.threads t).classFloors (s.donations d).cls := by
  have hone := le_total (gives t (s.donations d).cls) s.donations d
  rw [gives_active ha ht, one_self] at hone
  rw [h.floors, contributions]
  omega

theorem threadDonationRaiseLocked_of [DecidableEq D] (h : Inv s)
    (hch : raiseChange s t d c = some ch) (hroom : contributions s t c < 255) :
    threadDonationRaiseLocked debug s t d c = .error .differentThread ∨ ∃ s₁, Edit s ch s₁ ∧
      threadDonationRaiseLocked debug s t d c =
        threadRecomputePrioClassLocked debug s₁ ch.thread := by
  have hnew (u : T) (b : PrioClass) (hne : u ≠ t) :
      (mk (some t) c true).gives u b = 0 := gives_of_ne rfl hne b
  have hgain (b : PrioClass) : (mk (some t) c true).gives t b = one (some c) b :=
    gives_active rfl rfl b
  rw [← h.floors] at hroom
  unfold raiseChange at hch
  unfold threadDonationRaiseLocked
  split_ifs at hch with ha hle
  · obtain ⟨⟩ := hch
    rw [if_pos ha, if_neg hle]
    by_cases ht : (s.donations d).target = some t
    · right
      rw [if_neg (not_not.2 ht)]
      refine ⟨_, Edit.of_donation h (gives_active ha ht) hgain
        (fun u b hne => gives_of_ne ht hne b) hnew (fun _ => ⟨t, rfl⟩), ?_⟩
      have hinc :
          floorsAfter (s.threads t).classFloors (some (s.donations d).cls) none c < 255 := by
        simp only [floorsAfter, one_none]
        omega
      rw [threadClassFloorDecLocked_eq (h.donated_pos ha ht)]
      simp only [Bind.bind, Except.bind]
      rw [threadClassFloorIncLocked_eq hinc, floorsAfter_lose_gain]
    · left
      rw [if_pos ht]
  · obtain ⟨⟩ := hch
    right
    rw [if_neg ha]
    refine ⟨_, Edit.of_donation h (fun b => gives_inactive ha t b) hgain
      (fun u b _ => gives_inactive ha u b) hnew (fun _ => ⟨t, rfl⟩), ?_⟩
    dsimp only
    rw [threadClassFloorIncLocked_eq hroom]
    rfl

theorem threadDonationDropLocked_of [DecidableEq D] (h : Inv s) (ha : (s.donations d).active)
    (ht : (s.donations d).target = some t) :
    ∃ s₁, Edit s { thread := t, lose := some (s.donations d).cls, gain := none } s₁ ∧
      threadDonationDropLocked debug s d = threadRecomputePrioClassLocked debug s₁ t := by
  have hcleared (u : T) (b : PrioClass) :
      (mk (none : Option T) .background false).gives u b = 0 :=
    gives_inactive (by simp) u b
  refine ⟨_, Edit.of_donation h (gives_active ha ht) (fun b => hcleared t b)
    (fun u b hne => gives_of_ne ht hne b) (fun u b _ => hcleared u b) (fun hf => by cases hf), ?_⟩
  rw [threadDonationDropLocked, ht]
  simp only []
  rw [threadClassFloorDecLocked_eq (h.donated_pos ha ht),
    threadRecomputePrioClassLocked_setDonation]
  simp only [Bind.bind, Except.bind]
  rcases threadRecomputePrioClassLocked debug _ t <;> rfl

/-- The thread's own boosts change. -/
theorem Edit.of_own (h : Inv s) {lose gain : Option PrioClass}
    {selfBoosts : PrioClass → ℕ} {contributedFloor : Bool} {floor : PrioClass}
    (hth : th = { s.threads t with
      classFloors := floorsAfter (s.threads t).classFloors lose gain
      contributedFloor := contributedFloor
      floor := floor
      selfBoosts := selfBoosts })
    (hpos : ∀ c, lose = some c → 0 < (s.threads t).selfBoosts c + (s.threads t).readerBoost c)
    (hown : ∀ c, selfBoosts c + th.readerBoost c + one lose c =
      (s.threads t).selfBoosts c + (s.threads t).readerBoost c + one gain c) :
    Edit s { thread := t, lose, gain } (s.setThread t th) := by
  have hself : th.selfBoosts = selfBoosts := by rw [hth]
  refine Edit.of h (by rw [hth]) (by rw [hth]) (by rw [hth]) (by rw [hth]) (by rw [hth])
    (one_le_of_mem fun c hc => ?_) (fun c => ?_) (fun u c _ => rfl) h.target
  · have := hpos c hc
    simp only [contributions]
    omega
  · have := hown c
    simp only [contributions, hself]
    omega

theorem Inv.lt_of_room (h : Inv s) (hroom : contributions s t c < 255) :
    (s.threads t).classFloors c < 255 := by
  rw [h.floors]
  exact hroom

theorem threadBoostSelf_of (h : Inv s) (hroom : contributions s t c < 255) :
    ∃ s₁, Edit s { thread := t, lose := none, gain := some c } s₁ ∧
      threadBoostSelf debug s t c = threadRecomputePrioClassLocked debug s₁ t := by
  rw [threadBoostSelf, threadClassFloorIncLocked_eq (h.lt_of_room hroom)]
  refine ⟨_, ?_, rfl⟩
  refine Edit.of_own h rfl (fun b hb => by cases hb) (fun b => ?_)
  rcases eq_or_ne b c with rfl | hne
  · simp only [update_self, readerBoost, one_none, one_self]
    omega
  · simp only [update_of_ne hne, readerBoost, one_none, one_of_ne hne.symm]

theorem threadUnboostSelf_of (h : Inv s) (hself : 0 < (s.threads t).selfBoosts c) :
    ∃ s₁, Edit s { thread := t, lose := some c, gain := none } s₁ ∧
      threadUnboostSelf debug s t c = threadRecomputePrioClassLocked debug s₁ t := by
  have hpos : 0 < (s.threads t).classFloors c := by
    rw [h.floors, contributions]
    omega
  rw [threadUnboostSelf, threadClassFloorDecLocked_eq hpos]
  refine ⟨_, ?_, rfl⟩
  refine Edit.of_own h rfl (fun b hb => ?_) (fun b => ?_)
  · obtain ⟨⟩ := hb
    omega
  rcases eq_or_ne b c with rfl | hne
  · simp only [update_self, readerBoost, one_none, one_self]
    omega
  · simp only [update_of_ne hne, readerBoost, one_none, one_of_ne hne.symm]

theorem readerBoost_eq (hc : th.contributedFloor) (c : PrioClass) :
    th.readerBoost c = one (some th.floor) c := by
  simp [readerBoost, one, hc]

theorem readerBoost_eq_zero (hc : ¬ th.contributedFloor) (c : PrioClass) :
    th.readerBoost c = 0 := by
  simp [readerBoost, hc]

theorem Inv.floor_pos (h : Inv s) (hc : (s.threads t).contributedFloor) :
    0 < (s.threads t).classFloors (s.threads t).floor := by
  rw [h.floors, contributions, readerBoost_eq hc, one_self]
  omega

theorem boostThreadTo_of (h : Inv s) {prio : PrioClass}
    (hroom : (boostChange (s.threads t) prio).2 = some prio → contributions s t prio < 255) :
    ∃ s₁, Edit s ⟨t, (boostChange (s.threads t) prio).1, (boostChange (s.threads t) prio).2⟩ s₁ ∧
      boostThreadTo debug s t prio = threadRecomputePrioClassLocked debug s₁ t := by
  rw [boostThreadTo, contributeFloor_eq h.floor_pos fun hg => h.lt_of_room (hroom hg)]
  refine ⟨_, ?_, rfl⟩
  by_cases hc : (s.threads t).contributedFloor
  · by_cases hlt : (s.threads t).floor < prio
    · have hch : boostChange (s.threads t) prio = (some (s.threads t).floor, some prio) := by
        simp [boostChange, hc, hlt]
      rw [hch, if_neg fun hle => not_le.2 hlt hle.2]
      refine Edit.of_own h rfl (fun b hb => ?_) (fun b => ?_)
      · obtain ⟨⟩ := hb
        rw [readerBoost_eq hc, one_self]
        omega
      · rw [readerBoost_eq rfl, readerBoost_eq hc]
        dsimp only
        omega
    · have hch : boostChange (s.threads t) prio = (none, none) := by simp [boostChange, hc, hlt]
      rw [hch, if_pos ⟨hc, not_lt.1 hlt⟩]
      refine Edit.of_own h rfl (fun b hb => by cases hb) (fun b => ?_)
      rw [readerBoost_eq rfl, readerBoost_eq hc]
  · have hch : boostChange (s.threads t) prio = (none, some prio) := by simp [boostChange, hc]
    rw [hch, if_neg fun hle => hc hle.1]
    refine Edit.of_own h rfl (fun b hb => by cases hb) (fun b => ?_)
    rw [readerBoost_eq rfl, readerBoost_eq_zero hc, one_none]
    rfl

theorem unboostThread_of (h : Inv s) :
    ∃ s₁, Edit s
        ⟨t, if (s.threads t).contributedFloor then some (s.threads t).floor else none, none⟩ s₁ ∧
      unboostThread debug s t = threadRecomputePrioClassLocked debug s₁ t := by
  by_cases hc : (s.threads t).contributedFloor
  · rw [unboostThread, if_pos hc, if_pos hc, threadClassFloorDecLocked_eq (h.floor_pos hc)]
    refine ⟨_, ?_, rfl⟩
    refine Edit.of_own h rfl (fun b hb => ?_) (fun b => ?_)
    · obtain ⟨⟩ := hb
      rw [readerBoost_eq hc, one_self]
      omega
    · rw [readerBoost_eq hc, readerBoost_eq_zero (by simp), one_none]
      rfl
  · rw [unboostThread, if_neg hc, if_neg hc]
    refine ⟨_, ?_, rfl⟩
    refine Edit.of_own h rfl (fun b hb => by cases hb) (fun b => ?_)
    rw [readerBoost_eq_zero hc, readerBoost_eq_zero (by simp)]

/-- An operation on the floors is a change of them, after which the class is recomputed. The only
check that can fail before that is the one on the target of a donation. -/
theorem step_of_change [DecidableEq D] (debug : Bool) (h : Inv s) {act : Act T D}
    (hallowed : allowed s act) (hch : change s act = some ch) :
    step debug s act = .error .differentThread ∨ ∃ s₁, Edit s ch s₁ ∧
      step debug s act = threadRecomputePrioClassLocked debug s₁ ch.thread := by
  have hroom (c : PrioClass) (hc : ch.gain = some c) : contributions s ch.thread c < 255 := by
    obtain ⟨t, lose, gain⟩ := ch
    obtain rfl : gain = some c := hc
    simp only [allowed, hch, Bool.and_eq_true, decide_eq_true_eq] at hallowed
    exact hallowed.2
  have hraise {t : T} {d : D} {c : PrioClass} (hr : raiseChange s t d c = some ch) :
      contributions s t c < 255 := by
    unfold raiseChange at hr
    split_ifs at hr <;> obtain rfl := some.inj hr <;> exact hroom c rfl
  cases act with
  | inheritPriority boosted fromThread d
  | donateClass boosted c d => exact threadDonationRaiseLocked_of h hch (hraise hch)
  | uninheritPriority d =>
    simp only [change] at hch
    split_ifs at hch with ha
    obtain ⟨t, ht⟩ := h.target d ha
    rw [ht] at hch
    obtain ⟨⟩ := hch
    rw [step, threadUninheritPriority, if_pos ha]
    exact .inr (threadDonationDropLocked_of h ha ht)
  | boostSelf t c =>
    obtain ⟨⟩ := hch
    exact .inr (threadBoostSelf_of h (hroom c rfl))
  | unboostSelf t c =>
    obtain ⟨⟩ := hch
    simp only [allowed, change, Bool.and_true, decide_eq_true_eq] at hallowed
    exact .inr (threadUnboostSelf_of h hallowed)
  | boostThreadTo t prio =>
    obtain ⟨⟩ := hch
    exact .inr (boostThreadTo_of h (hroom prio))
  | boostThreadInDpc t prio =>
    obtain ⟨⟩ := hch
    rw [step, boostThreadInDpc_eq (h.perceived t)]
    exact .inr (boostThreadTo_of h (hroom prio))
  | unboostThread t =>
    obtain ⟨⟩ := hch
    exact .inr (unboostThread_of h)
  | preAcquire t id | preWait t | postWait t | switchOut t | postAcquire t => cases hch

end Operations

end Charmos.Donation
