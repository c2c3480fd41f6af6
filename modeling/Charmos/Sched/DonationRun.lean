import Charmos.Lib.Trace
import Charmos.Sched.DonationSpec

/-!
# Runs of the donation accounts

The accounts of `Charmos.Sched.DonationSpec` hold in every state of a run in which no field of a
bucket is already full when a writer comes to it (`tallySafe`): the fields have 16 bits and
`switch_out_writer` and `wroost_move_tally` add to them unchecked. `donationRun_ok` is the theorem,
and `donationRun_overflow` is a run with 65536 writers. A step that is not safe always breaks the
accounts (`not_ok_of_not_safe`).
-/

namespace Charmos.Donation

open AgentSum Except Function Option Relation Sync Sys Thread

variable {T D : Type} [DecidableEq T] [DecidableEq D] [Fintype T] [Fintype D]
  {s s' : Sys T D} {debug : Bool} {act : Act T D} {th : Thread} {t : T} {ch : Change T}

/-- The class of the thread after a change of its floors. -/
def classAfter (s : Sys T D) (ch : Change T) : PrioClass :=
  threadRecomputePrioClassDryLocked (s.threads ch.thread).basePrioClass
    (floorsAfter (s.threads ch.thread).classFloors ch.lose ch.gain)

/-- A writer that is counted anew, or at another class, comes to a field that is not full. The
checks of `wroost_move_tally` look at all fields. -/
def tallySafe (debug : Bool) (s : Sys T D) (act : Act T D) : Bool :=
  match act with
  | .switchOut t =>
    (s.threads t).writerState ≠ .wait ||
      counted s (s.threads t).wantLockId (s.threads t).perceivedPrioClass < 65535
  | act =>
    match change s act with
    | none => true
    | some ch =>
      let th := s.threads ch.thread
      th.writerState ≠ .bump || classAfter s ch = th.perceivedPrioClass ||
        decide (∀ c, debug ∨ c = classAfter s ch → counted s th.wantLockId c < 65535)

/-- A step of an operation that is used as it may be. -/
def Step (debug : Bool) (s s' : Sys T D) : Prop :=
  ∃ act, allowed s act ∧ step debug s act = .ok s'

/-- A step that finds no field full. -/
def SafeStep (debug : Bool) (s s' : Sys T D) : Prop :=
  ∃ act, allowed s act ∧ tallySafe debug s act ∧ step debug s act = .ok s'

/-! ### One thread changes -/

section

omit [DecidableEq D] [Fintype D]

theorem counted_update (h : s'.threads = update s.threads t th) (id : ℕ) (c : PrioClass) :
    counted s' id c + (s.threads t).countedAt id c = counted s id c + th.countedAt id c := by
  rw [counted, h]
  exact total_update (countedAt id c) s.threads t th

theorem word_update (h : s'.threads = update s.threads t th)
    (hword : ∀ id, s.rawTally id = total (weight id) s.threads)
    (hraw : ∀ id, s'.rawTally id + (s.threads t).weight id = s.rawTally id + th.weight id)
    (id : ℕ) : s'.rawTally id = total (weight id) s'.threads := by
  have hmove := total_update (weight id) s.threads t th
  rw [← hword id, ← hraw id, ← h] at hmove
  exact (add_right_cancel hmove).symm

end

theorem countedAt_le_one (th : Thread) (id : ℕ) (c : PrioClass) : th.countedAt id c ≤ 1 := by
  unfold countedAt
  split_ifs <;> omega

omit [DecidableEq D] [Fintype D] in
/-- The numbers still fit if a writer comes only to a field that is not full. -/
theorem fits_update (h : s'.threads = update s.threads t th)
    (hfits : ∀ id c, counted s id c ≤ 65535)
    (hroom : ∀ id c, th.countedAt id c = 1 → (s.threads t).countedAt id c = 0 →
      counted s id c < 65535) (id : ℕ) (c : PrioClass) : counted s' id c ≤ 65535 := by
  have hmove := counted_update h id c
  have hle := hfits id c
  have hnew := countedAt_le_one th id c
  have hfree := hroom id c
  by_cases hold : (s.threads t).countedAt id c = 0
  · by_cases hone : th.countedAt id c = 1
    · have := hfree hone hold
      omega
    · omega
  · omega

/-! ### Changes of the floors -/

section

omit [DecidableEq D]

/-- A change of the floors and the class after it. -/
theorem Inv.changed (h : Inv s) {s₁ : Sys T D} (he : Edit s ch s₁)
    (hok : threadRecomputePrioClassLocked debug s₁ ch.thread = .ok s') :
    Inv s' ∧ ∃ th, s'.threads = update s.threads ch.thread th ∧
      th.writerState = (s.threads ch.thread).writerState ∧
      th.wantLockId = (s.threads ch.thread).wantLockId ∧
      th.perceivedPrioClass = classAfter s ch := by
  obtain ⟨th, hth, hbase, hclass, hstate, hwant, hfl⟩ := he.threads
  obtain ⟨hthreads, hdon, hraw⟩ := threadRecomputePrioClassLocked_ok hok
  rw [hth, update_self] at hthreads hraw
  rw [update_idem] at hthreads
  have hweight (id : ℕ) : th.weight id = (s.threads ch.thread).weight id := by
    simp only [weight, hstate, hwant, hclass]
  have hfloors (t : T) : (s'.threads t).classFloors = (s₁.threads t).classFloors ∧
      (s'.threads t).selfBoosts = (s₁.threads t).selfBoosts ∧
      (s'.threads t).readerBoost = (s₁.threads t).readerBoost := by
    rw [hthreads, hth]
    rcases eq_or_ne t ch.thread with rfl | hne
    · simp only [update_self]
      exact ⟨rfl, rfl, rfl⟩
    · simp only [update_of_ne hne, and_self]
  refine ⟨⟨fun t c => ?_, ?_, fun t => ?_, ?_⟩, _, hthreads, hstate, hwant, ?_⟩
  · obtain ⟨hf, hself, hreader⟩ := hfloors t
    rw [hf, contributions, hdon, hself, hreader]
    exact he.floors t c
  · rw [hdon]
    exact he.target
  · rw [hthreads]
    rcases eq_or_ne t ch.thread with rfl | hne
    · rw [update_self]
      rfl
    · rw [update_of_ne hne]
      exact h.perceived t
  · refine word_update hthreads h.word fun id => ?_
    rw [← hweight, hraw, he.rawTally]
  · rw [threadRecomputePrioClassRawLocked, hbase, hfl]
    rfl

/-- The check after a change of the floors fails when a writer moves and a field is full. -/
theorem Inv.error_iff (h : Inv s) (hfits : ∀ id c, counted s id c ≤ 65535) {s₁ : Sys T D}
    (he : Edit s ch s₁) : (∃ f, threadRecomputePrioClassLocked debug s₁ ch.thread = .error f) ↔
      ((s.threads ch.thread).writerState = .bump ∧
        (s.threads ch.thread).perceivedPrioClass ≠ classAfter s ch) ∧ debug ∧
      ∃ c, counted s (s.threads ch.thread).wantLockId c = 65535 := by
  obtain ⟨th, hth, hbase, hclass, hstate, hwant, hfl⟩ := he.threads
  have hafter : threadRecomputePrioClassDryLocked th.basePrioClass th.classFloors =
      classAfter s ch := by
    rw [hbase, hfl]
    rfl
  simp only [threadRecomputePrioClassLocked, threadRecomputePrioClassRawLocked, setThread, hth,
    update_self, wroostPostPrioChangeLocked, wroostMoveTally, hafter, hclass, hstate, hwant,
    he.rawTally, h.word, wroostReadTally_total hfits]
  split_ifs with hmove hfull
  · exact iff_of_true ⟨_, rfl⟩ ⟨hmove, hfull⟩
  · exact iff_of_false (by simp) fun hf => hfull hf.2
  · exact iff_of_false (by simp) fun hf => hmove hf.1

end

/-! ### Writers -/

omit [Fintype T] [Fintype D] in
/-- What an operation that changes no floor does: nothing, or one thread changes its writer state,
and the word of its bucket follows. Only `switch_out_writer` counts a writer. The checks are on the
thread that a donation is on, and on the writer state. -/
theorem step_of_no_change (debug : Bool) (hch : change s act = none) :
    match step debug s act with
    | .error f => f = .differentThread ∨ f = .writerState ∨
      ∃ d, (s.donations d).active ∧ (s.donations d).target = none
    | .ok s' => s' = s ∨ ∃ t w i, s'.threads = update s.threads t
        { s.threads t with writerState := w, wantLockId := i } ∧
      s'.donations = s.donations ∧
      (∀ id, s'.rawTally id + (s.threads t).weight id = s.rawTally id +
        { s.threads t with writerState := w, wantLockId := i : Thread }.weight id) ∧
      (w = .bump → act = .switchOut t ∧ (s.threads t).writerState = .wait ∧
        i = (s.threads t).wantLockId) := by
  have hraise {t : T} {d : D} {c : PrioClass} (hr : raiseChange s t d c = none) :
      threadDonationRaiseLocked debug s t d c = .error .differentThread ∨
        threadDonationRaiseLocked debug s t d c = .ok s := by
    unfold raiseChange at hr
    unfold threadDonationRaiseLocked
    split_ifs at hr with ha hle
    rw [if_pos ha, if_pos hle]
    exact ite_eq_or_eq ..
  -- the thread is not counted before and not after
  have hidle {t : T} {w : WriterState} {i : ℕ} (hold : (s.threads t).writerState ≠ .bump)
      (hnew : w ≠ .bump) (id : ℕ) : s.rawTally id + (s.threads t).weight id = s.rawTally id +
        { s.threads t with writerState := w, wantLockId := i : Thread }.weight id := by
    simp [weight, hold, hnew]
  cases act with
  | inheritPriority boosted fromThread d | donateClass boosted c d =>
    rcases hraise hch with hr | hr
    · simp only [step, threadInheritPriority, threadDonateClass, hr, true_or]
    · simp only [step, threadInheritPriority, threadDonateClass, hr, true_or]
  | uninheritPriority d =>
    simp only [change] at hch
    simp only [step, threadUninheritPriority]
    split_ifs at hch ⊢ with ha
    · rw [map_eq_none_iff] at hch
      rw [threadDonationDropLocked, hch]
      exact .inr (.inr ⟨d, ha, hch⟩)
    · exact .inl rfl
  | boostSelf t c | unboostSelf t c | boostThreadTo t prio | boostThreadInDpc t prio
  | unboostThread t => cases hch
  | preAcquire t id =>
    simp only [step, wroostPreAcquire]
    split_ifs with hne
    · exact .inr (.inl rfl)
    · refine .inr ⟨t, .want, id, rfl, rfl, hidle (fun hb => ?_) (by decide), fun hw => by cases hw⟩
      exact hne (by rw [hb]; decide)
  | preWait t =>
    simp only [step, wroostPreWait]
    cases hw : (s.threads t).writerState with
    | none => exact .inl rfl
    | want =>
      exact .inr ⟨t, .wait, _, rfl, rfl, hidle (by rw [hw]; decide) (by decide),
        fun hw => by cases hw⟩
    | wait | bump => exact .inr (.inl rfl)
  | postWait t =>
    simp only [step, wroostPostWait]
    cases hw : (s.threads t).writerState with
    | want => exact .inr (.inl rfl)
    | wait =>
      exact .inr ⟨t, .want, _, rfl, rfl, hidle (by rw [hw]; decide) (by decide),
        fun hw => by cases hw⟩
    | none | bump => exact .inl rfl
  | switchOut t =>
    simp only [step, wroostSwitchOut]
    split_ifs with hw
    · refine .inr ⟨t, .bump, _, rfl, rfl, fun id => ?_, fun _ => ⟨rfl, hw, rfl⟩⟩
      by_cases hid : id = (s.threads t).wantLockId
      · simp [addTally, setThread, weight, hid, hw]
      · simp [addTally, setThread, weight, hid, Ne.symm hid]
    · exact .inl rfl
  | postAcquire t =>
    simp only [step, wroostPostAcquire]
    cases hw : (s.threads t).writerState with
    | none | wait => exact .inr (.inl rfl)
    | bump =>
      refine .inr ⟨t, .none, 0, rfl, rfl, fun id => ?_, fun hw => by cases hw⟩
      by_cases hid : id = (s.threads t).wantLockId
      · simp [addTally, setThread, weight, hid, hw]
      · simp [addTally, setThread, weight, hid, Ne.symm hid]
    | want =>
      exact .inr ⟨t, .none, 0, rfl, rfl, hidle (by rw [hw]; decide) (by decide),
        fun hw => by cases hw⟩

omit [DecidableEq D] in
theorem Inv.writer (h : Inv s) {w : WriterState} {i : ℕ}
    (hthreads : s'.threads = update s.threads t
      { s.threads t with writerState := w, wantLockId := i })
    (hdon : s'.donations = s.donations)
    (hraw : ∀ id, s'.rawTally id + (s.threads t).weight id = s.rawTally id +
      { s.threads t with writerState := w, wantLockId := i : Thread }.weight id) : Inv s' := by
  refine ⟨fun u c => ?_, ?_, fun u => ?_, word_update hthreads h.word hraw⟩
  · rw [contributions, hdon, hthreads]
    rcases eq_or_ne u t with rfl | hne
    · simp only [update_self]
      exact h.floors u c
    · simp only [update_of_ne hne]
      exact h.floors u c
  · rw [hdon]
    exact h.target
  · rw [hthreads]
    rcases eq_or_ne u t with rfl | hne
    · simp only [update_self]
      exact h.perceived u
    · simp only [update_of_ne hne]
      exact h.perceived u

/-! ### Steps -/

theorem Inv.step (h : Inv s) (hallowed : allowed s act)
    (hstep : Donation.step debug s act = .ok s') : Inv s' := by
  rcases hch : change s act with _ | ch
  · have hno := step_of_no_change debug hch
    rw [hstep] at hno
    rcases hno with rfl | ⟨t, w, i, hthreads, hdon, hraw, -⟩
    · exact h
    · exact h.writer hthreads hdon hraw
  · rcases step_of_change debug h hallowed hch with herr | ⟨s₁, he, heq⟩
    · rw [herr] at hstep
      cases hstep
    · exact (h.changed he (heq.symm.trans hstep)).1

omit [DecidableEq T] [DecidableEq D] [Fintype D] in
theorem tallySafe_of_change [DecidableEq T] (hch : change s act = some ch) :
    tallySafe debug s act ↔ ((s.threads ch.thread).writerState = .bump →
      classAfter s ch ≠ (s.threads ch.thread).perceivedPrioClass →
      ∀ c, debug ∨ c = classAfter s ch →
        counted s (s.threads ch.thread).wantLockId c < 65535) := by
  cases act with
  | switchOut t => cases hch
  | _ =>
    by_cases hb : (s.threads ch.thread).writerState = .bump <;>
      by_cases hc : classAfter s ch = (s.threads ch.thread).perceivedPrioClass <;>
      simp [tallySafe, hch, hb, hc]

/-- The numbers of writers fit after a safe step. -/
theorem fits_step (h : Inv s) (hfits : ∀ id c, counted s id c ≤ 65535) (hallowed : allowed s act)
    (hsafe : tallySafe debug s act) (hstep : step debug s act = .ok s') :
    ∀ id c, counted s' id c ≤ 65535 := by
  rcases hch : change s act with _ | ch
  · have hno := step_of_no_change debug hch
    rw [hstep] at hno
    rcases hno with rfl | ⟨t, w, i, hthreads, -, -, hout⟩
    · exact hfits
    refine fits_update hthreads hfits fun id c hnew _ => ?_
    simp only [countedAt, ite_eq_left_iff, zero_ne_one, imp_false, not_not] at hnew
    obtain ⟨rfl, rfl, rfl⟩ := hnew
    obtain ⟨rfl, hwait, rfl⟩ := hout rfl
    simpa [tallySafe, hwait] using hsafe
  · rcases step_of_change debug h hallowed hch with herr | ⟨s₁, he, heq⟩
    · rw [herr] at hstep
      cases hstep
    obtain ⟨-, th, hthreads, hstate, hwant, hclass⟩ := h.changed he (heq.symm.trans hstep)
    refine fits_update hthreads hfits fun id c hnew hold => ?_
    simp only [countedAt, ite_eq_left_iff, zero_ne_one, imp_false, not_not] at hnew
    simp only [countedAt, ite_eq_right_iff, one_ne_zero, imp_false] at hold
    obtain ⟨hb, hid, hcls⟩ := hnew
    rw [hstate] at hb
    rw [hwant] at hid
    rw [hclass] at hcls
    have hne : classAfter s ch ≠ (s.threads ch.thread).perceivedPrioClass := fun hsame =>
      hold ⟨hb, hid, hsame.symm.trans hcls⟩
    rw [← hid]
    exact (tallySafe_of_change hch).1 hsafe hb hne c (.inr hcls.symm)

/-- The checks that can still fail: a donation that is on another thread, and a hook in a writer
state that it does not expect. -/
theorem step_error (h : Inv s) (hfits : ∀ id c, counted s id c ≤ 65535) (hallowed : allowed s act)
    (hsafe : tallySafe debug s act) {f : Fault} (hstep : step debug s act = .error f) :
    f = .differentThread ∨ f = .writerState := by
  rcases hch : change s act with _ | ch
  · have hno := step_of_no_change debug hch
    rw [hstep] at hno
    rcases hno with hf | hf | ⟨d, ha, hd⟩
    · exact .inl hf
    · exact .inr hf
    · obtain ⟨t, ht⟩ := h.target d ha
      rw [hd] at ht
      cases ht
  · rcases step_of_change debug h hallowed hch with herr | ⟨s₁, he, heq⟩
    · exact .inl (error.inj (hstep.symm.trans herr))
    -- the fields are the numbers of writers, and none is full
    obtain ⟨⟨hb, hne⟩, hdebug, c, hfull⟩ := (h.error_iff hfits he).mp ⟨f, heq.symm.trans hstep⟩
    have hlt := (tallySafe_of_change hch).1 hsafe hb (Ne.symm hne) c (.inl hdebug)
    omega

/-! ### Runs -/

theorem run_inv (base : T → PrioClass) (hrun : ReflTransGen (Step debug) (sysInit base) s) :
    Inv s := by
  induction hrun with
  | refl => exact sysInit_inv base
  | tail _ hstep ih =>
    obtain ⟨act, hallowed, hstep⟩ := hstep
    exact ih.step hallowed hstep

theorem safeRun_inv (base : T → PrioClass) (hrun : ReflTransGen (SafeStep debug) (sysInit base) s) :
    Inv s ∧ ∀ id c, counted s id c ≤ 65535 := by
  induction hrun with
  | refl =>
    refine ⟨sysInit_inv base, fun id c => ?_⟩
    rw [counted, total_const_zero fun t => by simp [sysInit, threadInit, countedAt]]
    omega
  | tail _ hstep ih =>
    obtain ⟨act, hallowed, hsafe, hstep⟩ := hstep
    exact ⟨ih.1.step hallowed hstep, fits_step ih.1 ih.2 hallowed hsafe hstep⟩

/-- In every run that finds no field full, the accounts are right in every state, and no step that
finds none full fails an overflow or underflow check. -/
theorem donationRun_ok (debug : Bool) (base : T → PrioClass) {s : Sys T D}
    (hrun : ReflTransGen (SafeStep debug) (sysInit base) s) :
    Ok s ∧ ∀ act, allowed s act → tallySafe debug s act →
      step debug s act ≠ .error .overflow ∧ step debug s act ≠ .error .underflow := by
  obtain ⟨hinv, hfits⟩ := safeRun_inv base hrun
  refine ⟨hinv.ok hfits, fun act hallowed hsafe => ⟨fun hstep => ?_, fun hstep => ?_⟩⟩
  · rcases step_error hinv hfits hallowed hsafe hstep with hf | hf <;> cases hf
  · rcases step_error hinv hfits hallowed hsafe hstep with hf | hf <;> cases hf

/-- A run of safe steps as a list of operations. -/
def trace (debug : Bool) (s : Sys T D) (acts : List (Act T D)) : Option (Sys T D) :=
  acts.foldlM (fun s act =>
    if allowed s act ∧ tallySafe debug s act then (step debug s act).toOption else none) s

theorem trace_run {acts : List (Act T D)} (h : trace debug s acts = some s') :
    ReflTransGen (SafeStep debug) s s' := by
  refine reflTransGen_of_trace h fun s act s₁ hfirst => ?_
  obtain ⟨hsafe, hfirst⟩ := ite_none_right_eq_some.mp hfirst
  rcases hstep : step debug s act with f | s₂
  · rw [hstep] at hfirst
    cases hfirst
  rw [hstep] at hfirst
  obtain ⟨⟩ := hfirst
  exact ⟨act, hsafe.1, hsafe.2, hstep⟩

/-- A writer of the lowest class inherits the class of another thread while it is counted, and the
other thread boosts itself. -/
theorem donationRun_ok_inherit :
    ∃ s : Sys (Fin 2) Unit, ReflTransGen (SafeStep true)
        (sysInit fun t => if t = 0 then .background else .realtime) s ∧ Ok s ∧
      wroostReadTally (s.rawTally 3) .realtime = 1 ∧ contributions s 1 .urgent = 1 := by
  have hobs : (trace true (sysInit fun t => if t = 0 then .background else .realtime)
      ([.preAcquire 0 3, .preWait 0, .switchOut 0, .inheritPriority 0 1 (), .boostSelf 1 .urgent] :
        List (Act (Fin 2) Unit))).map
      (fun s => (wroostReadTally (s.rawTally 3) .realtime, contributions s 1 .urgent)) =
        some (1, 1) := by decide +kernel
  obtain ⟨s, hs, hobs⟩ := map_eq_some_iff.mp hobs
  have hrun := trace_run hs
  exact ⟨s, hrun, (donationRun_ok true _ hrun).1, by simpa using hobs⟩

/-- A step that finds the field full breaks the accounts, unless a check stops it. -/
theorem not_ok_of_not_safe (h : Inv s) (hfits : ∀ id c, counted s id c ≤ 65535)
    (hallowed : allowed s act) (hnotSafe : ¬ tallySafe debug s act)
    (hstep : step debug s act = .ok s') : ¬ Ok s' := by
  intro hok
  apply hnotSafe
  rcases hch : change s act with _ | ch
  · cases act with
    | switchOut t =>
      by_cases hw : (s.threads t).writerState = .wait
      · simp only [step, wroostSwitchOut, if_pos hw] at hstep
        have hthreads : s'.threads = update s.threads t
            { s.threads t with writerState := .bump } := by
          rw [← ok.inj hstep]
          rfl
        have hmove := counted_update hthreads (s.threads t).wantLockId
          (s.threads t).perceivedPrioClass
        have hle := hok.fits (s.threads t).wantLockId (s.threads t).perceivedPrioClass
        simp only [countedAt, hw, reduceCtorEq, false_and, and_self, if_true, if_false] at hmove
        simp only [tallySafe, hw, decide_eq_true_eq, Bool.or_eq_true]
        omega
      · simp [tallySafe, hw]
    | _ => simp only [tallySafe, hch]
  · rcases step_of_change debug h hallowed hch with herr | ⟨s₁, he, heq⟩
    · rw [herr] at hstep
      cases hstep
    rw [tallySafe_of_change hch]
    intro hb hne c hc
    obtain ⟨-, th', hthreads', hstate', hwant', hclass'⟩ := h.changed he (heq.symm.trans hstep)
    rcases hc with hdebug | rfl
    · refine lt_of_le_of_ne (hfits _ _) fun hfull => ?_
      obtain ⟨f, herr⟩ := (h.error_iff hfits he).mpr ⟨⟨hb, hne.symm⟩, hdebug, c, hfull⟩
      rw [← heq, hstep] at herr
      cases herr
    · have hmove := counted_update hthreads' (s.threads ch.thread).wantLockId (classAfter s ch)
      have hle := hok.fits (s.threads ch.thread).wantLockId (classAfter s ch)
      simp only [countedAt, hstate', hwant', hclass', hb, hne.symm, and_self, and_false,
        if_true, if_false] at hmove
      omega

/-- At every state of a run, the steps that keep the accounts right are those that find no field
full. -/
theorem donationStep_ok_iff (debug : Bool) {base : T → PrioClass}
    (hrun : ReflTransGen (SafeStep debug) (sysInit base) s) (hallowed : allowed s act)
    (hstep : step debug s act = .ok s') : Ok s' ↔ tallySafe debug s act := by
  obtain ⟨h, hfits⟩ := safeRun_inv base hrun
  refine ⟨fun hok => by_contra fun hsafe => ?_, fun hsafe => ?_⟩
  · exact not_ok_of_not_safe h hfits hallowed hsafe hstep hok
  · exact (h.step hallowed hstep).ok (fits_step h hfits hallowed hsafe hstep)

/-- The counted writer gives the class back: it moves from one field of the tally to another. -/
theorem donationStep_ok_iff_uninherit : ∃ s s' : Sys (Fin 2) Unit,
    ReflTransGen (SafeStep true)
      (sysInit fun t => if t = 0 then .background else .realtime) s ∧
    wroostReadTally (s.rawTally 3) .realtime = 1 ∧
    step true s (.uninheritPriority ()) = .ok s' ∧
    wroostReadTally (s'.rawTally 3) .realtime = 0 ∧
    wroostReadTally (s'.rawTally 3) .background = 1 ∧ Ok s' := by
  have hobs : (trace true (sysInit fun t => if t = 0 then .background else .realtime)
      ([.preAcquire 0 3, .preWait 0, .switchOut 0, .inheritPriority 0 1 (), .boostSelf 1 .urgent] :
        List (Act (Fin 2) Unit))).map
      (fun s => (wroostReadTally (s.rawTally 3) .realtime, allowed s (.uninheritPriority ()),
        tallySafe true s (.uninheritPriority ()),
        (step true s (.uninheritPriority ())).toOption.map fun s' =>
          (wroostReadTally (s'.rawTally 3) .realtime,
            wroostReadTally (s'.rawTally 3) .background))) =
        some (1, true, true, some (0, 1)) := by decide +kernel
  obtain ⟨s, hs, hobs⟩ := map_eq_some_iff.mp hobs
  simp only [Prod.mk.injEq] at hobs
  obtain ⟨htally, hallowed, hsafe, hstep⟩ := hobs
  have hrun := trace_run hs
  rcases hs' : step true s (.uninheritPriority ()) with fault | s'
  · rw [hs'] at hstep
    cases hstep
  rw [hs'] at hstep
  obtain ⟨hleft, hright⟩ := Prod.mk.inj (some.inj hstep)
  exact ⟨s, s', hrun, htally, hs', hleft, hright,
    (donationStep_ok_iff true hrun hallowed hs').mpr hsafe⟩

/-! ### More writers than a field holds -/

/-- A writer of the lowest class that was switched out while it waits for the bucket 0. -/
def bumpedThread : Thread := { threadInit .background with writerState := .bump }

omit [DecidableEq D] [Fintype T] in
/-- A thread blocks on the bucket 0. -/
theorem run_bump [DecidableEq D] (debug : Bool) (t : T)
    (hidle : s.threads t = threadInit .background) :
    ∃ s' : Sys T D, ReflTransGen (Step debug) s s' ∧
      s'.threads = update s.threads t bumpedThread := by
  obtain ⟨s₁, hs₁⟩ : ∃ s₁ : Sys T D, s₁ =
    s.setThread t { threadInit .background with writerState := .want } := ⟨_, rfl⟩
  obtain ⟨s₂, hs₂⟩ : ∃ s₂ : Sys T D, s₂ =
    s₁.setThread t { threadInit .background with writerState := .wait } := ⟨_, rfl⟩
  have h₁ : s₁.threads t = { threadInit .background with writerState := .want } := by
    rw [hs₁, setThread_self]
  have h₂ : s₂.threads t = { threadInit .background with writerState := .wait } := by
    rw [hs₂, setThread_self]
  have hacquire : Step debug s s₁ := by
    refine ⟨.preAcquire t 0, rfl, ?_⟩
    rw [step, wroostPreAcquire, hidle, hs₁]
    rfl
  have hwait : Step debug s₁ s₂ := by
    refine ⟨.preWait t, rfl, ?_⟩
    rw [step, wroostPreWait, h₁, hs₂]
  have hout : Step debug s₂ ((s₂.addTally 0 (classBit .background)).setThread t bumpedThread) := by
    refine ⟨.switchOut t, rfl, ?_⟩
    rw [step, wroostSwitchOut, h₂]
    rfl
  refine ⟨_, ((ReflTransGen.single hacquire).tail hwait).tail hout, ?_⟩
  simp [setThread, addTally, hs₂, hs₁]

/-- The first `k` of `n` threads block on the bucket 0. -/
theorem run_bumps (debug : Bool) (n k : ℕ) : ∃ s : Sys (Fin n) D,
    ReflTransGen (Step debug) (sysInit fun _ => .background) s ∧
      ∀ t, s.threads t = if t.val < k then bumpedThread else threadInit .background := by
  induction k with
  | zero => exact ⟨_, .refl, fun t => by simp [sysInit]⟩
  | succ k ih =>
    obtain ⟨s, hrun, hs⟩ := ih
    by_cases hk : k < n
    · obtain ⟨s', hbump, hs'⟩ := run_bump (s := s) debug ⟨k, hk⟩ (by simpa using hs ⟨k, hk⟩)
      refine ⟨s', hrun.trans hbump, fun t => ?_⟩
      rw [hs']
      rcases eq_or_ne t ⟨k, hk⟩ with rfl | hne
      · simp
      have hval : t.val ≠ k := fun h => hne (Fin.ext h)
      rw [update_of_ne hne, hs t]
      by_cases hlt : t.val < k
      · rw [if_pos hlt, if_pos (by omega)]
      · rw [if_neg hlt, if_neg (by omega)]
    · refine ⟨s, hrun, fun t => ?_⟩
      rw [hs t, if_pos (by omega), if_pos (by omega)]

/-- With 65536 writers of the lowest class the field of the class is zero, and the field of the next
class counts a writer that does not exist. -/
theorem donationRun_overflow : ∃ s : Sys (Fin 65536) Unit,
    ReflTransGen (Step false) (sysInit fun _ => .background) s ∧
      counted s 0 .background = 65536 ∧ wroostReadTally (s.rawTally 0) .background = 0 ∧
      counted s 0 .timeshare = 0 ∧ wroostReadTally (s.rawTally 0) .timeshare = 1 := by
  obtain ⟨s, hrun, hs⟩ := run_bumps (D := Unit) false 65536 65536
  have hall : s.threads = fun _ => bumpedThread := funext fun t => by rw [hs t, if_pos t.isLt]
  have hword : s.rawTally 0 = 65536#64 := by
    rw [(run_inv _ hrun).word, hall]
    simp only [total, Finset.sum_const, Finset.card_univ, Fintype.card_fin, nsmul_eq_mul]
    rfl
  refine ⟨s, hrun, ?_, ?_, ?_, ?_⟩
  · simp [counted, total, hall, countedAt, bumpedThread, threadInit]
  · rw [hword]
    rfl
  · simp [counted, total, hall, countedAt, bumpedThread, threadInit]
  · rw [hword]
    rfl

end Charmos.Donation
