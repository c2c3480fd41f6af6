import Charmos.Sched.BoostSpec

/-!
# Runs of threads that change CPU

`thread_migrate` does not call the hook, and it writes the scheduler field of a thread before the
thread has moved. Here is said of each step when it keeps the invariant nevertheless; in runs of
such steps the trees and the counts follow the threads.

## Main definitions

* `LeaveSafe`, `BoostSafe`: when a step is safe.
* `BoostNext`: a safe step.

## Main results

* `boostStep_ok`, `boostSafe_of_ok`: a safe step keeps the invariant, and only a safe one does.
* `boostRun_ok`: what holds in every run of safe steps.
* `boostRun_underflow`: a thread that holds a read lock is migrated while it is ready, and the CPU
  that takes it finds no count for its lock.
-/

namespace Charmos.Boost

open Boost Option

variable {C T : Type}

/-! ### When a step is safe -/

/-- When the current thread of a CPU can be let go. If it goes to another CPU, its tree has to be
the one of this CPU, it must not be a reader that is blocked on a turnstile, and its locks have to
fit. If it stays, either `save_thread` sets its scheduler field, which the tree has to agree with,
or it does not, and the field has to name this CPU if the thread is a reader. -/
def LeaveSafe (cfg : BoostConfig C T) (s : BoostSys C T) (c : C) (t : T) (dst : Option C)
    (retire : Bool) : Prop :=
  let x := s.threads t
  match dst with
  | some d =>
    (x.onClimbTree = true → x.scheduler = c) ∧
      (0 < x.wroost.readNestingDepth → x.blockedTs = false) ∧ Fits cfg s d x.wroost
  | none =>
    if x.state = .running ∧ retire = false then x.onClimbTree = true → x.scheduler = c
    else 0 < x.wroost.readNestingDepth → x.scheduler = c

/-- When a step is safe. A thread that `thread_migrate` changes is in no tree, and if it is
registered as a reader, then it is on a CPU. The other conditions are that a count does not
overflow where a reader is registered, and those of `LeaveSafe` and of `load_thread`, which meet a
thread whose scheduler field names the CPU that it is to migrate to. -/
def BoostSafe (cfg : BoostConfig C T) (s : BoostSys C T) : BoostAct C T → Prop
  | .migrate t dst =>
    (s.threads t).scheduler ≠ dst → schedulerCanTakeThread cfg s dst t = true →
      (s.threads t).onClimbTree = false ∧
        ((s.threads t).mapNode ≠ none → ∃ c p, (s.threads t).place = .on c p)
  | .switchOut c => ∀ t, s.current c = some t → Fits cfg s c (s.threads t).wroost
  | .leave c retire => ∀ t dst, s.current c = some t → (s.threads t).place = .on c (.going dst) →
      LeaveSafe cfg s c t dst retire
  | .pick c t => (s.threads t).onClimbTree = true → (s.threads t).scheduler = c
  | .steal c t => Fits cfg s c (s.threads t).wroost
  | .push t dest => Fits cfg s dest (s.threads t).wroost
  | .resume t best =>
    (∀ c p, (s.threads t).place ≠ .on c p) → (s.threads t).scheduler ≠ best →
      Fits cfg s best (s.threads t).wroost
  | _ => True

/-! ### Records -/

section Records

variable {x : BoostThread C} {c : C} {y : BoostThread C} {p : Place C}

theorem ThreadOk.placed (h : ThreadOk x) (hplace : x.place = p) :
    ThreadOk { x with place := p } := by
  subst hplace
  exact h

theorem ThreadOk.of_placed (hplace : x.place = p) (h : ThreadOk { x with place := p }) :
    ThreadOk x := by
  subst hplace
  exact h

section

variable (h : ThreadOk x)
include h

theorem ThreadOk.mapNode_of_depth_zero (hdepth : x.wroost.readNestingDepth = 0) :
    x.mapNode = none :=
  h.home.trans (if_pos hdepth)

theorem ThreadOk.home_of_zero (hdepth : x.wroost.readNestingDepth = 0)
    (hdata : y.wroost = x.wroost) : x.mapNode = readerHome y := by
  rw [readerHome, hdata, if_pos hdepth]
  exact h.mapNode_of_depth_zero hdepth

theorem ThreadOk.running_mapNode (hplace : x.place = .on c .running) : x.mapNode = none :=
  (h.placed hplace).home.trans (ite_self _)

/-- A thread that is on a CPU past `wroost_switch_out` is registered with it if it is a reader. -/
theorem ThreadOk.going_mapNode {dst : Option C}
    (hplace : x.place = .on c (.going dst)) (hpos : 0 < x.wroost.readNestingDepth) :
    x.mapNode = some c :=
  (h.placed hplace).home.trans (if_neg (Nat.ne_of_gt hpos))

/-- A reader that is on no CPU is registered with the one that its scheduler field names. -/
theorem ThreadOk.offCpu_mapNode
    (hplace : (∃ v, x.place = .queued v) ∨ x.place = .off)
    (hpos : 0 < x.wroost.readNestingDepth) : x.mapNode = some x.scheduler := by
  rcases hplace with ⟨v, hv⟩ | hoff
  · rw [h.queuedReader v hv hpos]
    exact (h.placed hv).home.trans (if_neg (Nat.ne_of_gt hpos))
  · exact (h.placed hoff).home.trans (if_neg (Nat.ne_of_gt hpos))

/-- Of the parts of a record only the pressure has changed. -/
theorem ThreadOk.pressure (n : ℤ) (k : ℕ) (b : Bool)
    (hy : y = { x with pressurePeriods := n, handles := k, onClimbTree := b })
    (hperiods : n = 0 ↔ b = false) : ThreadOk y := by
  subst hy
  exact { h with periods := hperiods }

end

/-- The record that the hook completes is right if the thread is where its field says. -/
theorem ThreadOk.migrated {new : C} (hperiods : x.pressurePeriods = 0 ↔ x.onClimbTree = false)
    (hnew : x.scheduler = new) (hplace : x.place = .queued new ∧ x.state = .ready ∨
      x.place = .off ∧ x.state = .waiting ∧ x.yielded = true)
    (hnode : x.wroost.readNestingDepth = 0 → x.mapNode = none)
    (hblocked : 0 < x.wroost.readNestingDepth → x.blockedTs = false) :
    ThreadOk (migrated x new) := by
  obtain ⟨hqueued, hknown, hstates, hhome⟩ : (∀ c, x.place = .queued c → x.scheduler = c) ∧
      SchedulerKnown x ∧ StateOk x ∧ (x.wroost.readNestingDepth ≠ 0 → some new = readerHome x) := by
    rcases hplace with ⟨hp, hs⟩ | ⟨hp, hs⟩ <;> simp_all [SchedulerKnown, StateOk, readerHome]
  by_cases hdepth : x.wroost.readNestingDepth = 0
  · rw [Boost.migrated, if_pos hdepth]
    exact ⟨hperiods, (hnode hdepth).trans (if_pos hdepth).symm, fun c hq _ => hqueued c hq, hknown,
      fun hn => absurd (hnode hdepth) hn, hstates⟩
  · rw [Boost.migrated, if_neg hdepth]
    exact ⟨hperiods, hhome hdepth, fun c hq _ => hqueued c hq, hknown, fun _ hb =>
      absurd ((hblocked (Nat.pos_of_ne_zero hdepth)).symm.trans hb) Bool.false_ne_true, hstates⟩

/-- Where a thread is registered, and with what. -/
def BoostThread.registration (x : BoostThread C) : Option C × WroostThreadData × Bool :=
  (x.mapNode, x.wroost, x.onClimbTree)

end Records

/-! ### Operations -/

section Operations

variable {cfg : BoostConfig C T} {s s' : BoostSys C T} {t : T} {x y : BoostThread C} {c : C}

theorem BoostOk.setCurrent (h : BoostOk cfg s) (current : C → Option T) :
    BoostOk cfg { s with current := current } :=
  { h with readers := { h.readers with } }

/-- The invariant, except for the record of one thread. -/
structure OthersOk (cfg : BoostConfig C T) (s : BoostSys C T) (t : T) : Prop where
  thread : ∀ u, u ≠ t → ThreadOk (s.threads u)
  climb : ∀ u, ClimbAt s u (s.threads u).scheduler
  readers : ReadersOk cfg s
  panicked : s.panicked = false

theorem BoostOk.others (h : BoostOk cfg s) (t : T) : OthersOk cfg s t :=
  { h with thread := fun u _ => h.thread u }

/-- A thread in a tree has the scheduler field it had, if both states are right and the trees are
the same. -/
theorem BoostOk.scheduler_eq (h : BoostOk cfg s) (h' : BoostOk cfg s')
    (hclimb : s'.climbThreads = s.climbThreads) (hon : (s.threads t).onClimbTree = true) :
    (s.threads t).scheduler = (s'.threads t).scheduler := by
  have hin := (h.climb t (s.threads t).scheduler).2 ⟨hon, rfl⟩
  rw [← hclimb] at hin
  exact ((h'.climb t (s.threads t).scheduler).1 hin).2

variable [DecidableEq T] {b : Bool}

/-- The record of a thread is replaced, and the trees stay. -/
theorem OthersOk.update (h : OthersOk cfg s t)
    (hthreads : s'.threads = Function.update s.threads t y)
    (hclimb : s'.climbThreads = s.climbThreads) (hy : ThreadOk y)
    (htree : y.onClimbTree = (s.threads t).onClimbTree)
    (hsched : y.onClimbTree = true → y.scheduler = (s.threads t).scheduler)
    (hr : ReadersOk cfg s') (hpan : s'.panicked = s.panicked) : BoostOk cfg s' := by
  refine ⟨?_, fun u c => ?_, hr, hpan.trans h.panicked⟩
  · rw [hthreads]
    exact (Function.forall_update_iff _ fun _ => ThreadOk).mpr ⟨hy, h.thread⟩
  rw [hthreads, hclimb, h.climb u c]
  by_cases hu : u = t
  · subst hu
    rw [Function.update_self, ← htree]
    refine and_congr_right fun hon => ?_
    rw [hsched hon]
  · rw [Function.update_of_ne hu]

/-- The record of a thread is replaced, and nothing of it is to move. -/
theorem OthersOk.setThread (h : OthersOk cfg s t) (hx : ThreadOk x)
    (hsame : x.registration = (s.threads t).registration)
    (hsched : x.onClimbTree = true → x.scheduler = (s.threads t).scheduler) :
    BoostOk cfg (setThread s t x) := by
  simp only [BoostThread.registration, Prod.mk.injEq] at hsame
  exact h.update rfl rfl hx hsame.2.2 hsched (h.readers.setThread hsame.1 fun _ => hsame.2.1) rfl

theorem BoostOk.setThread (h : BoostOk cfg s) (hx : ThreadOk x)
    (hsame : x.registration = (s.threads t).registration)
    (hsched : x.onClimbTree = true → x.scheduler = (s.threads t).scheduler) :
    BoostOk cfg (setThread s t x) :=
  (h.others t).setThread hx hsame hsched

/-- A running thread is in no reader list, so that it can change what the lists are about. -/
theorem BoostOk.setRunning {wtd : WroostThreadData} {yielded : Bool} {state : ThreadState}
    (h : BoostOk cfg s)
    (hstep : (match (s.threads t).place with
      | .on _ .running => some (Boost.setThread s t { s.threads t with
        wroost := wtd, blockedTs := b, yielded := yielded, state := state })
      | _ => none) = some s')
    (hstates : (s.threads t).state = .running ∨
        (s.threads t).state = .waiting ∧ (s.threads t).yielded = false →
      state = .running ∨ state = .waiting ∧ yielded = false) : BoostOk cfg s' := by
  split at hstep
  case h_2 => cases hstep
  case h_1 c hplace =>
    obtain ⟨⟩ := hstep
    have ht := (h.thread t).placed hplace
    have hnone := (h.thread t).running_mapNode hplace
    have hreaders := h.readers.setThread (t := t) (x := { s.threads t with
      wroost := wtd, blockedTs := b, yielded := yielded, state := state }) rfl
      fun hn => absurd hnone hn
    exact (h.others t).update rfl rfl (.of_placed hplace ⟨ht.periods, hnone.trans (ite_self _).symm,
      nofun, ht.known, fun hn => absurd hnone hn, hstates ht.states⟩) rfl
        (fun _ => rfl) hreaders rfl

theorem ReadersOk.of_setThread (h : ReadersOk cfg (Boost.setThread s t x))
    (hnode : x.mapNode = (s.threads t).mapNode) (hdata : x.wroost = (s.threads t).wroost) :
    ReadersOk cfg s := by
  have hback := h.setThread (t := t) (x := s.threads t)
    (by rw [setThread_threads_self, hnode]) fun _ => by rw [setThread_threads_self, hdata]
  simpa [Boost.setThread] using hback

theorem BoostOk.removeHandle (h : BoostOk cfg s) (t : T) : BoostOk cfg (removeHandle s t) := by
  have ht := h.thread t
  simp only [Boost.removeHandle]
  split_ifs with hlast
  · exact h.setThread (ht.pressure (-1) _ (s.threads t).onClimbTree rfl (by simp [hlast.2])) rfl
      fun _ => rfl
  · exact h.setThread (ht.pressure _ _ _ rfl ht.periods) rfl fun _ => rfl

variable [DecidableEq C] {old new : C} {retire : Bool} {v : C}

section

variable (h : BoostOk cfg s)
include h

/-- The hook moves the state of a thread whose scheduler field has been written. -/
theorem BoostOk.hook (hnew : x.scheduler = new) (hne : old ≠ new)
    (hsame : x.registration = (s.threads t).registration)
    (hperiods : x.pressurePeriods = (s.threads t).pressurePeriods)
    (hold : x.onClimbTree = true → (s.threads t).scheduler = old)
    (hhome : 0 < x.wroost.readNestingDepth → x.mapNode = some old)
    (hblocked : 0 < x.wroost.readNestingDepth → x.blockedTs = false)
    (hfits : Fits cfg s new x.wroost) :
    OthersOk cfg (threadPostMigrate cfg (Boost.setThread s t x) t old new) t ∧
      (threadPostMigrate cfg (Boost.setThread s t x) t old new).threads t = migrated x new := by
  simp only [BoostThread.registration, Prod.mk.injEq] at hsame
  obtain ⟨hnode, hdata, htree⟩ := hsame
  obtain ⟨s₁, hs₁⟩ : ∃ s₁, s₁ = Boost.setThread s t x := ⟨_, rfl⟩
  have hself : s₁.threads t = x := by rw [hs₁, setThread_threads_self]
  have hclimb : ClimbAt s₁ t old := by
    intro c
    rw [hself, hs₁, setThread_climbThreads, h.climb t c, ← htree]
    refine and_congr_right fun hon => ?_
    rw [hold hon]
  have hm : Moved cfg s₁ (threadPostMigrate cfg s₁ t old new) t new := by
    refine threadPostMigrate_spec ?_ ?_ hne hclimb ?_ ?_ ?_ ?_
    · rw [hs₁]
      exact h.readers.setThread hnode fun _ => hdata
    · rw [hs₁]
      exact h.panicked
    · rw [hself, hperiods, htree]
      exact (h.thread t).periods
    · rwa [hself]
    · rwa [hself]
    rw [hself]
    intro hpos id hid
    rw [hs₁]
    exact hfits hpos id hid
  rw [← hs₁]
  have hrecord : (threadPostMigrate cfg s₁ t old new).threads t = migrated x new := by
    rw [hm.threads, Function.update_self, hself]
  have hscheduler : (migrated x new).scheduler = new := by
    unfold migrated
    split <;> exact hnew
  refine ⟨⟨fun u hu => ?_, fun u => ?_, hm.readers, hm.panicked⟩, hrecord⟩
  · rw [hm.threads, Function.update_of_ne hu, hs₁, setThread_threads_of_ne s t x hu]
    exact h.thread u
  by_cases hu : u = t
  · subst hu
    rw [hrecord, hscheduler]
    exact hm.climb
  · intro c
    rw [hm.others u hu c, hm.threads, Function.update_of_ne hu, hs₁,
      setThread_threads_of_ne s t x hu, setThread_climbThreads]
    exact h.climb u c

/-- The hook completes a move after which the thread is with the new CPU. -/
theorem BoostOk.moved (hnew : x.scheduler = new) (hne : old ≠ new)
    (hsame : x.registration = (s.threads t).registration)
    (hperiods : x.pressurePeriods = (s.threads t).pressurePeriods)
    (hplace : x.place = .queued new ∧ x.state = .ready ∨
      x.place = .off ∧ x.state = .waiting ∧ x.yielded = true)
    (hold : x.onClimbTree = true → (s.threads t).scheduler = old)
    (hhome : 0 < x.wroost.readNestingDepth → x.mapNode = some old)
    (hblocked : 0 < x.wroost.readNestingDepth → x.blockedTs = false)
    (hfits : Fits cfg s new x.wroost) :
    BoostOk cfg (threadPostMigrate cfg (Boost.setThread s t x) t old new) := by
  obtain ⟨hothers, hrecord⟩ := h.hook hnew hne hsame hperiods hold hhome hblocked hfits
  simp only [BoostThread.registration, Prod.mk.injEq] at hsame
  have hx : ThreadOk (migrated x new) := by
    refine .migrated ?_ hnew hplace ?_ hblocked
    · rw [hperiods, hsame.2.2]
      exact (h.thread t).periods
    · rw [hsame.1, hsame.2.1]
      exact (h.thread t).mapNode_of_depth_zero
  refine { hothers with thread := fun u => ?_ }
  by_cases hu : u = t
  · subst hu
    rwa [hrecord]
  · exact hothers.thread u hu

/-- The thread enters or leaves the tree that its scheduler field names. -/
theorem BoostOk.setClimb (hx : ThreadOk x)
    (hnode : x.mapNode = (s.threads t).mapNode) (hdata : x.wroost = (s.threads t).wroost)
    (hsched : x.scheduler = (s.threads t).scheduler) (htree : x.onClimbTree = b)
    (hc : x.scheduler = c) : BoostOk cfg (setClimb (Boost.setThread s t x) c t b) := by
  have hr := h.readers.setThread hnode fun _ => hdata
  refine ⟨(Function.forall_update_iff _ fun _ => ThreadOk).mpr ⟨hx, fun u _ => h.thread u⟩,
    fun u c' => ?_, { hr with }, h.panicked⟩
  by_cases hu : u = t
  · subst hu
    rw [setClimb_self, setClimb_threads, setThread_threads_self, htree, hc]
    by_cases hcc : c' = c
    · simp [hcc]
    have hnot : s.climbThreads c' u = false := by
      rw [← Bool.not_eq_true, h.climb u c', ← hsched, hc]
      exact fun h => hcc h.2
    simp [hcc, hnot]
  · rw [setClimb_of_ne _ _ _ _ hu, setClimb_threads, setThread_threads_of_ne s t x hu]
    exact h.climb u c'

/-! #### Handles -/

theorem BoostOk.applyHandle (t : T) : BoostOk cfg (applyHandle s t) := by
  have ht := h.thread t
  simp only [Boost.applyHandle]
  split_ifs with hzero hon hneg
  · rw [ht.periods.1 hzero] at hon
    exact absurd hon Bool.false_ne_true
  · exact h.setClimb (ht.pressure 1 _ true rfl (by simp)) rfl rfl rfl rfl rfl
  · refine h.setThread (ht.pressure 1 _ (s.threads t).onClimbTree rfl ?_) rfl fun _ => rfl
    rw [← ht.periods]
    omega
  · exact h.setThread (ht.pressure _ _ _ rfl ht.periods) rfl fun _ => rfl

theorem BoostOk.dropClimb (hc : (s.threads t).scheduler = c) : BoostOk cfg (dropClimb s c t) :=
  h.setClimb ((h.thread t).pressure 0 _ false rfl (by simp)) rfl rfl rfl rfl hc

theorem BoostOk.climbThreadRemove (t : T) : BoostOk cfg (climbThreadRemove s t) := by
  simp only [Boost.climbThreadRemove]
  split_ifs
  · exact h.dropClimb rfl
  · exact h

theorem BoostOk.summarizeAndAdvance (noBoost full : Bool) (hin : s.climbThreads c t = true) :
    BoostOk cfg (summarizeAndAdvance s c t noBoost full) := by
  have ht := h.thread t
  obtain ⟨hon, hc⟩ := (h.climb t c).1 hin
  have hne : (s.threads t).pressurePeriods ≠ 0 := by
    rw [Ne, ht.periods, hon]
    exact Bool.noConfusion
  simp only [Boost.summarizeAndAdvance]
  split_ifs with hpos
  · refine h.setThread (ht.pressure _ _ (s.threads t).onClimbTree rfl ?_) rfl fun _ => rfl
    rw [← ht.periods]
    omega
  · exact h
  · exact h.dropClimb hc.symm
  · refine h.setThread (ht.pressure _ _ (s.threads t).onClimbTree rfl ?_) rfl fun _ => rfl
    rw [← ht.periods]
    omega

/-! #### Switches -/

theorem BoostOk.wroostSwitchOut
    (hplace : (s.threads t).place = .on c .running)
    (hfits : Fits cfg s c (s.threads t).wroost) : BoostOk cfg (wroostSwitchOut cfg s c t) := by
  have ht := (h.thread t).placed hplace
  have hnone := (h.thread t).running_mapNode hplace
  by_cases hdepth : (s.threads t).wroost.readNestingDepth = 0
  · simp only [Boost.wroostSwitchOut, if_pos hdepth]
    exact h.setThread ⟨ht.periods, ht.home_of_zero hdepth rfl, nofun, ht.known, ht.blocked,
      ht.states⟩ rfl fun _ => rfl
  simp only [Boost.wroostSwitchOut, if_neg hdepth]
  have hr := h.readers.setThread (t := t)
    (x := { s.threads t with place := .on c .switchedOut }) rfl fun _ => rfl
  refine (h.others t).update (y := { s.threads t with
      place := .on c .switchedOut, mapNode := some c
      inBlockedTsList := (s.threads t).blockedTs || (s.threads t).inBlockedTsList }) ?_ rfl
    ⟨ht.periods, (if_neg hdepth).symm, nofun, ht.known,
      fun _ hb => Bool.or_eq_true_iff.2 (.inl hb), ht.states⟩
    rfl (fun _ => rfl) (hr.addReader (c := c) ?_ fun id hid => ?_) rfl
  · simp [addReader, Boost.setThread]
  · rwa [setThread_threads_self]
  · rw [setThread_threads_self] at hid ⊢
    exact hfits (Nat.pos_of_ne_zero hdepth) id hid

theorem BoostOk.wroostSwitchIn
    (hplace : (s.threads t).place = .on c .switchedIn) :
    BoostOk cfg (wroostSwitchIn cfg s c t) := by
  have ht := (h.thread t).placed hplace
  by_cases hdepth : (s.threads t).wroost.readNestingDepth = 0
  · simp only [Boost.wroostSwitchIn, if_pos hdepth]
    exact h.setThread ⟨ht.periods, ht.home_of_zero hdepth rfl,
      nofun, ht.known, ht.blocked, ht.states⟩ rfl fun _ => rfl
  simp only [Boost.wroostSwitchIn, if_neg hdepth]
  have hr := h.readers.setThread (t := t)
    (x := { s.threads t with place := .on c .running }) rfl fun _ => rfl
  obtain ⟨hr, hthreads, hclimb, hpan, -⟩ := hr.removeReader (c := c) (t := t) (by
    rw [setThread_threads_self]
    exact ht.home.trans (if_neg hdepth))
  refine (h.others t).update (y := { s.threads t with
      place := .on c .running, mapNode := none, inBlockedTsList := false }) ?_ hclimb
    ⟨ht.periods, (ite_self _).symm, nofun, ht.known, fun hn => absurd rfl hn, ht.states⟩
    rfl (fun _ => rfl) hr hpan
  rw [hthreads]
  simp [Boost.setThread]

theorem BoostOk.takeMigrationTarget
    (hplace : (s.threads t).place = .on c .switchedOut) :
    BoostOk cfg (takeMigrationTarget s c t) := by
  have ht := (h.thread t).placed hplace
  refine h.setThread ⟨ht.periods, ht.home, nofun, ?_, ht.blocked, ht.states⟩ rfl fun _ => rfl
  -- Without a target the field names this CPU, because else it would be the target.
  cases hd : (if (s.threads t).migrateTo = some c then none else (s.threads t).migrateTo) with
  | some d =>
    rintro rfl
    split_ifs at hd with hself
    exact hself hd
  | none =>
    intro hne
    have hto : (s.threads t).migrateTo = some (s.threads t).scheduler := ht.known hne
    rw [hto, if_neg fun heq => hne (some.inj heq)] at hd
    exact absurd hd (some_ne_none _)

/-! #### Leaving a CPU -/

/-- The current thread stays with its CPU. -/
theorem BoostOk.leaveCpu_none
    (hplace : (s.threads t).place = .on c (.going none)) (hsafe : LeaveSafe cfg s c t none retire) :
    BoostOk cfg (leaveCpu cfg s c t none retire) := by
  have ht := (h.thread t).placed hplace
  have h' := h.setCurrent (Function.update s.current c none)
  simp only [leaveCpu]
  simp only [LeaveSafe] at hsafe
  by_cases hrun : (s.threads t).state = .running
  · simp only [saveThread, if_pos hrun]
    cases retire with
    | false =>
      rw [if_pos ⟨hrun, rfl⟩] at hsafe
      refine h'.setThread ⟨ht.periods, ht.home, fun _ hq _ => ?_, fun hne => absurd rfl hne,
        ht.blocked, rfl⟩ rfl fun hon => (hsafe hon).symm
      injection hq
    | true =>
      rw [if_neg fun hr => Bool.noConfusion hr.2] at hsafe
      refine h'.setThread ⟨ht.periods, ht.home, fun _ hq hpos => ?_, ht.known, ht.blocked, rfl⟩ rfl
        fun _ => rfl
      cases hq
      exact hsafe hpos
  · rw [if_neg fun hr => hrun hr.1] at hsafe
    have hwait := (ht.states.resolve_left hrun).1
    simp only [saveThread, if_neg hrun]
    refine h'.setThread ⟨ht.periods, ?_, nofun, trivial, ht.blocked, hwait, rfl⟩ rfl fun _ => rfl
    by_cases hdepth : (s.threads t).wroost.readNestingDepth = 0
    · exact ht.home_of_zero hdepth rfl
    · have hpos := Nat.pos_of_ne_zero hdepth
      rw [readerHome, if_neg hdepth]
      exact ((h.thread t).going_mapNode hplace hpos).trans (congrArg some (hsafe hpos).symm)

/-- The current thread goes to another CPU. -/
theorem BoostOk.leaveCpu_some {d : C}
    (hplace : (s.threads t).place = .on c (.going (some d))) (hne : c ≠ d)
    (hsafe : LeaveSafe cfg s c t (some d) retire) :
    BoostOk cfg (leaveCpu cfg s c t (some d) retire) := by
  have ht := (h.thread t).placed hplace
  obtain ⟨htree, hblocked, hfits⟩ := hsafe
  have h' := h.setCurrent (Function.update s.current c none)
  have hhome := (h.thread t).going_mapNode hplace
  simp only [leaveCpu]
  by_cases hrun : (s.threads t).state = .running
  · simp only [saveThread, if_pos hrun]
    exact h'.moved rfl hne rfl rfl (Or.inl ⟨rfl, rfl⟩) htree hhome hblocked hfits
  · have hwait := (ht.states.resolve_left hrun).1
    simp only [saveThread, if_neg hrun]
    exact h'.moved rfl hne rfl rfl (Or.inr ⟨rfl, hwait, rfl⟩) htree hhome hblocked hfits

end

/-! #### Taking a thread -/

/-- A thread that is registered with a CPU, if it is a reader, is loaded there. -/
theorem OthersOk.loadThread (h : OthersOk cfg s t)
    (hperiods : (s.threads t).pressurePeriods = 0 ↔ (s.threads t).onClimbTree = false)
    (hhome : (s.threads t).mapNode =
      if (s.threads t).wroost.readNestingDepth = 0 then none else some c)
    (hblocked : (s.threads t).mapNode ≠ none → (s.threads t).blockedTs = true →
      (s.threads t).inBlockedTsList = true)
    (hsafe : (s.threads t).onClimbTree = true → (s.threads t).scheduler = c) :
    BoostOk cfg (loadThread s c t) :=
  (h.setThread (x := { s.threads t with
      state := .running, scheduler := c, place := .on c .switchedIn })
    ⟨hperiods, hhome, nofun, fun hne => absurd rfl hne, hblocked, .inl rfl⟩
    rfl fun hon => (hsafe hon).symm).setCurrent _

theorem BoostOk.pick (h : BoostOk cfg s) (hplace : (s.threads t).place = .queued c)
    (hsafe : (s.threads t).onClimbTree = true → (s.threads t).scheduler = c) :
    BoostOk cfg (loadThread s c t) :=
  (h.others t).loadThread (h.thread t).periods ((h.thread t).placed hplace).home
    (h.thread t).blocked hsafe

omit [DecidableEq T] in
/-- A thread that can be taken from a queue is with the CPU that has the queue, and it is not a
reader that is blocked on a turnstile. -/
theorem BoostOk.canTake (h : BoostOk cfg s) (hplace : (s.threads t).place = .queued v)
    (htake : schedulerCanTakeThread cfg s c t = true) :
    (s.threads t).scheduler = v ∧
      (0 < (s.threads t).wroost.readNestingDepth →
        (s.threads t).mapNode = some v ∧ (s.threads t).blockedTs = false) := by
  have ht := (h.thread t).placed hplace
  simp only [schedulerCanTakeThread, Bool.and_eq_true, Bool.not_eq_true', Bool.or_eq_false_iff,
    isNone_iff_eq_none] at htake
  obtain ⟨⟨⟨-, hlist⟩, -⟩, hto⟩ := htake
  constructor
  · by_contra hne
    exact some_ne_none _ ((ht.known hne).symm.trans hto)
  intro hpos
  have hnode : (s.threads t).mapNode = some v := ht.home.trans (if_neg (Nat.ne_of_gt hpos))
  refine ⟨hnode, ?_⟩
  by_contra hb
  have hin := ht.blocked (by rw [hnode]; exact some_ne_none v) (by simpa using hb)
  exact Bool.false_ne_true (hlist.symm.trans hin)

theorem BoostOk.schedulerStealWork (h : BoostOk cfg s) (hplace : (s.threads t).place = .queued v)
    (hne : v ≠ c) (htake : schedulerCanTakeThread cfg s c t = true)
    (hfits : Fits cfg s c (s.threads t).wroost) : BoostOk cfg (schedulerStealWork cfg s c v t) := by
  have ht := h.thread t
  obtain ⟨hsched, hreader⟩ := h.canTake hplace htake
  obtain ⟨hothers, hrecord⟩ := h.hook (x := { s.threads t with scheduler := c }) rfl hne rfl rfl
    (fun _ => hsched) (fun hpos => (hreader hpos).1) (fun hpos => (hreader hpos).2) hfits
  obtain ⟨s₁, hs₁⟩ : ∃ s₁, s₁ = threadPostMigrate cfg
    (Boost.setThread s t { s.threads t with scheduler := c }) t v c := ⟨_, rfl⟩
  rw [← hs₁] at hothers hrecord
  have heq : Boost.schedulerStealWork cfg s c v t = Boost.loadThread s₁ c t := by
    simp [Boost.schedulerStealWork, ← hs₁, hothers.panicked]
  rw [heq]
  by_cases hdepth : (s.threads t).wroost.readNestingDepth = 0
  · rw [migrated, if_pos hdepth] at hrecord
    refine hothers.loadThread ?_ ?_ ?_ ?_ <;> rw [hrecord]
    · exact ht.periods
    · exact (ht.mapNode_of_depth_zero hdepth).trans (if_pos hdepth).symm
    · exact ht.blocked
    · exact fun _ => rfl
  · rw [migrated, if_neg hdepth] at hrecord
    refine hothers.loadThread ?_ ?_ ?_ ?_ <;> rw [hrecord]
    · exact ht.periods
    · rw [if_neg hdepth]
    · intro _ hb
      exact absurd ((hreader (Nat.pos_of_ne_zero hdepth)).2.symm.trans hb) Bool.false_ne_true
    · exact fun _ => rfl

theorem BoostOk.pushThread (h : BoostOk cfg s) (hplace : (s.threads t).place = .queued v)
    (hne : v ≠ c) (htake : schedulerCanTakeThread cfg s c t = true)
    (hfits : Fits cfg s c (s.threads t).wroost) : BoostOk cfg (pushThread cfg s c v t) := by
  obtain ⟨hsched, hreader⟩ := h.canTake hplace htake
  exact h.moved rfl hne rfl rfl (Or.inl ⟨rfl, ((h.thread t).placed hplace).states⟩)
    (fun _ => hsched) (fun hpos => (hreader hpos).1) (fun hpos => (hreader hpos).2) hfits

/-- A thread that is on no CPU is put into the queues of the best one. -/
theorem BoostOk.resumeQueued {best : C} (h : BoostOk cfg s)
    (hplace : (∃ v, (s.threads t).place = .queued v) ∨ (s.threads t).place = .off)
    (hblocked : (s.threads t).blockedTs = false)
    (hfits : (s.threads t).scheduler ≠ best → Fits cfg s best (s.threads t).wroost) :
    BoostOk cfg (resumeQueued cfg s t best) := by
  have ht := h.thread t
  have hnode := ht.offCpu_mapNode hplace
  simp only [Boost.resumeQueued]
  split_ifs with hbest
  · refine h.setThread ⟨ht.periods, ?_, fun _ hq _ => ?_, fun hne => absurd rfl hne, ht.blocked,
      rfl⟩ rfl fun _ => hbest.symm
    · by_cases hdepth : (s.threads t).wroost.readNestingDepth = 0
      · exact ht.home_of_zero hdepth rfl
      · rw [readerHome, if_neg hdepth]
        exact (hnode (Nat.pos_of_ne_zero hdepth)).trans (congrArg some hbest)
    · injection hq
  · exact h.moved rfl hbest rfl rfl (.inl ⟨rfl, rfl⟩) (fun _ => rfl) hnode (fun _ => hblocked)
      (hfits hbest)

/-! #### Migration without the hook -/

/-- `thread_migrate` writes the scheduler field only, which nothing has to agree with for a thread
that is in no tree and is no reader off the CPUs. -/
theorem BoostOk.threadMigrate {dst : C} (h : BoostOk cfg s)
    (hsafe : BoostSafe cfg s (.migrate t dst)) : BoostOk cfg (threadMigrate cfg s t dst) := by
  have ht := h.thread t
  simp only [Boost.threadMigrate]
  by_cases hskip : (s.threads t).scheduler = dst ∨ schedulerCanTakeThread cfg s dst t = false
  · rw [if_pos hskip]
    exact h
  rw [if_neg hskip]
  rw [not_or, Bool.not_eq_false] at hskip
  obtain ⟨hoff, hon⟩ := hsafe hskip.1 hskip.2
  have htree : (s.threads t).onClimbTree = true → dst = (s.threads t).scheduler := by
    rw [hoff]
    exact fun h => absurd h Bool.false_ne_true
  cases hplace : (s.threads t).place with
  | on c p =>
    have ht := ht.placed hplace
    have hfirst : (s.threads t).state = .running ∨ (s.threads t).yielded = false :=
      ht.states.imp_right And.right
    rw [if_pos hfirst]
    refine h.setThread ⟨ht.periods, ?_, nofun, ?_, ht.blocked, ht.states⟩ rfl htree
    · have hhome := ht.home
      cases p <;> exact hhome
    have hknown := ht.known
    cases p with
    | going d =>
      cases d with
      | none => exact fun _ => rfl
      | some d => exact hknown
    | _ => exact fun _ => rfl
  | queued v =>
    have ht := ht.placed hplace
    have hdepth : (s.threads t).wroost.readNestingDepth = 0 := by
      by_contra hd
      have hnode : (s.threads t).mapNode = some v := ht.home.trans (if_neg hd)
      obtain ⟨c, p, hp⟩ := hon (by rw [hnode]; exact some_ne_none v)
      exact absurd (hplace.symm.trans hp) nofun
    rw [if_pos (show (s.threads t).state = .ready from ht.states)]
    split_ifs
    · exact h.setThread ⟨ht.periods, ht.home_of_zero hdepth rfl, fun _ _ hpos => absurd hdepth
        (Nat.ne_of_gt hpos), fun _ => rfl, ht.blocked, ht.states⟩ rfl htree
    · exact h.setThread ⟨ht.periods, ht.home_of_zero hdepth rfl, fun _ _ hpos => absurd hdepth
        (Nat.ne_of_gt hpos), fun hne => absurd rfl hne, ht.blocked, ht.states⟩ rfl htree
  | off =>
    have ht := ht.placed hplace
    obtain ⟨hwait, hyield⟩ : (s.threads t).state = .waiting ∧ (s.threads t).yielded = true :=
      ht.states
    have hdepth : (s.threads t).wroost.readNestingDepth = 0 := by
      by_contra hd
      have hnode : (s.threads t).mapNode = some _ := ht.home.trans (if_neg hd)
      obtain ⟨c, p, hp⟩ := hon (by rw [hnode]; exact some_ne_none _)
      exact absurd (hplace.symm.trans hp) nofun
    rw [if_neg (by rw [hwait, hyield]; decide), if_neg (by rw [hwait]; decide)]
    exact h.setThread ⟨ht.periods, ht.home_of_zero hdepth rfl,
      nofun, trivial, ht.blocked, hwait, hyield⟩ rfl htree

end Operations

/-! ### The conditions are needed -/

section Needed

variable [DecidableEq C] [DecidableEq T] {cfg : BoostConfig C T} {s : BoostSys C T} {t : T}
  {x : BoostThread C} {c : C}

omit [DecidableEq C] [DecidableEq T] in
/-- If no check has failed after code that stops at a failed one, the code has been reached. -/
theorem reached {s' : BoostSys C T} (hok : (if s.panicked then s else s').panicked = false) :
    s.panicked = false ∧ (if s.panicked then s else s') = s' := by
  cases hp : s.panicked with
  | false => exact ⟨rfl, if_neg Bool.false_ne_true⟩
  | true => simp [hp] at hok

variable (h : BoostOk cfg s)
include h

/-- What a hook that passes its checks says about the state before it. -/
theorem BoostOk.hook_needed {old new : C} (hne : old ≠ new)
    (hok : (threadPostMigrate cfg (Boost.setThread s t x) t old new).panicked = false)
    (hreaders : ReadersOk cfg (threadPostMigrate cfg (Boost.setThread s t x) t old new))
    (hnode : x.mapNode = (s.threads t).mapNode) (hdata : x.wroost = (s.threads t).wroost)
    (hhome : 0 < x.wroost.readNestingDepth → x.mapNode = some old) :
    (x.onClimbTree = true → (s.threads t).scheduler = old) ∧
      (0 < x.wroost.readNestingDepth → x.blockedTs = false) ∧ Fits cfg s new x.wroost := by
  obtain ⟨s₁, hs₁⟩ : ∃ s₁, s₁ = climbPostMigrateHook (Boost.setThread s t x) t old new := ⟨_, rfl⟩
  simp only [threadPostMigrate, ← hs₁] at hok hreaders
  obtain ⟨hok₁, heq⟩ := reached hok
  rw [heq] at hok hreaders
  -- The first hook changes the trees only.
  have hsame : s₁.threads = (Boost.setThread s t x).threads ∧ s₁.readers = s.readers ∧
      s₁.rqBucketCounts = s.rqBucketCounts := by
    rw [hs₁]
    unfold climbPostMigrateHook
    dsimp only
    split_ifs <;> exact ⟨rfl, rfl, rfl⟩
  obtain ⟨hthreads, hlists, hcounts⟩ := hsame
  have hself : s₁.threads t = x := by rw [hthreads, setThread_threads_self]
  have hr₁ : ReadersOk cfg s₁ :=
    (h.readers.setThread (t := t) hnode fun _ => hdata).congr hthreads hlists hcounts
  have hfree : 0 < x.wroost.readNestingDepth → x.blockedTs = false := by
    intro hpos
    by_contra hb
    rw [wroostPostMigrateHook] at hok
    simp [hself, Nat.ne_of_gt hpos, hb] at hok
  refine ⟨fun hon => ?_, hfree, fun hpos id hid => ?_⟩
  · by_contra hold
    have hnot : s.climbThreads old t = false := by
      rw [← Bool.not_eq_true, h.climb t old]
      exact fun hc => hold hc.2.symm
    rw [hs₁, climbPostMigrateHook] at hok₁
    simp [hnot, hon] at hok₁
  · have hnode₁ : (s₁.threads t).mapNode = some old := by
      rw [hself]
      exact hhome hpos
    obtain ⟨hr₂, hthreads₂, -, hpan₂, hcounts₂⟩ := hr₁.removeReader hnode₁
    have hadd : wroostPostMigrateHook cfg s₁ t old new =
        addReader cfg (removeReader cfg s₁ old t) new t := by
      simp [wroostPostMigrateHook, hself, Nat.ne_of_gt hpos, hfree hpos, hpan₂, hok₁]
    rw [hadd] at hreaders
    have hdata₂ : ((removeReader cfg s₁ old t).threads t).wroost = x.wroost := by
      rw [hthreads₂, Function.update_self, hself]
    have hroom := hr₂.room hreaders (by rw [hdata₂]; exact hid : id ∈ _)
    rw [hdata₂, hcounts₂ new hne.symm, hcounts] at hroom
    exact hroom

/-- A migration that keeps the invariant is of a thread in no tree, and of no reader off the
CPUs. -/
theorem BoostOk.threadMigrate_needed {dst : C}
    (h' : BoostOk cfg (Boost.threadMigrate cfg s t dst)) : BoostSafe cfg s (.migrate t dst) := by
  intro hne htake
  have ht := h.thread t
  have hskip : ¬((s.threads t).scheduler = dst ∨ schedulerCanTakeThread cfg s dst t = false) := by
    rw [not_or, Bool.not_eq_false]
    exact ⟨hne, htake⟩
  -- All branches leave the trees and the registration, and write the field.
  obtain ⟨y, hy, hsched, hnode, hdata, hplace⟩ : ∃ y,
      Boost.threadMigrate cfg s t dst = Boost.setThread s t y ∧ y.scheduler = dst ∧
        y.mapNode = (s.threads t).mapNode ∧ y.wroost = (s.threads t).wroost ∧
        (y.place = (s.threads t).place ∨ y.place = .queued dst) := by
    simp only [Boost.threadMigrate, if_neg hskip]
    split_ifs
    · exact ⟨_, rfl, rfl, rfl, rfl, Or.inl rfl⟩
    · exact ⟨_, rfl, rfl, rfl, rfl, .inr rfl⟩
    · exact ⟨_, rfl, rfl, rfl, rfl, .inl rfl⟩
  rw [hy] at h'
  have hy' := h'.thread t
  rw [setThread_threads_self] at hy'
  constructor
  · by_contra hon
    have heq := h.scheduler_eq (t := t) h' rfl (by simpa using hon)
    rw [setThread_threads_self, hsched] at heq
    exact hne heq
  intro hreg
  have hpos : 0 < (s.threads t).wroost.readNestingDepth := by
    by_contra hzero
    exact hreg (ht.mapNode_of_depth_zero (Nat.eq_zero_of_not_pos hzero))
  by_contra hon
  have hoff : (∃ v, (s.threads t).place = .queued v) ∨ (s.threads t).place = .off := by
    cases hp : (s.threads t).place with
    | on c p => exact absurd ⟨c, p, hp⟩ hon
    | queued v => exact .inl ⟨v, rfl⟩
    | off => exact .inr rfl
  have hold := ht.offCpu_mapNode hoff hpos
  have hnew := hy'.offCpu_mapNode
    (hplace.elim (fun heq => by rwa [heq]) fun heq => .inl ⟨dst, heq⟩) (by rwa [hdata])
  rw [hnode, hold, hsched] at hnew
  exact hne (some.inj hnew)

theorem BoostOk.leaveCpu_needed {dst : Option C} {retire : Bool}
    (hplace : (s.threads t).place = .on c (.going dst))
    (h' : BoostOk cfg (leaveCpu cfg s c t dst retire)) : LeaveSafe cfg s c t dst retire := by
  have ht := h.thread t
  cases dst with
  | some d =>
    have hcur := h.setCurrent (Function.update s.current c none)
    simp only [leaveCpu, saveThread] at h'
    split_ifs at h'
    all_goals
      have hneeded := hcur.hook_needed (ht.placed hplace).known h'.panicked h'.readers rfl rfl
        (ht.going_mapNode hplace)
      exact hneeded
  | none =>
    have hy := h'.thread t
    simp only [leaveCpu, setThread_threads_self] at hy
    simp only [LeaveSafe]
    split_ifs with hrun
    · intro hon
      have heq := h.scheduler_eq (t := t) h' rfl hon
      simpa [leaveCpu, saveThread, hrun.1, hrun.2] using heq
    intro hpos
    by_cases hstate : (s.threads t).state = .running
    · have hretire : retire = true := by
        by_contra hr
        exact hrun ⟨hstate, by simpa using hr⟩
      simp only [saveThread, if_pos hstate, hretire] at hy
      exact hy.queuedReader c rfl hpos
    · simp only [saveThread, if_neg hstate] at hy
      have hnew := hy.offCpu_mapNode (.inr rfl) hpos
      exact (some.inj ((ht.going_mapNode hplace hpos).symm.trans hnew)).symm

theorem BoostOk.wroostSwitchOut_needed
    (h' : BoostOk cfg (Boost.wroostSwitchOut cfg s c t)) : Fits cfg s c (s.threads t).wroost := by
  intro hpos id hid
  simp only [Boost.wroostSwitchOut, if_neg (Nat.ne_of_gt hpos)] at h'
  have hr := h.readers.setThread (t := t)
    (x := { s.threads t with place := .on c .switchedOut }) rfl fun _ => rfl
  have hroom := hr.room h'.readers (by rw [setThread_threads_self]; exact hid : id ∈ _)
  rwa [setThread_threads_self] at hroom

theorem BoostOk.schedulerStealWork_needed {v : C}
    (hplace : (s.threads t).place = .queued v) (hne : v ≠ c)
    (htake : schedulerCanTakeThread cfg s c t = true)
    (h' : BoostOk cfg (Boost.schedulerStealWork cfg s c v t)) :
    Fits cfg s c (s.threads t).wroost := by
  obtain ⟨-, hreader⟩ := h.canTake hplace htake
  obtain ⟨s₁, hs₁⟩ : ∃ s₁, s₁ = threadPostMigrate cfg
    (Boost.setThread s t { s.threads t with scheduler := c }) t v c := ⟨_, rfl⟩
  simp only [Boost.schedulerStealWork, ← hs₁] at h'
  obtain ⟨hok, heq⟩ := reached h'.panicked
  rw [heq] at h'
  have hr : ReadersOk cfg s₁ := by
    have hr' : ReadersOk cfg (Boost.setThread s₁ t
        { s₁.threads t with state := .running, scheduler := c, place := .on c .switchedIn }) :=
      ⟨h'.readers.mem, h'.readers.nodup, h'.readers.counts⟩
    exact hr'.of_setThread rfl rfl
  rw [hs₁] at hok hr
  exact (h.hook_needed hne hok hr rfl rfl fun hpos => (hreader hpos).1).2.2

theorem BoostOk.resumeQueued_needed {best : C}
    (hplace : (∃ v, (s.threads t).place = .queued v) ∨ (s.threads t).place = .off)
    (hbest : (s.threads t).scheduler ≠ best) (h' : BoostOk cfg (Boost.resumeQueued cfg s t best)) :
    Fits cfg s best (s.threads t).wroost := by
  simp only [Boost.resumeQueued, if_neg hbest] at h'
  exact (h.hook_needed hbest h'.panicked h'.readers rfl rfl
    ((h.thread t).offCpu_mapNode hplace)).2.2

end Needed

/-! ### Runs -/

section Runs

variable [DecidableEq C] [DecidableEq T] (cfg : BoostConfig C T) {a : BoostAct C T}

/-- A safe step keeps the invariant. -/
theorem boostStep_ok {s s' : BoostSys C T} (h : BoostOk cfg s) (hsafe : BoostSafe cfg s a)
    (hstep : boostStep cfg s a = some s') : BoostOk cfg s' := by
  simp only [boostStep, h.panicked, Bool.false_eq_true, if_false] at hstep
  cases a with
  | apply t =>
    cases hstep
    exact h.applyHandle t
  | remove t =>
    simp only at hstep
    split_ifs at hstep
    cases hstep
    exact h.removeHandle t
  | climbRemove t =>
    cases hstep
    exact h.climbThreadRemove t
  | period c t noBoost full =>
    simp only at hstep
    split_ifs at hstep with hin
    cases hstep
    exact h.summarizeAndAdvance noBoost full hin
  | read t wtd | blockOn t => exact h.setRunning hstep id
  | dequeue t =>
    cases hstep
    have ht := h.thread t
    exact h.setThread { ht with blocked := nofun } rfl fun _ => rfl
  | pin t p =>
    cases hstep
    have ht := h.thread t
    exact h.setThread { ht with } rfl fun _ => rfl
  | prepare t => exact h.setRunning hstep (Or.imp_right fun hw => ⟨hw.1, rfl⟩)
  | wait t => exact h.setRunning hstep fun _ => .inr ⟨rfl, rfl⟩
  | switchOut c =>
    simp only at hstep
    split at hstep
    · rename_i t hcurrent
      split_ifs at hstep with hplace
      cases hstep
      exact h.wroostSwitchOut hplace (hsafe t hcurrent)
    · cases hstep
  | target c =>
    simp only at hstep
    split at hstep
    · split_ifs at hstep with hplace
      cases hstep
      exact h.takeMigrationTarget hplace
    · cases hstep
  | leave c retire =>
    simp only at hstep
    split at hstep
    · rename_i t hcurrent
      split at hstep
      · rename_i c' dst hplace
        split_ifs at hstep with hc
        subst hc
        cases hstep
        have hleave := hsafe t dst hcurrent hplace
        cases dst with
        | none => exact h.leaveCpu_none hplace hleave
        | some d => exact h.leaveCpu_some hplace ((h.thread t).placed hplace).known hleave
      · cases hstep
    · cases hstep
  | pick c t =>
    simp only at hstep
    split_ifs at hstep with hguard
    cases hstep
    exact h.pick hguard.2 hsafe
  | steal c t =>
    simp only at hstep
    split at hstep
    · rename_i v hplace
      split_ifs at hstep with hguard
      cases hstep
      exact h.schedulerStealWork hplace hguard.2.1 hguard.2.2 hsafe
    · cases hstep
  | switchIn c =>
    simp only at hstep
    split at hstep
    · split_ifs at hstep with hplace
      cases hstep
      exact h.wroostSwitchIn hplace
    · cases hstep
  | push t dest =>
    simp only at hstep
    split at hstep
    · rename_i v hplace
      split_ifs at hstep with hguard
      cases hstep
      exact h.pushThread hplace hguard.1 hguard.2 hsafe
    · cases hstep
  | resume t best =>
    simp only at hstep
    by_cases hblocked : (s.threads t).blockedTs = true
    · rw [if_pos hblocked] at hstep
      cases hstep
    rw [if_neg hblocked] at hstep
    have hfree : (s.threads t).blockedTs = false := by simpa using hblocked
    split at hstep
    · rename_i c p hplace
      split_ifs at hstep
      cases hstep
      have ht := (h.thread t).placed hplace
      exact h.setThread (.of_placed hplace { ht with states := .inl rfl }) rfl fun _ => rfl
    · rename_i v hplace
      split_ifs at hstep
      cases hstep
      refine h.resumeQueued (.inl ⟨v, hplace⟩) hfree (hsafe fun c p hp => ?_)
      exact absurd (hplace.symm.trans hp) nofun
    · rename_i hplace
      cases hstep
      refine h.resumeQueued (.inr hplace) hfree (hsafe fun c p hp => ?_)
      exact absurd (hplace.symm.trans hp) nofun
  | migrate t dst =>
    cases hstep
    exact h.threadMigrate hsafe

/-- A step that keeps the invariant is safe. -/
theorem boostSafe_of_ok {s s' : BoostSys C T} (h : BoostOk cfg s)
    (hstep : boostStep cfg s a = some s') (h' : BoostOk cfg s') : BoostSafe cfg s a := by
  simp only [boostStep, h.panicked, Bool.false_eq_true, if_false] at hstep
  cases a with
  | switchOut c =>
    intro t hcurrent
    simp only [hcurrent] at hstep
    split_ifs at hstep
    cases hstep
    exact h.wroostSwitchOut_needed h'
  | leave c retire =>
    intro t dst hcurrent hplace
    simp only [hcurrent, hplace, if_true] at hstep
    cases hstep
    exact h.leaveCpu_needed hplace h'
  | pick c t =>
    intro hon
    simp only at hstep
    split_ifs at hstep
    cases hstep
    have heq := h.scheduler_eq (t := t) h' rfl hon
    simpa [loadThread] using heq
  | steal c t =>
    simp only at hstep
    split at hstep
    · rename_i v hplace
      split_ifs at hstep with hguard
      cases hstep
      exact h.schedulerStealWork_needed hplace hguard.2.1 hguard.2.2 h'
    · cases hstep
  | push t dest =>
    simp only at hstep
    split at hstep
    · rename_i v hplace
      split_ifs at hstep with hguard
      cases hstep
      exact (h.hook_needed hguard.1 h'.panicked h'.readers rfl rfl
        fun hpos => ((h.canTake hplace hguard.2).2 hpos).1).2.2
    · cases hstep
  | resume t best =>
    intro hoff hbest
    simp only at hstep
    by_cases hblocked : (s.threads t).blockedTs = true
    · rw [if_pos hblocked] at hstep
      cases hstep
    rw [if_neg hblocked] at hstep
    split at hstep
    · rename_i c p hplace
      exact absurd hplace (hoff c p)
    · rename_i v hplace
      split_ifs at hstep
      cases hstep
      exact h.resumeQueued_needed (.inl ⟨v, hplace⟩) hbest h'
    · rename_i hplace
      cases hstep
      exact h.resumeQueued_needed (.inr hplace) hbest h'
  | migrate t dst =>
    cases hstep
    exact h.threadMigrate_needed h'
  | _ => trivial

omit [DecidableEq C] [DecidableEq T] in
theorem boostInit_ok (scheduler : T → C) : BoostOk cfg (boostInit scheduler) := by
  refine ⟨fun t => ⟨by simp [boostInit], rfl, ?_, ?_, ?_, rfl⟩, fun t c => by simp [boostInit],
    ⟨fun c t => by simp [boostInit], fun _ => List.nodup_nil, fun _ _ => rfl⟩, rfl⟩
  · intro c hq _
    injection hq
  · exact fun hne => absurd rfl hne
  · exact fun hn => absurd rfl hn

/-- From a state with the invariant, exactly the safe steps keep it. -/
theorem boostStep_ok_iff {s s' : BoostSys C T} (h : BoostOk cfg s)
    (hstep : boostStep cfg s a = some s') : BoostOk cfg s' ↔ BoostSafe cfg s a :=
  ⟨boostSafe_of_ok cfg h hstep, fun hsafe => boostStep_ok cfg h hsafe hstep⟩

/-- A safe step. -/
def BoostNext (s s' : BoostSys C T) : Prop :=
  ∃ a, BoostSafe cfg s a ∧ boostStep cfg s a = some s'

/-- The readers that are switched out: the threads that hold read locks and do not run. -/
def SwitchedOutReader (x : BoostThread C) : Prop :=
  0 < x.wroost.readNestingDepth ∧ ∀ c, x.place ≠ .on c .running

theorem boostRun_inv (scheduler : T → C) {s : BoostSys C T}
    (hrun : Relation.ReflTransGen (BoostNext cfg) (boostInit scheduler) s) : BoostOk cfg s := by
  induction hrun with
  | refl => exact boostInit_ok cfg scheduler
  | tail _ hnext ih =>
    obtain ⟨a, hsafe, hstep⟩ := hnext
    exact boostStep_ok cfg ih hsafe hstep

/-- In a run of safe steps, a thread that is in a CLIMB tree is in that of the CPU that its
scheduler field names and in no other, each CPU counts for each lock the switched-out readers that
are registered with it, each of which is registered with one CPU, and no check has failed. -/
theorem boostRun_ok (scheduler : T → C) {s : BoostSys C T}
    (hrun : Relation.ReflTransGen (BoostNext cfg) (boostInit scheduler) s) :
    (∀ t c, s.climbThreads c t = true ↔
        (s.threads t).onClimbTree = true ∧ c = (s.threads t).scheduler) ∧
      (∀ c id, s.rqBucketCounts c id = ((s.readers c).map fun t =>
        (readerIds cfg.coarseFactor (s.threads t).wroost).count id).sum) ∧
      (∀ c, (s.readers c).Nodup) ∧
      (∀ t, SwitchedOutReader (s.threads t) ↔ ∃ c, t ∈ s.readers c) ∧
      (∀ t c c', t ∈ s.readers c → t ∈ s.readers c' → c = c') ∧
      s.panicked = false := by
  have h := boostRun_inv cfg scheduler hrun
  refine ⟨h.climb, h.readers.counts, h.readers.nodup, fun t => ?_, fun t c c' hc hc' => ?_,
    h.panicked⟩
  · have hhome := (h.thread t).home
    simp only [h.readers.mem]
    by_cases hdepth : (s.threads t).wroost.readNestingDepth = 0
    · rw [(h.thread t).mapNode_of_depth_zero hdepth]
      simp [SwitchedOutReader, hdepth]
    rw [readerHome, if_neg hdepth] at hhome
    rw [hhome]
    cases hplace : (s.threads t).place with
    | on c p => cases p <;> simp [SwitchedOutReader, hplace, Nat.pos_of_ne_zero hdepth]
    | queued c | off => simp [SwitchedOutReader, hplace, Nat.pos_of_ne_zero hdepth]
  · rw [h.readers.mem] at hc hc'
    exact some.inj (hc.symm.trans hc')

/-- The steps of a list, one after the other. -/
def boostTrace (s : BoostSys C T) (acts : List (BoostAct C T)) : Option (BoostSys C T) :=
  acts.foldlM (boostStep cfg) s

/-- Each step of the list is safe where it is taken. -/
def TraceSafe : BoostSys C T → List (BoostAct C T) → Prop
  | _, [] => True
  | s, a :: acts =>
    BoostSafe cfg s a ∧ ∀ s', boostStep cfg s a = some s' → TraceSafe s' acts

private theorem boostTrace_run {s s' : BoostSys C T} (acts : List (BoostAct C T))
    (hsafe : TraceSafe cfg s acts) (h : boostTrace cfg s acts = some s') :
    Relation.ReflTransGen (BoostNext cfg) s s' := by
  induction acts generalizing s with
  | nil =>
    cases h
    exact .refl
  | cons a acts ih =>
    simp only [boostTrace, List.foldlM_cons, bind_eq_bind, bind_eq_some_iff] at h
    obtain ⟨s₁, hstep, hrest⟩ := h
    exact .head ⟨a, hsafe.1, hstep⟩ (ih (hsafe.2 s₁ hstep) hrest)

end Runs

/-- Two CPUs on which every thread may run. -/
def twoCpus : BoostConfig (Fin 2) Unit := ⟨fun _ _ => true, 4⟩

private theorem fits_of_zero {s : BoostSys (Fin 2) Unit} {c : Fin 2} {wtd : WroostThreadData}
    (hzero : ∀ id, s.rqBucketCounts c id = 0)
    (hlen : (readerIds twoCpus.coarseFactor wtd).length ≤ 255) : Fits twoCpus s c wtd := by
  intro _ id _
  rw [hzero id, zero_add]
  exact List.count_le_length.trans hlen

/-- A reader in a CLIMB tree is switched out and stolen by the other CPU. -/
def stolenReader : List (BoostAct (Fin 2) Unit) :=
  [.pick 0 (), .switchIn 0, .read () ⟨1, [some 5], []⟩, .apply (), .switchOut 0, .target 0,
    .leave 0 false, .steal 1 ()]

private theorem stolenReader_safe : TraceSafe twoCpus (boostInit fun _ => 0) stolenReader := by
  refine ⟨nofun, fun s₁ h₁ => ⟨trivial, fun s₂ h₂ => ⟨trivial, fun s₃ h₃ => ⟨trivial, fun s₄ h₄ =>
    ⟨?_, fun s₅ h₅ => ⟨trivial, fun s₆ h₆ => ⟨?_, fun s₇ h₇ => ⟨?_, fun _ _ => trivial⟩⟩⟩⟩⟩⟩⟩⟩
  · cases h₁; cases h₂; cases h₃; cases h₄
    rintro ⟨⟩ _
    exact fits_of_zero (fun _ => rfl) (by decide)
  · cases h₁; cases h₂; cases h₃; cases h₄; cases h₅; cases h₆
    intro t dst _ hplace
    cases hplace
    exact fun _ => rfl
  · cases h₁; cases h₂; cases h₃; cases h₄; cases h₅; cases h₆; cases h₇
    exact fits_of_zero (fun _ => rfl) (by decide)

/-- The stolen thread is in the tree and among the readers of the CPU that has stolen it. -/
theorem boostRun_ok_stolen : ∃ s, boostTrace twoCpus (boostInit fun _ => 0) stolenReader = some s ∧
    s.climbThreads 1 () = true ∧ s.climbThreads 0 () = false ∧ s.rqBucketCounts 1 5 = 1 ∧
    s.rqBucketCounts 0 5 = 0 ∧ s.panicked = false := by
  obtain ⟨s, hs⟩ : ∃ s, boostTrace twoCpus (boostInit fun _ => 0) stolenReader = some s :=
    ⟨_, rfl⟩
  have h := boostRun_ok twoCpus (fun _ => 0) (boostTrace_run twoCpus _ stolenReader_safe hs)
  refine ⟨s, hs, ?_, ?_, ?_, ?_, h.2.2.2.2.2⟩ <;> cases hs <;> rfl

/-- When the stolen thread is migrated, it stays in the tree of a CPU that its scheduler field does
not name. -/
theorem boostStep_ok_iff_stolen : ∃ s s',
    boostTrace twoCpus (boostInit fun _ => 0) stolenReader = some s ∧ s.rqBucketCounts 1 5 = 1 ∧
    BoostOk twoCpus s ∧ boostStep twoCpus s (.migrate () 0) = some s' ∧ ¬ BoostOk twoCpus s' := by
  obtain ⟨s, hs⟩ : ∃ s, boostTrace twoCpus (boostInit fun _ => 0) stolenReader = some s :=
    ⟨_, rfl⟩
  have h := boostRun_inv twoCpus (fun _ => 0) (boostTrace_run twoCpus _ stolenReader_safe hs)
  obtain ⟨hmove, hother, htake, hon⟩ : (boostStep twoCpus s (.migrate () 0)).isSome = true ∧
      (s.threads ()).scheduler ≠ 0 ∧ schedulerCanTakeThread twoCpus s 0 () = true ∧
      (s.threads ()).onClimbTree = true := by
    cases hs
    decide
  obtain ⟨s', hs'⟩ := isSome_iff_exists.mp hmove
  refine ⟨s, s', hs, by cases hs; rfl, h, hs', fun hok => ?_⟩
  have hsafe := (boostStep_ok_iff twoCpus h hs').mp hok
  rw [(hsafe hother htake).1] at hon
  cases hon

/-- A thread that holds a read lock is switched out on one CPU, and migrated while it is ready. The
other CPU takes it and finds no count for its lock. -/
theorem boostRun_underflow :
    (boostTrace twoCpus (boostInit fun _ => 0)
      [.pick 0 (), .switchIn 0, .read () ⟨1, [some 5], []⟩, .switchOut 0, .target 0,
        .leave 0 false, .migrate () 1, .pick 1 (), .switchIn 1]).map (·.panicked) = some true := by
  decide +kernel

end Charmos.Boost
