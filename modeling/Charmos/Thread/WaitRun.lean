import Charmos.Lib.Trace
import Charmos.Thread.WaitSpec

/-!
# Object waits end once

Every function that works on the wait of a thread gives it one end or none (`Touches`), and keeps
the invariant. So in every run each wait that was prepared has one end as soon as it is over, and no
call that has read the number of an earlier wait ends a later one (`waitRun_sound`).
-/

namespace Charmos.Thread

open Function List Option Relation WaitSys

variable {T H St S : Type}
variable {owner : St → T} {s s' w : WaitSys T H St S} {t : T} {st : St} {i n k : ℕ}
  {got : Option ℕ} {e : Option WaitEnd} {r : S}

/-- The wait `e.1` has got the end `e.2` in the step from `s` to `s'`, and no other wait has got
one; an alert that was pending is still, unless it is this end. -/
structure StepEnds (e : Option (T × WaitEnd)) (s s' : WaitSys T H St S) : Prop where
  same : ∀ u n, (∀ t x, e = some (t, x) → ¬ (u = t ∧ n = (s'.th t).waitEpoch)) →
    s'.ended u n = s.ended u n
  new : ∀ t x, e = some (t, x) → s.ended t (s'.th t).waitEpoch = [] ∧
    s'.ended t (s'.th t).waitEpoch = [x]
  pending : ∀ u, (s.th u).alertPending = true →
    (s'.th u).alertPending = true ∨ e = some (u, .done .alerted none)

/-- A step that neither ends a wait nor clears an alert. -/
theorem StepEnds.none (hended : s'.ended = s.ended)
    (hp : ∀ u, (s.th u).alertPending = true → (s'.th u).alertPending = true) : StepEnds none s s' :=
  ⟨fun _ _ _ => by rw [hended], nofun, fun u hu => .inl (hp u hu)⟩

private theorem StepEnds.changed {e : Option (T × WaitEnd)} (h : StepEnds e s s') {n : ℕ}
    (hne : s'.ended t n ≠ s.ended t n) : ∃ x, e = some (t, x) ∧ n = (s'.th t).waitEpoch := by
  by_contra hc
  refine hne (h.same t n ?_)
  rintro u x he ⟨rfl, hn⟩
  exact hc ⟨x, he, hn⟩

private theorem timer_false {p : WaiterPc} (h : WaitOk owner s) (hpc : (s.th t).pc = p)
    (hp : p ≠ .completing true ∧ p ≠ .deleting) : (s.th t).waitTimer = false := by
  by_contra hc
  rcases (h.threads t).timer (by simpa using hc) with hp' | hp'
  · exact hp.1 (hpc.symm.trans hp')
  · exact hp.2 (hpc.symm.trans hp')

theorem waitInit_ok (blocks : St → ℕ → WaitBlock T H) :
    WaitOk owner (waitInit blocks : WaitSys T H St S) where
  linked := nofun
  header := nofun
  nodup _ := nodup_nil
  once := nofun
  owns := nofun
  unlinked := nofun
  threads _ := by
    refine ⟨fun hc => absurd rfl hc, fun _ _ => rfl, ?_, fun _ => rfl, ?_, nofun, ?_, nofun, nofun⟩
    · intro n _ hn
      cases hn
    · intro _ h0
      cases h0
    · rintro (hc | ⟨a, hc⟩) <;> cases hc
  fresh _ _ _ _ := rfl
  signals _ := trivial

/-! ### Signallers -/

/-- The thread and the number of the wait that a call has read. -/
def Signaller.read : Signaller T H → Option (T × ℕ)
  | .oneGot _ t n _ => some (t, n)
  | .allGot _ t n _ _ => some (t, n)
  | .epochGot t n => some (t, n)
  | _ => none

theorem WaitOk.setSig [DecidableEq S] {x : Signaller T H} (h : WaitOk owner s) (hx : SigOk s x) :
    WaitOk owner (s.setSig r x) := by
  refine h.signal rfl rfl rfl rfl (fun p b hb => ⟨p, hb⟩) (fun _ _ hb => hb) h.nodup h.once ?_
  intro r'
  by_cases hr : r' = r
  · subst hr
    change SigOk s (update s.sig r' x r')
    rw [update_self]
    exact hx
  · change SigOk s (update s.sig r x r')
    rw [update_of_ne hr]
    exact h.signals r'

theorem snapshotNext_ok {k : H} [DecidableEq St] [DecidableEq S] (h : WaitOk owner s) :
    WaitOk owner (snapshotNext s r k) ∧ StepEnds none s (snapshotNext s r k) := by
  unfold snapshotNext
  split
  · exact ⟨h.setSig trivial, .none rfl fun _ hu => hu⟩
  refine ⟨WaitOk.setSig ?_ trivial, .none rfl fun _ hu => hu⟩
  refine h.signal rfl rfl rfl rfl ?_ ?_ ?_ ?_ h.signals
  · exact fun p b hb => ⟨p, mem_of_mem_erase hb⟩
  · exact fun _ b hb => mem_of_mem_erase hb
  · exact fun p => (h.nodup p).sublist erase_sublist
  · exact fun p p' b hp hp' =>
      h.once p p' b (mem_of_mem_erase hp) (mem_of_mem_erase hp')

/-- `satisfy_all` moves the waiters of the header to its snapshot. -/
theorem WaitOk.splice {k : H} [DecidableEq H] [DecidableEq S] (h : WaitOk owner s) : WaitOk owner
    ((s.setList (.snapshot r) (s.lists (.waiters k))).setList (.waiters k) []) := by
  have hmem : ∀ p b, b ∈ ((s.setList (.snapshot r) (s.lists (.waiters k))).setList
      (.waiters k) []).lists p → (p = .snapshot r ∧ b ∈ s.lists (.waiters k)) ∨
        (p ≠ .snapshot r ∧ p ≠ .waiters k ∧ b ∈ s.lists p) := by
    intro p b hb
    by_cases hp : p = .waiters k
    · subst hp
      simp [setList] at hb
    by_cases hr : p = .snapshot r
    · subst hr
      simp only [setList, update_of_ne hp, update_self] at hb
      exact .inl ⟨rfl, hb⟩
    · simp only [setList, update_of_ne hp, update_of_ne hr] at hb
      exact .inr ⟨hr, hp, hb⟩
  refine h.signal rfl rfl rfl rfl ?_ ?_ ?_ ?_ h.signals
  · intro p b hb
    rcases hmem p b hb with ⟨-, hb⟩ | ⟨-, -, hb⟩
    · exact ⟨_, hb⟩
    · exact ⟨_, hb⟩
  · intro k' b hb
    rcases hmem _ b hb with ⟨hc, -⟩ | ⟨-, -, hb⟩
    · cases hc
    · exact hb
  · intro p
    by_cases hp : p = .waiters k
    · subst hp
      simp [setList]
    by_cases hr : p = .snapshot r
    · subst hr
      simp only [setList, update_of_ne hp, update_self]
      exact h.nodup _
    · simp only [setList, update_of_ne hp, update_of_ne hr]
      exact h.nodup p
  · intro p p' b hp hp'
    rcases hmem p b hp with ⟨rfl, hb⟩ | ⟨hr, hk, hb⟩ <;>
      rcases hmem p' b hp' with ⟨rfl, hb'⟩ | ⟨hr', hk', hb'⟩
    · rfl
    · exact absurd (h.once _ _ b hb' hb) hk'
    · exact absurd (h.once _ _ b hb hb') hk
    · exact h.once p p' b hb hb'

/-! ### Threads -/

variable [DecidableEq T] {x : ThreadWait St}

/-- From `s` to `s'` the current wait of `t` gets the end `e`, if any, and nothing happens to the
other waits. -/
structure Touches (t : T) (e : Option WaitEnd) (s s' : WaitSys T H St S) : Prop where
  th : ∀ u, u ≠ t → s'.th u = s.th u
  epoch : (s'.th t).waitEpoch = (s.th t).waitEpoch
  sig : s'.sig = s.sig
  emptied : s'.emptied = s.emptied
  pending : (s.th t).alertPending = true → e ≠ some (.done .alerted none) →
    (s'.th t).alertPending = true
  before : e ≠ none → s.ended t (s.th t).waitEpoch = []
  ended : ∀ u n, s'.ended u n =
    if u = t ∧ n = (s.th t).waitEpoch then s.ended u n ++ e.toList else s.ended u n

/-- Nothing that the waits are about changes. -/
theorem Touches.quiet (hth : ∀ u, u ≠ t → s'.th u = s.th u)
    (hepoch : (s'.th t).waitEpoch = (s.th t).waitEpoch)
    (hp : (s'.th t).alertPending = (s.th t).alertPending) (hsig : s'.sig = s.sig)
    (hemp : s'.emptied = s.emptied) (hended : s'.ended = s.ended) : Touches t none s s' :=
  ⟨hth, hepoch, hsig, hemp, fun ha _ => hp.trans ha, fun hc => absurd rfl hc, by simp [hended]⟩

theorem Touches.refl : Touches t none s s := .quiet (fun _ _ => rfl) rfl rfl rfl rfl rfl

theorem Touches.then (h : Touches t none s w) (h' : Touches t e w s') : Touches t e s s' where
  th u hu := (h'.th u hu).trans (h.th u hu)
  epoch := h'.epoch.trans h.epoch
  sig := h'.sig.trans h.sig
  emptied := h'.emptied.trans h.emptied
  pending hp he := h'.pending (h.pending hp nofun) he
  before he := by
    have hb := h'.before he
    rw [h.epoch, h.ended] at hb
    simpa using hb
  ended u n := by
    rw [h'.ended, h.epoch, h.ended]
    simp

theorem Touches.after (h : Touches t e s w) (h' : Touches t none w s') : Touches t e s s' where
  th u hu := (h'.th u hu).trans (h.th u hu)
  epoch := h'.epoch.trans h.epoch
  sig := h'.sig.trans h.sig
  emptied := h'.emptied.trans h.emptied
  pending hp he := h'.pending (h.pending hp he) nofun
  before := h.before
  ended u n := by
    rw [h'.ended, h.epoch, h.ended]
    simp

private theorem logEnd_ended {x : WaitEnd} (u : T) (m : ℕ) : (s.logEnd t x).ended u m =
    if u = t ∧ m = (s.th t).waitEpoch then s.ended u m ++ [x] else s.ended u m := by
  by_cases hu : u = t
  · subst hu
    by_cases hm : m = (s.th u).waitEpoch
    · simp [logEnd, hm]
    · simp [logEnd, hm]
  · simp [logEnd, hu]

private theorem alertPending_setTh (hx : (s.th t).alertPending = true → x.alertPending = true)
    (u : T) (hu : (s.th u).alertPending = true) : ((s.setTh t x).th u).alertPending = true := by
  by_cases hut : u = t
  · subst hut
    rw [setTh_self]
    exact hx hu
  · rw [setTh_of_ne hut]
    exact hu

private theorem setTh_eq_self (hx : s.th t = x) : s.setTh t x = s := by
  unfold setTh
  rw [← hx, update_eq_self]

/-- The wait of `t` is touched between steps that do not touch waits. -/
theorem Touches.step {w' : WaitSys T H St S} (h : Touches t e w w') (hended : w.ended = s.ended)
    (hp : ∀ u, (s.th u).alertPending = true → (w.th u).alertPending = true)
    (hended' : s'.ended = w'.ended)
    (hth' : ∀ u, (s'.th u).alertPending = (w'.th u).alertPending ∧
      (s'.th u).waitEpoch = (w'.th u).waitEpoch) :
    StepEnds (e.map (t, ·)) s s' where
  same u n hne := by
    rw [hended', h.ended, hended]
    split
    case isFalse => rfl
    case isTrue hut =>
      cases he : e with
      | none => simp
      | some x =>
        refine absurd ⟨hut.1, ?_⟩ (hne t x (by rw [he]; rfl))
        rw [(hth' t).2, h.epoch]
        exact hut.2
  new u x hx := by
    obtain ⟨x', hx', hpair⟩ := map_eq_some_iff.mp hx
    obtain ⟨⟩ := hpair
    have hb := h.before (by rw [hx']; nofun)
    rw [(hth' t).2, h.epoch, hended', h.ended, if_pos ⟨rfl, rfl⟩, hb, hx', ← hended]
    exact ⟨hb, rfl⟩
  pending u hu := by
    rw [(hth' u).1]
    have hw := hp u hu
    by_cases hut : u = t
    · subst hut
      by_cases he : e = some (.done .alerted none)
      · rw [he]
        exact .inr rfl
      · exact .inl (h.pending hw he)
    · rw [h.th u hut]
      exact .inl hw

/-- A thread without linked blocks is changed. -/
private theorem WaitOk.setTh_change (h : WaitOk owner s) (hthread : ThreadOk x (s.ended t))
    (hepoch : (s.th t).waitEpoch ≤ x.waitEpoch)
    (hactive : ∀ st, x.activeWaitBlocks = some st → owner st = t ∧ x.waitDone = false)
    (hgone : ∀ p, ∀ b ∈ s.lists p, owner b.1 ≠ t) : WaitOk owner (s.setTh t x) := by
  refine h.change (fun u hu => setTh_of_ne hu) (fun _ _ => rfl) ?_ ?_ ?_ (fun _ => .refl _) hgone
    (fun _ _ => rfl) rfl rfl <;> rw [setTh_self]
  · exact hthread
  · exact hepoch
  · intro st hst
    obtain ⟨ho, hd⟩ := hactive st hst
    exact ⟨ho, fun hc => absurd (hc.symm.trans hd) nofun⟩

/-- The thread leaves a wait that is done. -/
theorem finish_ok {pc : WaiterPc} (h : WaitOk owner s) (hd : (s.th t).waitDone = true)
    (hne : (s.th t).activeWaitBlocks ≠ none)
    (hpc : pc = .running ∧ (s.th t).waitTimer = false ∨ pc = .deleting) :
    WaitOk owner (s.setTh t { s.th t with
      activeWaitBlocks := none, waitBlockCount := 0, waitType := .none, pc := pc }) := by
  have hth := h.threads t
  refine h.setTh_change ?_ (le_refl _) nofun ?_
  · refine hth.finish hne rfl rfl (hth.concluded (.inr hd) (hth.started hne)) (fun _ _ => rfl) ?_
    rcases hpc with hpc | hpc
    · exact .inl hpc
    · exact .inr ⟨hpc, hd⟩
  · intro p b hb ho
    have hpend := (h.linked p b hb).pending
    rw [ho, hd] at hpend
    cases hpend

/-- The two threads have the same wait. -/
private structure SameWait (x x' : ThreadWait St) : Prop where
  active : x'.activeWaitBlocks = x.activeWaitBlocks
  count : x'.waitBlockCount = x.waitBlockCount
  done : x'.waitDone = x.waitDone
  epoch : x'.waitEpoch = x.waitEpoch
  status : x'.waitStatus = x.waitStatus
  key : x'.waitKey = x.waitKey

/-- Where the thread and its timer are fits the wait. -/
private structure PlaceOk (x : ThreadWait St) : Prop where
  completing : x.pc = .arming ∨ (∃ a, x.pc = .completing a) → x.activeWaitBlocks ≠ none
  deleting : x.pc = .deleting → x.waitDone = true
  timer : x.waitTimer = true → x.pc = .completing true ∨ x.pc = .deleting

/-- The thread gets on, or an alert is noted, and its wait stays as it is. -/
private theorem WaitOk.setTh_touch (h : WaitOk owner s) (hx : SameWait (s.th t) x)
    (hplace : PlaceOk x) (hp : (s.th t).alertPending = true → x.alertPending = true) :
    WaitOk owner (s.setTh t x) ∧ ∃ e, StepEnds e s (s.setTh t x) := by
  have hth := h.threads t
  refine ⟨h.touch (fun u hu => setTh_of_ne hu) ?_ (.inl (by rw [setTh_self, hx.count])) ?_ rfl rfl
    rfl rfl rfl, none, .none rfl ?_⟩
  · rw [setTh_self]
    exact ⟨hx.active, hx.done, hx.epoch⟩
  · rw [setTh_self]
    refine ⟨?_, ?_, ?_, ?_, ?_, ?_, hplace.completing, hplace.deleting, hplace.timer⟩
    · rw [hx.active, hx.epoch]
      exact hth.started
    · rw [hx.epoch]
      exact hth.future
    · rw [hx.epoch]
      exact hth.past
    · unfold ThreadWait.over
      rw [hx.active, hx.done, hx.epoch]
      exact hth.current
    · unfold ThreadWait.over
      rw [hx.active, hx.done, hx.epoch]
      exact hth.concluded
    · rw [hx.active, hx.done, hx.epoch, hx.status, hx.key]
      exact hth.result
  · exact alertPending_setTh hp

/-! ### Ending a wait -/

variable [DecidableEq St]

section

variable (h : WaitOk owner s)
include h

/-- The blocks of a wait that is not over are unlinked and it is made done. -/
theorem WaitOk.conclude (hst : (s.th t).activeWaitBlocks = some st)
    (hpend : (s.th t).waitDone = false) (got : Option ℕ) (a : Bool) (status : WaitStatus)
    (key : Option ℕ) (ha : (s.th t).alertPending = true → status ≠ .alerted → a = true)
    (hkey : status = .alerted → key = none)
    (hw : (unlinkUpTo s st got (s.th t).waitBlockCount).setTh t
      { s.th t with alertPending := a } = w) :
    WaitOk owner (setDone w t status key) ∧
      Touches t (some (.done status key)) s (setDone w t status key) := by
  subst hw
  have hu := unlinkUpTo_unlinks s st got (s.th t).waitBlockCount
  obtain ⟨w, hw⟩ : ∃ w, w = setDone ((unlinkUpTo s st got (s.th t).waitBlockCount).setTh t
      { s.th t with alertPending := a }) t status key := ⟨_, rfl⟩
  rw [← hw]
  have hself : w.th t = { s.th t with
      alertPending := a, waitKey := key, waitDone := true, waitStatus := status } := by
    simp [hw, setDone, logEnd]
  have hother : ∀ u, u ≠ t → w.th u = s.th u := by
    intro u hut
    simp [hw, setDone, logEnd, setTh_of_ne hut, hu.th]
  have hended : ∀ u m, w.ended u m = if u = t ∧ m = (s.th t).waitEpoch then
      s.ended u m ++ [.done status key] else s.ended u m := by
    intro u m
    rw [hw, setDone, logEnd_ended, setTh_self, setTh_self, setTh_ended, setTh_ended, hu.ended]
  have hover : ¬ (s.th t).over := by
    rintro (hnone | hdone)
    · rw [hst] at hnone
      cases hnone
    · rw [hpend] at hdone
      cases hdone
  refine ⟨?_, ?_⟩
  · refine h.unlink hst hu hother (fun u hut => ?_) ?_ (by rw [hself])
      (.inr (by rw [hself]; exact ⟨hst, rfl⟩)) (by rw [hw]; rfl) (by rw [hw]; rfl) (by rw [hw]; rfl)
      (by rw [hw]; rfl)
    · funext m
      rw [hended, if_neg (by simp [hut])]
    refine (h.threads t).done hover ?_ ?_ ?_ ?_ ⟨?_, rfl, rfl⟩ ?_ fun m hm => ?_
    any_goals rw [hself]
    · rw [hended, if_pos ⟨rfl, rfl⟩]
    · rw [hended, if_neg (by simp [hm])]
  · refine ⟨hother, by rw [hself], by rw [hw]; exact hu.sig, by rw [hw]; exact hu.emptied, ?_,
      fun _ => (h.threads t).current hover, hended⟩
    intro hp hne
    rw [hself]
    refine ha hp ?_
    rintro rfl
    rw [hkey rfl] at hne
    exact hne rfl

/-- `satisfy` ends the wait with the number it is given, or does nothing. -/
theorem satisfy_cases (t : T) (n k : ℕ) : satisfy s t n k = (false, s) ∨
    (satisfy s t n k).1 = true ∧ (s.th t).waitEpoch = n ∧ WaitOk owner (satisfy s t n k).2 ∧
      Touches t (some (.done .satisfied (some k))) s (satisfy s t n k).2 := by
  cases hst : (s.th t).activeWaitBlocks with
  | none =>
    left
    simp [satisfy, hst]
  | some st =>
    by_cases hc : (s.th t).waitEpoch ≠ n || (s.th t).waitBlockCount ≤ k ||
        (s.blocks st k).state ≠ .active
    · left
      simp only [satisfy, hst]
      rw [if_pos hc]
    right
    have hsat : satisfy s t n k =
        (true, setDone (unlinkBlocks s t (some k)) t .satisfied (some k)) := by
      simp only [satisfy, hst]
      rw [if_neg hc]
    simp only [ne_eq, decide_not, Bool.or_eq_true, Bool.not_eq_true', decide_eq_false_iff_not,
      decide_eq_true_eq, not_or, not_not, Nat.not_le] at hc
    obtain ⟨⟨hn, hk⟩, hactive⟩ := hc
    have hpend : (s.th t).waitDone = false := by
      by_contra hd
      exact h.unlinked t st hst (by simpa using hd) k hk hactive
    rw [hsat]
    rw [unlinkBlocks_eq hst]
    exact ⟨rfl, hn, h.conclude hst hpend (some k) (s.th t).alertPending .satisfied (some k)
      (fun hp _ => hp) nofun (setTh_eq_self (by rw [unlinkUpTo_th]))⟩

/-- An alert ends the wait or stays pending. -/
theorem deliverAlertLocked_ok (t : T) :
    WaitOk owner (deliverAlertLocked s t) ∧ ∃ e, (e = none ∨ e = some (.done .alerted none)) ∧
      Touches t e s (deliverAlertLocked s t) := by
  unfold deliverAlertLocked
  dsimp only
  split
  case isTrue => exact ⟨h, none, .inl rfl, .refl⟩
  case isFalse hc =>
    simp only [Bool.not_eq_true, Bool.or_eq_true, not_or, decide_eq_true_eq, ne_eq] at hc
    obtain ⟨⟨⟨-, ha⟩, hpend⟩, -⟩ := hc
    obtain ⟨st, hst⟩ := isSome_iff_exists.mp (by simpa using ha)
    obtain ⟨hok, htouch⟩ := h.conclude hst hpend none false .alerted none
      (fun _ hne => absurd rfl hne) (fun _ => rfl) rfl
    rw [unlinkBlocks_eq hst, unlinkUpTo_th]
    exact ⟨hok, _, .inr rfl, htouch⟩

theorem waitTimeoutSend_ok (hx : (s.th t).activeWaitBlocks = none →
    (s.th t).waitDone = true) : WaitOk owner (waitTimeoutSend s t) ∧
      ∃ e, (e ≠ none → (s.th t).waitEpoch = (s.th t).waitTimerEpoch) ∧
        e ≠ some (.done .alerted none) ∧ Touches t e s (waitTimeoutSend s t) := by
  unfold waitTimeoutSend
  dsimp only
  split
  case isFalse => exact ⟨h, none, fun hc => absurd rfl hc, nofun, .refl⟩
  case isTrue hc =>
    simp only [Bool.and_eq_true, Bool.not_eq_true', decide_eq_true_eq] at hc
    obtain ⟨hpend, hn⟩ := hc
    cases hst : (s.th t).activeWaitBlocks with
    | none =>
      rw [hx hst] at hpend
      cases hpend
    | some st =>
      rw [unlinkBlocks_eq hst]
      obtain ⟨hok, htouch⟩ := h.conclude hst hpend none (s.th t).alertPending .timedOut none
        (fun hp _ => hp) nofun (setTh_eq_self (by rw [unlinkUpTo_th]))
      exact ⟨hok, some (.done .timedOut none), fun _ => hn, nofun, htouch⟩

/-- A wait that is cancelled ends, if it is not done before. -/
theorem threadWaitCancel_ok (hpc : (s.th t).pc = .running)
    (hne : (s.th t).activeWaitBlocks ≠ none) : WaitOk owner (threadWaitCancel s t) ∧
      ∃ e, StepEnds e s (threadWaitCancel s t) := by
  obtain ⟨st, hst⟩ := ne_none_iff_exists'.mp hne
  have hth := h.threads t
  have hu := unlinkUpTo_unlinks s st none (s.th t).waitBlockCount
  -- the state before the thread leaves the wait
  obtain ⟨w, hw⟩ : ∃ w, w = if (s.th t).waitDone then
      unlinkUpTo s st none (s.th t).waitBlockCount else
      (unlinkUpTo s st none (s.th t).waitBlockCount).logEnd t .cancelled := ⟨_, rfl⟩
  have hth' : w.th = s.th := by
    rw [hw]
    split <;> exact hu.th
  obtain ⟨s', hs'⟩ : ∃ s', s' = w.setTh t { s.th t with
      activeWaitBlocks := none, waitBlockCount := 0, waitType := .none } := ⟨_, rfl⟩
  have heq : threadWaitCancel s t = s' := by
    rw [hs', ← hth', hw]
    unfold threadWaitCancel finishLocked
    rw [unlinkBlocks_eq hst]
  have hself : s'.th t = { s.th t with
      activeWaitBlocks := none, waitBlockCount := 0, waitType := .none } := by
    rw [hs', setTh_self]
  have hother : ∀ u, u ≠ t → s'.th u = s.th u := by
    intro u hu
    rw [hs', setTh_of_ne hu, hth']
  obtain ⟨e, he⟩ : ∃ e, e = if (s.th t).waitDone then none else some WaitEnd.cancelled := ⟨_, rfl⟩
  have hended : ∀ u n, s'.ended u n =
      if u = t ∧ n = (s.th t).waitEpoch then s.ended u n ++ e.toList else s.ended u n := by
    intro u n
    rw [hs', setTh_ended, hw, he]
    by_cases hd : (s.th t).waitDone = true
    · simp [hd, hu.ended]
    · rw [if_neg hd, if_neg hd, logEnd_ended, hu.th, hu.ended]
      rfl
  have hbefore : e ≠ none → s.ended t (s.th t).waitEpoch = [] := by
    intro hc
    refine hth.current fun ho => ho.elim hne fun hd => hc ?_
    rw [he, if_pos hd]
  have hcur : (s'.ended t (s.th t).waitEpoch).length = 1 := by
    rw [hended, if_pos ⟨rfl, rfl⟩]
    by_cases hd : (s.th t).waitDone = true
    · rw [he, if_pos hd, toList_none, append_nil]
      exact hth.concluded (.inr hd) (hth.started hne)
    · rw [hbefore (by rw [he, if_neg hd]; nofun), he, if_neg hd]
      rfl
  rw [heq]
  refine ⟨?_, _, Touches.step (e := e) ⟨hother, by rw [hself], ?_, ?_, fun hp _ => ?_, hbefore,
    hended⟩ rfl (fun _ hu => hu) rfl fun _ => ⟨rfl, rfl⟩⟩
  · refine h.unlink hst hu hother (fun u hut => ?_) ?_ (by rw [hself]) (.inl (by rw [hself])) ?_ ?_
      ?_ ?_
    · funext n
      rw [hended, if_neg (by simp [hut])]
    · refine hth.finish hne (by rw [hself]) (by rw [hself]) hcur ?_ ?_
      · intro n hn
        rw [hended, if_neg (by simp [hn])]
      · rw [hself]
        exact .inl ⟨hpc, timer_false h hpc ⟨nofun, nofun⟩⟩
    all_goals
      rw [hs', hw]
      split <;> rfl
  · rw [hs', hw]
    split <;> exact hu.sig
  · rw [hs', hw]
    split <;> exact hu.emptied
  · rw [hself]
    exact hp

theorem threadAlert_ok (t : T) : WaitOk owner (threadAlert s t) ∧
    ∃ e, StepEnds e s (threadAlert s t) ∧ ((s.th t).dying = false →
      ((threadAlert s t).th t).alertPending = true ∨ e = some (t, .done .alerted none)) := by
  unfold threadAlert
  split
  case isTrue hd => exact ⟨h, none, .none rfl fun _ hu => hu, fun hc => by rw [hd] at hc; cases hc⟩
  case isFalse =>
    have hth := h.threads t
    obtain ⟨hok, -⟩ := h.setTh_touch (x := { s.th t with alertPending := true })
      ⟨rfl, rfl, rfl, rfl, rfl, rfl⟩ ⟨hth.completing, hth.deleting, hth.timer⟩ (fun _ => rfl)
    obtain ⟨hfin, e, he, htouch⟩ := deliverAlertLocked_ok hok t
    refine ⟨hfin, _, htouch.step rfl (alertPending_setTh fun _ => rfl) rfl fun _ => ⟨rfl, rfl⟩,
      fun _ => ?_⟩
    rcases he with rfl | rfl
    · exact .inl (htouch.pending (by rw [setTh_self]) nofun)
    · exact .inr rfl

/-- A timer ends the wait that it was set for, or none. -/
theorem expire_ok (ht : (s.th t).waitTimer = true) :
    WaitOk owner ((waitTimeoutSend s t).setTh t
      { (waitTimeoutSend s t).th t with waitTimer := false }) ∧
      ∃ e, StepEnds e s ((waitTimeoutSend s t).setTh t
        { (waitTimeoutSend s t).th t with waitTimer := false }) ∧
        ∀ u x, e = some (u, x) → u = t ∧
          ((waitTimeoutSend s t).th t).waitEpoch = (s.th t).waitTimerEpoch := by
  have hth := h.threads t
  have hx : (s.th t).activeWaitBlocks = none → (s.th t).waitDone = true := by
    intro hnone
    rcases hth.timer ht with hp | hp
    · exact absurd hnone (hth.completing (.inr ⟨_, hp⟩))
    · exact hth.deleting hp
  obtain ⟨hok, e, hn, -, htouch⟩ := waitTimeoutSend_ok h hx
  have hth' := hok.threads t
  obtain ⟨hfin, -⟩ := hok.setTh_touch
    (x := { (waitTimeoutSend s t).th t with waitTimer := false })
    ⟨rfl, rfl, rfl, rfl, rfl, rfl⟩ ⟨hth'.completing, hth'.deleting, nofun⟩ (fun hp => hp)
  refine ⟨hfin, _, htouch.step rfl (fun _ hu => hu) rfl ?_, ?_⟩
  · intro u
    by_cases hut : u = t
    · subst hut
      rw [setTh_self]
      exact ⟨rfl, rfl⟩
    · rw [setTh_of_ne hut]
      exact ⟨rfl, rfl⟩
  · intro u x hux
    obtain ⟨y, rfl, hy⟩ := map_eq_some_iff.mp hux
    obtain ⟨rfl, -⟩ := Prod.mk.inj hy
    exact ⟨rfl, htouch.epoch.trans (hn nofun)⟩

end

private theorem satisfy_setSig_ok [DecidableEq S] {x : Signaller T H} (h : WaitOk owner s) (t : T)
    (n k : ℕ) (hx : ∀ s', SigOk (s' : WaitSys T H St S) x) :
    WaitOk owner ((satisfy s t n k).2.setSig r x) ∧
      ∃ e, StepEnds e s ((satisfy s t n k).2.setSig r x) ∧
        ∀ u y, e = some (u, y) →
          some (t, n) = some (u, (((satisfy s t n k).2.setSig r x).th u).waitEpoch) := by
  rcases satisfy_cases h t n k with hsat | ⟨-, hn, hok, htouch⟩
  · rw [hsat]
    exact ⟨h.setSig (hx _), none, .none rfl fun _ hu => hu, nofun⟩
  refine ⟨hok.setSig (hx _), _, htouch.step rfl (fun _ hu => hu) rfl fun _ => ⟨rfl, rfl⟩, ?_⟩
  intro u y hy
  obtain ⟨rfl, -⟩ := Prod.mk.inj (some.inj hy)
  exact congrArg (fun m => some (t, m)) (htouch.epoch.trans hn).symm

/-! ### Preparing a wait -/

/-- An object is acquired when the blocks before its own are linked. -/
theorem satisfyAtPrepare_ok (h : WaitOk owner s) (hst : (s.th t).activeWaitBlocks = some st)
    (hpend : (s.th t).waitDone = false) (hlt : ∀ p j, (st, j) ∈ s.lists p → j < i)
    (b : WaitBlock T H) :
    WaitOk owner (satisfyAtPrepare (s.setBlock st i b) t st i) ∧
      Touches t (some (.done .satisfied (some i))) s
        (satisfyAtPrepare (s.setBlock st i b) t st i) := by
  have hnot : ∀ p, (st, i) ∉ s.lists p := fun p hm => absurd (hlt p i hm) (lt_irrefl i)
  have hset : (s.setBlock st i b).setBlock st i { b with state := .inactive } =
      s.setBlock st i { b with state := .inactive } := by
    simp [setBlock]
  obtain ⟨s₁, hs₁⟩ : ∃ s₁, s₁ = (s.setBlock st i { b with state := .inactive }).setTh t
      { s.th t with waitBlockCount := i + 1 } := ⟨_, rfl⟩
  have hok : WaitOk owner s₁ := by
    rw [hs₁]
    have hin : WaitOk owner (s.setBlock st i { b with state := .inactive }) :=
      h.setBlock hnot fun hc => by cases hc
    exact hin.setCount hst hpend fun p j hj => Nat.lt_succ_of_lt (hlt p j hj)
  have hstart : Touches t none s s₁ := by
    rw [hs₁]
    refine .quiet (fun u hu => setTh_of_ne hu) ?_ ?_ rfl rfl rfl
    all_goals rw [setTh_self]
  have hst₁ : (s₁.th t).activeWaitBlocks = some st := by
    rw [hs₁, setTh_self]
    exact hst
  have hpend₁ : (s₁.th t).waitDone = false := by
    rw [hs₁, setTh_self]
    exact hpend
  obtain ⟨hdone, htouch⟩ := hok.conclude hst₁ hpend₁ (some i) (s₁.th t).alertPending .satisfied
    (some i) (fun hp _ => hp) (fun hc => by cases hc) (setTh_eq_self (by rw [unlinkUpTo_th]))
  have heq : satisfyAtPrepare (s.setBlock st i b) t st i =
      (setDone (unlinkUpTo s₁ st (some i) (s₁.th t).waitBlockCount) t .satisfied (some i)).setBlock
        st i { (unlinkUpTo s₁ st (some i) (s₁.th t).waitBlockCount).blocks st i with
          state := .satisfied } := by
    unfold satisfyAtPrepare
    dsimp only
    rw [setBlock_self, hset]
    have hraw : (s.setBlock st i { b with state := .inactive }).setTh t
        { (s.setBlock st i { b with state := .inactive }).th t with waitBlockCount := i + 1 } =
          s₁ := hs₁.symm
    rw [hraw, unlinkBlocks_eq hst₁]
    rfl
  rw [heq]
  refine ⟨?_, hstart.then (htouch.after ?_)⟩
  · refine hdone.setBlock ?_ fun hc => by cases hc
    intro p hm
    have hsub : (st, i) ∈ s₁.lists p := ((unlinkUpTo_unlinks ..).sublist p).subset hm
    rw [hs₁] at hsub
    exact hnot p hsub
  · exact .quiet (fun _ _ => rfl) rfl rfl rfl rfl rfl

variable [DecidableEq H] [DecidableEq S] {objects : List (H × Bool)}

theorem prepareFrom_ok (h : WaitOk owner s) (hst : (s.th t).activeWaitBlocks = some st)
    (hpend : (s.th t).waitDone = false) (hi : i + objects.length ≤ (s.th t).waitBlockCount)
    (hlt : ∀ p j, (st, j) ∈ s.lists p → j < i)
    (hreg : ∀ j, i ≤ j → s.registered t (s.th t).waitEpoch j = none) :
    WaitOk owner (prepareFrom s t st i objects) ∧
      ∃ e, e ≠ some (.done .alerted none) ∧ Touches t e s (prepareFrom s t st i objects) := by
  induction objects generalizing s i with
  | nil => exact ⟨h, none, nofun, .refl⟩
  | cons o objects ih =>
    obtain ⟨k, acquired⟩ := o
    cases acquired with
    | true =>
      obtain ⟨hok, htouch⟩ := satisfyAtPrepare_ok h hst hpend hlt ⟨t, i, .active, k⟩
      exact ⟨hok, some (.done .satisfied (some i)), nofun, htouch⟩
    | false =>
      rw [length_cons] at hi
      have hnot : ∀ p, (st, i) ∉ s.lists p := fun p hm => absurd (hlt p i hm) (lt_irrefl i)
      obtain ⟨s₂, hs₂⟩ : ∃ s₂, s₂ = ((s.setBlock st i ⟨t, i, .active, k⟩).setList (.waiters k)
          (s.lists (.waiters k) ++ [(st, i)])).register t i k := ⟨_, rfl⟩
      have hth : s₂.th = s.th := by rw [hs₂]; rfl
      have hl : s₂.lists (.waiters k) = s.lists (.waiters k) ++ [(st, i)] := by
        rw [hs₂]
        exact update_self _ _ _
      have hl' : ∀ p, p ≠ .waiters k → s₂.lists p = s.lists p := by
        intro p hp
        rw [hs₂]
        exact update_of_ne hp _ _
      have hr : ∀ u m j, ¬ (u = t ∧ m = (s.th t).waitEpoch ∧ j = i) →
          s₂.registered u m j = s.registered u m j := by
        intro u m j hne
        rw [hs₂]
        by_cases hu : u = t
        · subst hu
          by_cases hm : m = (s.th u).waitEpoch
          · subst hm
            have hj : j ≠ i := fun hj => hne ⟨rfl, rfl, hj⟩
            simp [register, setList, setBlock, hj]
          · simp [register, setList, setBlock, hm]
        · simp [register, setList, setBlock, hu]
      have hok : WaitOk owner s₂ := by
        refine h.link hst hpend (by omega) hnot (hreg i (le_refl i)) hth ?_ ?_ hl hl' ?_ ?_ ?_ hr
        · rw [hs₂]
          exact setBlock_self
        · intro st' j hne
          rw [hs₂]
          by_cases hst' : st' = st
          · subst hst'
            exact setBlock_of_ne fun hj => hne ⟨rfl, hj⟩
          · exact congrFun (setBlock_other hst') j
        · rw [hs₂]
          rfl
        · rw [hs₂]
          rfl
        · rw [hs₂]
          simp [register, setList, setBlock]
      have hlink : Touches t none s s₂ := by
        rw [hs₂]
        exact .quiet (fun _ _ => rfl) rfl rfl rfl rfl rfl
      have hlt₂ : ∀ p j, (st, j) ∈ s₂.lists p → j < i + 1 := by
        intro p j hj
        by_cases hp : p = .waiters k
        · subst hp
          rw [hl] at hj
          rcases mem_append.mp hj with hj | hj
          · exact Nat.lt_succ_of_lt (hlt _ j hj)
          · cases mem_singleton.mp hj
            exact Nat.lt_succ_self i
        · rw [hl' p hp] at hj
          exact Nat.lt_succ_of_lt (hlt p j hj)
      have hreg₂ : ∀ j, i + 1 ≤ j → s₂.registered t (s₂.th t).waitEpoch j = none := by
        intro j hj
        rw [hth, hr _ _ _ (by omega)]
        exact hreg j (by omega)
      have hstep : prepareFrom s t st i ((k, false) :: objects) =
          prepareFrom s₂ t st (i + 1) objects := by
        rw [hs₂]
        rfl
      rw [hstep]
      rw [← hth] at hst hpend hi
      obtain ⟨hfin, e, he, htouch⟩ := ih hok hst hpend (by omega) hlt₂ hreg₂
      exact ⟨hfin, e, he, hlink.then htouch⟩

/-- A new wait is prepared, and acquired or alerted at once or not. -/
theorem prepareWait_ok {type : WaitType} (h : WaitOk owner s) (hpc : (s.th t).pc = .running)
    (hnone : (s.th t).activeWaitBlocks = none) (howner : owner st = t) :
    WaitOk owner (prepareWait s t st objects type) ∧
      ∃ e, StepEnds e s (prepareWait s t st objects type) := by
  obtain ⟨x, hx⟩ : ∃ x, x = { s.th t with
    activeWaitBlocks := some st
    waitBlockCount := objects.length
    waitKey := none
    waitDone := false
    waitStatus := .satisfied
    waitEpoch := (s.th t).waitEpoch + 1
    waitType := type } := ⟨_, rfl⟩
  have hself : (s.setTh t x).th t = x := setTh_self
  have hth := h.threads t
  have hfree : ∀ p, ∀ b ∈ s.lists p, owner b.1 ≠ t := by
    intro p b hb ho
    have := (h.linked p b hb).active
    rw [ho, hnone] at this
    cases this
  have hok : WaitOk owner (s.setTh t x) := by
    refine h.setTh_change ?_ (by rw [hx]; exact Nat.le_succ _) ?_ hfree
    · rw [hx]
      refine ⟨fun _ => Nat.succ_pos _, ?_, ?_, ?_, ?_, nofun, fun _ => some_ne_none st, ?_,
        hth.timer⟩
      · intro n hn
        exact hth.future n (by dsimp only at hn; omega)
      · intro n h0 hlt
        by_cases hn : n = (s.th t).waitEpoch
        · rw [hn]
          exact hth.concluded (.inl hnone) (by omega)
        · exact hth.past n h0 (by dsimp only at hlt; omega)
      · exact fun _ => hth.future _ (.inr (Nat.lt_succ_self _))
      · rintro (hc | hc) <;> cases hc
      · intro hc
        rw [hpc] at hc
        cases hc
    · rintro st' hst'
      rw [hx] at hst' ⊢
      obtain ⟨⟩ := hst'
      exact ⟨howner, rfl⟩
  have hlt : ∀ p j, (st, j) ∈ (s.setTh t x).lists p → j < 0 :=
    fun p j hj => absurd howner (hfree p _ hj)
  have hfresh : ∀ j, 0 ≤ j →
      (s.setTh t x).registered t ((s.setTh t x).th t).waitEpoch j = none := by
    intro j _
    rw [hself, hx]
    exact h.fresh t _ j (Nat.lt_succ_self _)
  obtain ⟨hprep, e, he, htouch⟩ := prepareFrom_ok hok (by rw [hself, hx]) (by rw [hself, hx])
    (by rw [hself, hx]; exact Nat.le_of_eq (zero_add _)) hlt hfresh
  obtain ⟨hfin, e', he', htouch'⟩ := deliverAlertLocked_ok hprep t
  have heq : prepareWait s t st objects type =
      deliverAlertLocked (prepareFrom (s.setTh t x) t st 0 objects) t := by
    rw [hx]
    rfl
  rw [heq]
  refine ⟨hfin, ?_⟩
  have hpend : ∀ u, (s.th u).alertPending = true → ((s.setTh t x).th u).alertPending = true :=
    alertPending_setTh (by rw [hx]; exact id)
  -- an acquired object ends the wait, so that the alert does not
  have hone : ∃ e, Touches t e (s.setTh t x)
      (deliverAlertLocked (prepareFrom (s.setTh t x) t st 0 objects) t) := by
    cases e with
    | none => exact ⟨e', htouch.then htouch'⟩
    | some x =>
      rcases he' with rfl | rfl
      · exact ⟨some x, htouch.after htouch'⟩
      · have hb := htouch'.before nofun
        rw [htouch.epoch, htouch.ended, if_pos ⟨rfl, rfl⟩] at hb
        simp at hb
  obtain ⟨e'', h''⟩ := hone
  exact ⟨_, h''.step rfl hpend rfl fun _ => ⟨rfl, rfl⟩⟩

/-! ### Runs -/

/-- A section of a call ends the wait that the call has read, or none. -/
theorem signallerRun_ok (h : WaitOk owner s) (r : S) (key : ℕ) :
    WaitOk owner (signallerRun s r key) ∧ ∃ e, StepEnds e s (signallerRun s r key) ∧
      ∀ t x, e = some (t, x) →
        (s.sig r).read = some (t, ((signallerRun s r key).th t).waitEpoch) := by
  unfold signallerRun
  cases hsig : s.sig r with
  | idle => exact ⟨h, none, .none rfl fun _ hu => hu, nofun⟩
  | one k =>
    dsimp only
    split
    · refine ⟨?_, none, .none rfl fun _ hu => hu, nofun⟩
      have hidle : WaitOk owner (s.setSig r .idle) := h.setSig trivial
      exact hidle.signal rfl rfl rfl rfl (fun p b hb => ⟨p, hb⟩) (fun _ _ hb => hb) hidle.nodup
        hidle.once hidle.signals
    case h_2 st i l hl =>
      refine ⟨h.setSig ?_, none, .none rfl fun _ hu => hu, nofun⟩
      have hmem : (st, i) ∈ s.lists (.waiters k) := by
        rw [hl]
        exact mem_cons_self
      have hlink := h.linked _ _ hmem
      have hreg := h.header k _ hmem
      rw [hlink.thread, hlink.key]
      exact ⟨le_refl _, hreg⟩
  | oneGot k t n key' | allGot k t n key' last =>
    refine satisfy_setSig_ok h t n key' fun s' => ?_
    split <;> trivial
  | allStart k =>
    obtain ⟨hok, hends⟩ := snapshotNext_ok (k := k) (h.splice (r := r) (k := k))
    exact ⟨hok, none, { hends with }, nofun⟩
  | allNext k =>
    exact ⟨(snapshotNext_ok h).1, none, (snapshotNext_ok h).2, nofun⟩
  | epochGot t n =>
    exact satisfy_setSig_ok h t n key fun _ => trivial

/-- Every step keeps the invariant and ends one wait or none. -/
theorem waitStep_ok {a : WaitAct T H St S} (h : WaitOk owner s)
    (hstep : waitStep owner s a = some s') : WaitOk owner s' ∧ ∃ e, StepEnds e s s' := by
  cases a with
  | prepare t st objects type =>
    obtain ⟨hc, ⟨⟩⟩ := ite_none_right_eq_some.mp hstep
    exact prepareWait_ok h hc.1 hc.2.1 hc.2.2.1
  | complete t =>
    obtain ⟨hc, ⟨⟩⟩ := ite_none_right_eq_some.mp hstep
    have htimer := timer_false h hc.1 ⟨nofun, nofun⟩
    exact h.setTh_touch ⟨rfl, rfl, rfl, rfl, rfl, rfl⟩ ⟨fun _ => hc.2, nofun, by simp [htimer]⟩ id
  | completeTimeout t =>
    obtain ⟨hc, ⟨⟩⟩ := ite_none_right_eq_some.mp hstep
    have htimer := timer_false h hc.1 ⟨nofun, nofun⟩
    have hdel : (if (s.th t).waitDone then WaiterPc.completing false else .arming) =
        .deleting → (s.th t).waitDone = true := by
      split <;> exact nofun
    exact h.setTh_touch ⟨rfl, rfl, rfl, rfl, rfl, rfl⟩ ⟨fun _ => hc.2, hdel, by simp [htimer]⟩ id
  | armTimer t =>
    obtain ⟨hc, ⟨⟩⟩ := ite_none_right_eq_some.mp hstep
    exact h.setTh_touch ⟨rfl, rfl, rfl, rfl, rfl, rfl⟩
      ⟨fun _ => (h.threads t).completing (.inl hc), nofun, fun _ => .inl rfl⟩ id
  | pass t =>
    simp only [waitStep] at hstep
    split at hstep
    case h_2 => cases hstep
    case h_1 armed hc =>
      have hth := h.threads t
      have hne := hth.completing (.inr ⟨armed, hc⟩)
      split at hstep
      case isFalse =>
        obtain ⟨⟩ := hstep
        exact ⟨h, none, .none rfl fun _ hu => hu⟩
      case isTrue hd =>
        obtain ⟨⟩ := hstep
        have heq : ((finishLocked s t).setTh t { (finishLocked s t).th t with
            pc := if armed then .deleting else .running }) = s.setTh t { s.th t with
              activeWaitBlocks := none, waitBlockCount := 0, waitType := .none,
              pc := if armed then .deleting else .running } := by
          simp [finishLocked, setTh]
        rw [heq]
        refine ⟨finish_ok h hd hne ?_, none, .none rfl ?_⟩
        · cases armed with
          | true => exact .inr rfl
          | false => exact .inl ⟨rfl, timer_false h hc ⟨nofun, nofun⟩⟩
        · exact alertPending_setTh id
  | deleteSync t =>
    obtain ⟨hc, ⟨⟩⟩ := ite_none_right_eq_some.mp hstep
    exact h.setTh_touch ⟨rfl, rfl, rfl, rfl, rfl, rfl⟩
      ⟨(by rintro (hp | ⟨a, hp⟩) <;> cases hp), nofun, nofun⟩ id
  | cancel t =>
    obtain ⟨hc, ⟨⟩⟩ := ite_none_right_eq_some.mp hstep
    exact threadWaitCancel_ok h hc.1 hc.2
  | expire t =>
    obtain ⟨hc, ⟨⟩⟩ := ite_none_right_eq_some.mp hstep
    obtain ⟨hok, e, he, -⟩ := expire_ok h hc
    exact ⟨hok, e, he⟩
  | alert t =>
    obtain ⟨⟩ := hstep
    obtain ⟨hok, e, he, -⟩ := threadAlert_ok h t
    exact ⟨hok, e, he⟩
  | exit t =>
    obtain ⟨hc, ⟨⟩⟩ := ite_none_right_eq_some.mp hstep
    have hth := h.threads t
    exact h.setTh_touch ⟨rfl, rfl, rfl, rfl, rfl, rfl⟩ ⟨hth.completing, hth.deleting, hth.timer⟩ id
  | satisfyBlock t key =>
    obtain ⟨⟩ := hstep
    rcases satisfy_cases h t (s.th t).waitEpoch key with hsat | ⟨-, -, hok, htouch⟩
    · rw [hsat]
      exact ⟨h, none, .none rfl fun _ hu => hu⟩
    · exact ⟨hok, _, htouch.step rfl (fun _ hu => hu) rfl fun _ => ⟨rfl, rfl⟩⟩
  | callOne r k | callAll r k | readEpoch r t =>
    obtain ⟨-, ⟨⟩⟩ := ite_none_right_eq_some.mp hstep
    exact ⟨h.setSig trivial, none, .none rfl fun _ hu => hu⟩
  | run r key =>
    obtain ⟨-, ⟨⟩⟩ := ite_none_left_eq_some.mp hstep
    obtain ⟨hok, e, he, -⟩ := signallerRun_ok h r key
    exact ⟨hok, e, he⟩

/-- The system goes from one state to the next. -/
def WaitStep (owner : St → T) (s s' : WaitSys T H St S) : Prop :=
  ∃ a, waitStep owner s a = some s'

theorem waitSteps_ok {s₀ : WaitSys T H St S} (h₀ : WaitOk owner s₀)
    (h : ReflTransGen (WaitStep owner) s₀ s) : WaitOk owner s := by
  induction h with
  | refl => exact h₀
  | tail _ hstep ih =>
    obtain ⟨a, ha⟩ := hstep
    exact (waitStep_ok ih ha).1

/-- What holds of the waits in a state and of the steps from it. -/
structure WaitSound (owner : St → T) (s : WaitSys T H St S) : Prop where
  /-- A wait that is not over has no end. -/
  current : ∀ t, ¬ (s.th t).over → s.ended t (s.th t).waitEpoch = []
  /-- Every other wait that was prepared has exactly one. -/
  one_end : ∀ t n, 0 < n → n ≤ (s.th t).waitEpoch → (n = (s.th t).waitEpoch → (s.th t).over) →
    ∃ e, s.ended t n = [e]
  /-- The thread is told the end of its wait. -/
  result : ∀ t, (s.th t).activeWaitBlocks ≠ none → (s.th t).waitDone = true →
    s.ended t (s.th t).waitEpoch = [.done (s.th t).waitStatus (s.th t).waitKey]
  /-- A linked block is a block of a wait that has not ended. -/
  linked : ∀ p, ∀ b ∈ s.lists p, ∃ t, (s.blocks b.1 b.2).thread = t ∧
    (s.th t).activeWaitBlocks = some b.1 ∧ b.2 < (s.th t).waitBlockCount ∧ ¬ (s.th t).over
  /-- A wait that has its end keeps it. -/
  final : ∀ a s', waitStep owner s a = some s' → ∀ t n, s.ended t n ≠ [] →
    s'.ended t n = s.ended t n
  /-- A signaller ends no wait but the one whose number it has read. -/
  signal : ∀ r key s', waitStep owner s (.run r key) = some s' → ∀ t n,
    s'.ended t n ≠ s.ended t n → (s.sig r).read = some (t, n)
  /-- A timer ends no wait but the one that it was set for. -/
  timer : ∀ t s', waitStep owner s (.expire t) = some s' → ∀ u n,
    s'.ended u n ≠ s.ended u n → u = t ∧ n = (s.th t).waitTimerEpoch
  /-- `satisfy_one` runs `empty_locked` when no block is linked, or reads a block. -/
  one_looks : ∀ r k key s', s.sig r = .one k → waitStep owner s (.run r key) = some s' →
    s'.ended = s.ended ∧
      (s.lists (.waiters k) = [] ∧ s'.sig r = .idle ∧ s'.emptied k = s.emptied k + 1 ∨
        s'.emptied = s.emptied ∧ ∃ t n i, s'.sig r = .oneGot k t n i)
  /-- `satisfy_one` returns when it has satisfied one wait whose block was linked on the header, and
  otherwise looks again. -/
  one_wins : ∀ r k t n i key s', s.sig r = .oneGot k t n i →
    waitStep owner s (.run r key) = some s' → s'.emptied = s.emptied ∧
      (s'.sig r = .one k ∧ s'.ended = s.ended ∨
        s'.sig r = .idle ∧ s.registered t n i = some k ∧ s.ended t n = [] ∧
          s'.ended t n = [.done .satisfied (some i)] ∧
          ∀ u m, ¬ (u = t ∧ m = n) → s'.ended u m = s.ended u m)
  /-- An alert ends the wait or is pending, unless the thread is dying. -/
  alert : ∀ t s', (s.th t).dying = false → waitStep owner s (.alert t) = some s' →
    (s'.th t).alertPending = true ∨ s.ended t (s'.th t).waitEpoch = [] ∧
      s'.ended t (s'.th t).waitEpoch = [.done .alerted none]
  /-- A pending alert stays until it ends a wait. -/
  pending : ∀ a s', waitStep owner s a = some s' → ∀ t, (s.th t).alertPending = true →
    (s'.th t).alertPending = true ∨ s.ended t (s'.th t).waitEpoch = [] ∧
      s'.ended t (s'.th t).waitEpoch = [.done .alerted none]

theorem WaitOk.sound (h : WaitOk owner s) : WaitSound owner s where
  current t := (h.threads t).current
  one_end t n h0 hle hover := by
    rw [← length_eq_one_iff]
    by_cases hn : n = (s.th t).waitEpoch
    · rw [hn]
      exact (h.threads t).concluded (hover hn) (by omega)
    · exact (h.threads t).past n h0 (by omega)
  result t := (h.threads t).result
  linked p b hb := by
    have hl := h.linked p b hb
    refine ⟨owner b.1, hl.thread, hl.active, hl.count, ?_⟩
    rintro (hnone | hd)
    · rw [hl.active] at hnone
      cases hnone
    · rw [hl.pending] at hd
      cases hd
  final a s' hstep t n hne := by
    obtain ⟨-, e, he⟩ := waitStep_ok h hstep
    by_contra hc
    obtain ⟨x, hx, rfl⟩ := he.changed hc
    exact hne (he.new t x hx).1
  signal r key s' hstep t n hne := by
    obtain ⟨-, ⟨⟩⟩ := ite_none_left_eq_some.mp hstep
    obtain ⟨-, e, he, hread⟩ := signallerRun_ok h r key
    obtain ⟨x, hx, rfl⟩ := he.changed hne
    exact hread t x hx
  timer t s' hstep u n hne := by
    obtain ⟨ht, ⟨⟩⟩ := ite_none_right_eq_some.mp hstep
    obtain ⟨-, e, he, htime⟩ := expire_ok h ht
    obtain ⟨x, hx, rfl⟩ := he.changed hne
    obtain ⟨rfl, hn⟩ := htime u x hx
    rw [setTh_self]
    exact ⟨rfl, hn⟩
  one_looks r k key s' hsig hstep := by
    simp only [waitStep, hsig, signallerRun] at hstep
    obtain ⟨⟩ := hstep
    split
    case h_1 hl =>
      exact ⟨rfl, .inl ⟨hl, update_self _ _ _, update_self _ _ _⟩⟩
    case h_2 =>
      exact ⟨rfl, .inr ⟨rfl, _, _, _, update_self _ _ _⟩⟩
  one_wins r k t n i key s' hsig hstep := by
    have hread := h.signals r
    rw [hsig] at hread
    simp only [waitStep, hsig, signallerRun] at hstep
    obtain ⟨⟩ := hstep
    rcases satisfy_cases h t n i with hsat | ⟨hwon, hn, -, htouch⟩
    · rw [hsat]
      exact ⟨rfl, .inl ⟨update_self _ _ _, rfl⟩⟩
    have hb := htouch.before nofun
    rw [hn] at hb
    rw [hwon]
    refine ⟨htouch.emptied, .inr ⟨update_self _ _ _, hread.2, hb, ?_, ?_⟩⟩
    · change (satisfy s t n i).2.ended t n = _
      rw [htouch.ended, if_pos ⟨rfl, hn.symm⟩, hb]
      rfl
    · intro u m hne
      change (satisfy s t n i).2.ended u m = _
      rw [htouch.ended, hn, if_neg hne]
  alert t s' hd hstep := by
    obtain ⟨⟩ := hstep
    obtain ⟨-, e, he, hp⟩ := threadAlert_ok h t
    rcases hp hd with hp | hp
    · exact .inl hp
    · exact .inr (he.new t _ hp)
  pending a s' hstep t hp := by
    obtain ⟨-, e, he⟩ := waitStep_ok h hstep
    rcases he.pending t hp with hp' | hx
    · exact .inl hp'
    · exact .inr (he.new t _ hx)

/-- In every run each wait that was prepared has exactly one end as soon as it is over, no block of
it is linked from then on, and no signal or timer that has read its number ends another. -/
theorem waitRun_sound (owner : St → T) (blocks : St → ℕ → WaitBlock T H) (s : WaitSys T H St S)
    (h : ReflTransGen (WaitStep owner) (waitInit blocks) s) : WaitSound owner s :=
  (waitSteps_ok (waitInit_ok blocks) h).sound

/-- The steps of a list, one after the other. -/
def waitTrace (owner : St → T) (s : WaitSys T H St S) :
    List (WaitAct T H St S) → Option (WaitSys T H St S)
  | [] => some s
  | a :: l => (waitStep owner s a).bind fun s' => waitTrace owner s' l

private theorem waitTrace_run {l : List (WaitAct T H St S)} (h : waitTrace owner s l = some s') :
    ReflTransGen (WaitStep owner) s s' :=
  reflTransGen_of_trace h fun _ a _ hs => ⟨a, hs⟩

/-- Thread 0 waits for the headers 0 and 1, both are signalled at once, and the signal of header 1
wins. -/
theorem waitRun_sound_race : ∃ s : WaitSys ℕ ℕ ℕ ℕ,
    ReflTransGen (WaitStep id) (waitInit fun _ _ => ⟨0, 0, .inactive, 0⟩) s ∧
      s.ended 0 1 = [.done .satisfied (some 1)] ∧ s.sig 0 = .one 0 ∧ s.sig 1 = .idle ∧
      WaitSound id s := by
  have hrun : (waitTrace (id : ℕ → ℕ) (waitInit fun _ _ => ⟨0, 0, .inactive, 0⟩)
      ([.prepare 0 0 [(0, false), (1, false)] .interruptible, .callOne 0 0, .callOne 1 1, .run 0 0,
        .run 1 0, .run 1 0, .run 0 0] : List (WaitAct ℕ ℕ ℕ ℕ))).map
        (fun s : WaitSys ℕ ℕ ℕ ℕ => (s.ended 0 1, s.sig 0, s.sig 1)) =
      some ([.done .satisfied (some 1)], .one 0, .idle) := by
    decide +kernel
  obtain ⟨s, hs, hobs⟩ := map_eq_some_iff.mp hrun
  simp only [Prod.mk.injEq] at hobs
  exact ⟨s, waitTrace_run hs, hobs.1, hobs.2.1, hobs.2.2, waitRun_sound _ _ s (waitTrace_run hs)⟩

/-- An alert of a thread that is dying ends no wait and is not pending after it. -/
theorem waitRun_alert_dying : ∃ s s' : WaitSys ℕ ℕ ℕ ℕ,
    ReflTransGen (WaitStep id) (waitInit fun _ _ => ⟨0, 0, .inactive, 0⟩) s ∧
      waitStep id s (.alert 0) = some s' ∧ s'.ended = s.ended ∧
      (s'.th 0).alertPending = false := by
  refine ⟨_, _, .single ⟨.exit 0, rfl⟩, rfl, rfl, rfl⟩

end Charmos.Thread
