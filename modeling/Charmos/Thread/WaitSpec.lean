import Charmos.Thread.Wait

/-!
# The invariant of object waits

A block that is linked on a header, or on the snapshot of a `satisfy_all`, belongs to a wait that
has not ended (`Linked`). A wait of a thread has one end in the history as soon as it is done or
cancelled and none before (`ThreadOk`). The call that ends a wait unlinks all its blocks first
(`unlinkUpTo_unlinks`), so the invariant `WaitOk` is kept by all of them for the same reason
(`WaitOk.change`).
-/

namespace Charmos.Thread

open Function

variable {T H St S : Type}

/-- The wait that the block belongs to has not ended, and the block says so. -/
structure Linked (owner : St → T) (s : WaitSys T H St S) (b : St × ℕ) : Prop where
  active : (s.th (owner b.1)).activeWaitBlocks = some b.1
  count : b.2 < (s.th (owner b.1)).waitBlockCount
  pending : (s.th (owner b.1)).waitDone = false
  state : (s.blocks b.1 b.2).state = .active
  thread : (s.blocks b.1 b.2).thread = owner b.1
  key : (s.blocks b.1 b.2).key = b.2

/-- The thread's wait is over. -/
def ThreadWait.over (x : ThreadWait St) : Prop := x.activeWaitBlocks = none ∨ x.waitDone = true

/-- A thread, with the ends of its waits. -/
structure ThreadOk (x : ThreadWait St) (ended : ℕ → List WaitEnd) : Prop where
  started : x.activeWaitBlocks ≠ none → 0 < x.waitEpoch
  future : ∀ n, n = 0 ∨ x.waitEpoch < n → ended n = []
  past : ∀ n, 0 < n → n < x.waitEpoch → (ended n).length = 1
  current : ¬ x.over → ended x.waitEpoch = []
  concluded : x.over → 0 < x.waitEpoch → (ended x.waitEpoch).length = 1
  result : x.activeWaitBlocks ≠ none → x.waitDone = true →
    ended x.waitEpoch = [.done x.waitStatus x.waitKey]
  completing : x.pc = .arming ∨ (∃ a, x.pc = .completing a) → x.activeWaitBlocks ≠ none
  deleting : x.pc = .deleting → x.waitDone = true
  timer : x.waitTimer = true → x.pc = .completing true ∨ x.pc = .deleting

/-- What a signalling call has read. -/
def SigOk (s : WaitSys T H St S) : Signaller T H → Prop
  | .oneGot h t n k => n ≤ (s.th t).waitEpoch ∧ s.registered t n k = some h
  | _ => True

/-- The invariant. -/
structure WaitOk (owner : St → T) (s : WaitSys T H St S) : Prop where
  linked : ∀ p, ∀ b ∈ s.lists p, Linked owner s b
  header : ∀ h, ∀ b ∈ s.lists (.waiters h),
    s.registered (owner b.1) (s.th (owner b.1)).waitEpoch b.2 = some h
  nodup : ∀ p, (s.lists p).Nodup
  once : ∀ p p' b, b ∈ s.lists p → b ∈ s.lists p' → p = p'
  owns : ∀ t st, (s.th t).activeWaitBlocks = some st → owner st = t
  unlinked : ∀ t st, (s.th t).activeWaitBlocks = some st → (s.th t).waitDone = true →
    ∀ i < (s.th t).waitBlockCount, (s.blocks st i).state ≠ .active
  threads : ∀ t, ThreadOk (s.th t) (s.ended t)
  fresh : ∀ t n k, (s.th t).waitEpoch < n → s.registered t n k = none
  signals : ∀ r, SigOk s (s.sig r)

variable {owner : St → T} {s s' : WaitSys T H St S} {t : T} {st : St} {i n : ℕ} {got : Option ℕ}
  {h : H} {r : S} {status : WaitStatus} {key : Option ℕ} {b : St × ℕ}

/-- What a call has read stays right while epochs grow and registrations stay. -/
theorem SigOk.mono {x : Signaller T H} (h : SigOk s x)
    (hepoch : ∀ u, (s.th u).waitEpoch ≤ (s'.th u).waitEpoch)
    (hreg : ∀ u n j k, s.registered u n j = some k → s'.registered u n j = some k) :
    SigOk s' x := by
  cases x with
  | oneGot k u n j => exact ⟨h.1.trans (hepoch u), hreg u n j k h.2⟩
  | _ => trivial

theorem Linked.congr (h : Linked owner s b) (hth : s'.th (owner b.1) = s.th (owner b.1))
    (hblocks : s'.blocks b.1 b.2 = s.blocks b.1 b.2) : Linked owner s' b := by
  obtain ⟨h1, h2, h3, h4, h5, h6⟩ := h
  rw [← hth] at h1 h2 h3
  rw [← hblocks] at h4 h5 h6
  exact ⟨h1, h2, h3, h4, h5, h6⟩

/-! ### Stores -/

section Stores

variable [DecidableEq T] {x : ThreadWait St}

@[simp] theorem setTh_self : (s.setTh t x).th t = x :=
  update_self _ _ _

theorem setTh_of_ne {u : T} (hu : u ≠ t) : (s.setTh t x).th u = s.th u :=
  update_of_ne hu _ _

@[simp] theorem setTh_ended : (s.setTh t x).ended = s.ended := rfl

end Stores

section Blocks

variable [DecidableEq St] {b : WaitBlock T H} {j : ℕ} {st' : St}

@[simp] theorem setBlock_self : (s.setBlock st i b).blocks st i = b := by
  simp [WaitSys.setBlock]

theorem setBlock_of_ne (hj : j ≠ i) : (s.setBlock st i b).blocks st j = s.blocks st j := by
  simp [WaitSys.setBlock, hj]

theorem setBlock_other (hst : st' ≠ st) :
    (s.setBlock st i b).blocks st' = s.blocks st' := update_of_ne hst _ _

/-! ### `unlink_blocks` -/

/-- What the first `n` iterations of `unlink_blocks` do: they change the lists and the states of the
blocks only, and no block that they have passed is active or linked. -/
structure Unlinks (s s' : WaitSys T H St S) (st : St) (n : ℕ) : Prop where
  th : s'.th = s.th
  sig : s'.sig = s.sig
  emptied : s'.emptied = s.emptied
  ended : s'.ended = s.ended
  registered : s'.registered = s.registered
  other : ∀ st', st' ≠ st → s'.blocks st' = s.blocks st'
  later : ∀ j, n ≤ j → s'.blocks st j = s.blocks st j
  state : ∀ j < n, (s'.blocks st j).state ≠ .active
  sublist : ∀ p, (s'.lists p).Sublist (s.lists p)
  gone : ∀ p, (s.lists p).Nodup → ∀ j < n, (s.blocks st j).state = .active →
    (st, j) ∉ s'.lists p

theorem unlinkUpTo_unlinks (s : WaitSys T H St S) (st : St) (got : Option ℕ) (n : ℕ) :
    Unlinks s (unlinkUpTo s st got n) st n := by
  induction n with
  | zero =>
    exact ⟨rfl, rfl, rfl, rfl, rfl, fun _ _ => rfl, fun _ _ => rfl, nofun, fun _ => .refl _, nofun⟩
  | succ n ih =>
    simp only [unlinkUpTo, unlinkBlock]
    split
    case isTrue hs =>
      refine { ih with
        later := fun j hj => ih.later j (by omega)
        state := fun j hj => ?_
        gone := fun p hp j hj ha => ?_ }
      · by_cases hjn : j = n
        · exact hjn ▸ hs
        · exact ih.state j (by omega)
      · refine ih.gone p hp j (lt_of_le_of_ne (by omega) fun hjn => hs ?_) ha
        rw [ih.later n (le_refl n), ← hjn]
        exact ha
    case isFalse =>
      refine { ih with
        other := fun st' hst => (setBlock_other hst).trans (ih.other st' hst)
        later := fun j hj => (setBlock_of_ne (by omega)).trans (ih.later j (by omega))
        state := fun j hj => ?_
        sublist := fun p => List.erase_sublist.trans (ih.sublist p)
        gone := fun p hp j hj ha hm => ?_ }
      · by_cases hjn : j = n
        · rw [hjn, setBlock_self]
          dsimp only
          split <;> decide
        · rw [setBlock_of_ne hjn]
          exact ih.state j (by omega)
      · by_cases hjn : j = n
        · subst hjn
          exact (hp.sublist (ih.sublist p)).not_mem_erase hm
        · exact ih.gone p hp j (by omega) ha (List.mem_of_mem_erase hm)

theorem unlinkUpTo_th : (unlinkUpTo s st got n).th = s.th := (unlinkUpTo_unlinks s st got n).th

theorem unlinkBlocks_eq [DecidableEq T] (hst : (s.th t).activeWaitBlocks = some st) :
    unlinkBlocks s t got = unlinkUpTo s st got (s.th t).waitBlockCount := by
  simp only [unlinkBlocks, hst]

end Blocks

/-! ### Keeping the invariant -/

/-- A wait that was not over is done. -/
theorem ThreadOk.done {x x' : ThreadWait St} {ended ended' : ℕ → List WaitEnd}
    (h : ThreadOk x ended) (hx : ¬ x.over) (ha : x'.activeWaitBlocks = x.activeWaitBlocks)
    (he : x'.waitEpoch = x.waitEpoch) (hp : x'.pc = x.pc) (ht : x'.waitTimer = x.waitTimer)
    (hd : x'.waitDone = true ∧ x'.waitStatus = status ∧ x'.waitKey = key)
    (hn : ended' x.waitEpoch = ended x.waitEpoch ++ [.done status key])
    (ho : ∀ n, n ≠ x.waitEpoch → ended' n = ended n) : ThreadOk x' ended' := by
  obtain ⟨hdone, rfl, rfl⟩ := hd
  have hone : ended' x.waitEpoch = [.done x'.waitStatus x'.waitKey] := by
    rw [hn, h.current hx]
    rfl
  have hpos : 0 < x.waitEpoch := h.started fun hnone => hx (.inl hnone)
  have hover : x'.over := .inr hdone
  refine ⟨?_, ?_, ?_, fun hc => absurd hover hc, ?_, ?_, ?_, fun _ => hdone, ?_⟩
  · rw [he]
    exact fun _ => hpos
  · intro n hfut
    rw [he] at hfut
    rw [ho n (by omega)]
    exact h.future n hfut
  · intro n h0 hlt
    rw [he] at hlt
    rw [ho n (by omega)]
    exact h.past n h0 hlt
  · intro _ _
    rw [he, hone]
    rfl
  · intro _ _
    rw [he]
    exact hone
  · rw [hp, ha]
    exact h.completing
  · rw [hp, ht]
    exact h.timer

/-- A thread leaves a wait that has its end. -/
theorem ThreadOk.finish {x x' : ThreadWait St} {ended ended' : ℕ → List WaitEnd}
    (h : ThreadOk x ended) (hx : x.activeWaitBlocks ≠ none) (ha : x'.activeWaitBlocks = none)
    (he : x'.waitEpoch = x.waitEpoch) (hn : (ended' x.waitEpoch).length = 1)
    (ho : ∀ n, n ≠ x.waitEpoch → ended' n = ended n)
    (hpc : x'.pc = .running ∧ x'.waitTimer = false ∨ x'.pc = .deleting ∧ x'.waitDone = true) :
    ThreadOk x' ended' := by
  have hpos := h.started hx
  refine ⟨fun hc => absurd ha hc, ?_, ?_, fun hc => absurd (.inl ha) hc, ?_,
    fun hc => absurd ha hc, ?_, ?_, ?_⟩
  · intro n hfut
    rw [he] at hfut
    rw [ho n (by omega)]
    exact h.future n hfut
  · intro n h0 hlt
    rw [he] at hlt
    rw [ho n (by omega)]
    exact h.past n h0 hlt
  · intro _ _
    rw [he]
    exact hn
  · rcases hpc with ⟨hp, -⟩ | ⟨hp, -⟩ <;> rw [hp]
    · rintro (hc | ⟨a, hc⟩) <;> cases hc
    · rintro (hc | ⟨a, hc⟩) <;> cases hc
  · rcases hpc with ⟨hp, -⟩ | ⟨-, hd⟩
    · rw [hp]
      exact nofun
    · exact fun _ => hd
  · rcases hpc with ⟨-, ht⟩ | ⟨hp, -⟩
    · rw [ht]
      exact nofun
    · exact fun _ => .inr hp

/-- A thread is changed, and none of its blocks is linked after the change. -/
theorem WaitOk.change (h : WaitOk owner s) (hth : ∀ u, u ≠ t → s'.th u = s.th u)
    (hended : ∀ u, u ≠ t → s'.ended u = s.ended u) (hthread : ThreadOk (s'.th t) (s'.ended t))
    (hepoch : (s.th t).waitEpoch ≤ (s'.th t).waitEpoch)
    (hactive : ∀ st, (s'.th t).activeWaitBlocks = some st → owner st = t ∧
      ((s'.th t).waitDone = true →
        ∀ i < (s'.th t).waitBlockCount, (s'.blocks st i).state ≠ .active))
    (hsub : ∀ p, (s'.lists p).Sublist (s.lists p)) (hgone : ∀ p, ∀ b ∈ s'.lists p, owner b.1 ≠ t)
    (hblocks : ∀ st, owner st ≠ t → s'.blocks st = s.blocks st) (hsig : s'.sig = s.sig)
    (hreg : s'.registered = s.registered) : WaitOk owner s' := by
  have hepochs : ∀ u, (s.th u).waitEpoch ≤ (s'.th u).waitEpoch := by
    intro u
    by_cases hut : u = t
    · rw [hut]
      exact hepoch
    · rw [hth u hut]
  refine ⟨?_, ?_, fun p => (h.nodup p).sublist (hsub p), ?_, ?_, ?_, ?_, ?_, ?_⟩
  · intro p b hb
    have hne := hgone p b hb
    exact (h.linked p b ((hsub p).subset hb)).congr (hth _ hne) (by rw [hblocks _ hne])
  · intro k b hb
    rw [hreg, hth _ (hgone _ b hb)]
    exact h.header k b ((hsub _).subset hb)
  · exact fun p p' b hp hp' => h.once p p' b ((hsub p).subset hp) ((hsub p').subset hp')
  · intro u st hu
    by_cases hut : u = t
    · rw [hut] at hu ⊢
      exact (hactive st hu).1
    · rw [hth u hut] at hu
      exact h.owns u st hu
  · intro u st hu hd
    by_cases hut : u = t
    · rw [hut] at hu hd ⊢
      exact (hactive st hu).2 hd
    rw [hth u hut] at hu hd ⊢
    have hne : owner st ≠ t := by
      rw [h.owns u st hu]
      exact hut
    rw [hblocks st hne]
    exact h.unlinked u st hu hd
  · intro u
    by_cases hut : u = t
    · rw [hut]
      exact hthread
    · rw [hth u hut, hended u hut]
      exact h.threads u
  · intro u n k hn
    rw [hreg]
    exact h.fresh u n k ((hepochs u).trans_lt hn)
  · intro r
    rw [hsig]
    exact (h.signals r).mono hepochs (by simp [hreg])

/-- The blocks of a wait are unlinked, and the thread is changed. It leaves the wait, or the blocks
are still its own. -/
theorem WaitOk.unlink {w : WaitSys T H St S} (h : WaitOk owner s)
    (hst : (s.th t).activeWaitBlocks = some st) (hw : Unlinks s w st (s.th t).waitBlockCount)
    (hth : ∀ u, u ≠ t → s'.th u = s.th u) (hended : ∀ u, u ≠ t → s'.ended u = s.ended u)
    (hthread : ThreadOk (s'.th t) (s'.ended t)) (hepoch : (s.th t).waitEpoch ≤ (s'.th t).waitEpoch)
    (hactive : (s'.th t).activeWaitBlocks = none ∨ (s'.th t).activeWaitBlocks = some st ∧
      (s'.th t).waitBlockCount = (s.th t).waitBlockCount)
    (hlists : s'.lists = w.lists) (hblocks : s'.blocks = w.blocks) (hsig : s'.sig = w.sig)
    (hreg : s'.registered = w.registered) : WaitOk owner s' := by
  refine h.change hth hended hthread hepoch (fun st' hst' => ?_) ?_ ?_ ?_ (hsig.trans hw.sig)
    (hreg.trans hw.registered)
  · rcases hactive with hnone | ⟨hsome, hcount⟩
    · rw [hnone] at hst'
      cases hst'
    · obtain rfl := Option.some.inj (hsome.symm.trans hst')
      rw [hblocks, hcount]
      exact ⟨h.owns t st hst, fun _ => hw.state⟩
  · rw [hlists]
    exact hw.sublist
  · intro p b hb ho
    rw [hlists] at hb
    have hl := h.linked p b ((hw.sublist p).subset hb)
    have hown := hl.active
    have hcount := hl.count
    rw [ho] at hown hcount
    obtain rfl := Option.some.inj (hst.symm.trans hown)
    exact hw.gone p (h.nodup p) _ hcount hl.state hb
  · intro st' hne
    rw [hblocks]
    refine hw.other st' ?_
    rintro rfl
    exact hne (h.owns t st' hst)

/-- A thread is changed, but not its wait; the number of blocks may change until the wait is done,
if the linked blocks count. -/
theorem WaitOk.touch (h : WaitOk owner s) (hth : ∀ u, u ≠ t → s'.th u = s.th u)
    (hx : (s'.th t).activeWaitBlocks = (s.th t).activeWaitBlocks ∧
      (s'.th t).waitDone = (s.th t).waitDone ∧ (s'.th t).waitEpoch = (s.th t).waitEpoch)
    (hcount : (s'.th t).waitBlockCount = (s.th t).waitBlockCount ∨ (s.th t).waitDone = false ∧
      ∀ p, ∀ b ∈ s.lists p, owner b.1 = t → b.2 < (s'.th t).waitBlockCount)
    (hthread : ThreadOk (s'.th t) (s.ended t)) (hblocks : s'.blocks = s.blocks)
    (hlists : s'.lists = s.lists) (hended : s'.ended = s.ended) (hsig : s'.sig = s.sig)
    (hreg : s'.registered = s.registered) : WaitOk owner s' := by
  have hall : ∀ u, (s'.th u).activeWaitBlocks = (s.th u).activeWaitBlocks ∧
      (s'.th u).waitDone = (s.th u).waitDone ∧ (s'.th u).waitEpoch = (s.th u).waitEpoch := by
    intro u
    by_cases hut : u = t
    · rw [hut]
      exact hx
    · rw [hth u hut]
      exact ⟨rfl, rfl, rfl⟩
  refine ⟨?_, ?_, hlists ▸ h.nodup, hlists ▸ h.once, ?_, ?_, ?_, ?_, ?_⟩
  · intro p b hb
    rw [hlists] at hb
    obtain ⟨h1, h2, h3, h4, h5, h6⟩ := h.linked p b hb
    obtain ⟨ha, hd, -⟩ := hall (owner b.1)
    refine ⟨ha.trans h1, ?_, hd.trans h3, hblocks ▸ h4, hblocks ▸ h5, hblocks ▸ h6⟩
    by_cases ho : owner b.1 = t
    · rw [ho] at h2 ⊢
      rcases hcount with hc | ⟨-, hc⟩
      · exact hc ▸ h2
      · exact hc p b hb ho
    · rw [hth _ ho]
      exact h2
  · intro k b hb
    rw [hlists] at hb
    rw [hreg, (hall _).2.2]
    exact h.header k b hb
  · intro u st hu
    rw [(hall u).1] at hu
    exact h.owns u st hu
  · intro u st hu hd
    rw [(hall u).1] at hu
    rw [(hall u).2.1] at hd
    have hc : (s'.th u).waitBlockCount = (s.th u).waitBlockCount := by
      by_cases hut : u = t
      · subst hut
        exact hcount.resolve_right fun hc => Bool.false_ne_true (hc.1.symm.trans hd)
      · rw [hth u hut]
    rw [hc, hblocks]
    exact h.unlinked u st hu hd
  · intro u
    rw [hended]
    by_cases hut : u = t
    · rw [hut]
      exact hthread
    · rw [hth u hut]
      exact h.threads u
  · intro u n k hn
    rw [(hall u).2.2] at hn
    rw [hreg]
    exact h.fresh u n k hn
  · intro r
    rw [hsig]
    exact (h.signals r).mono (fun u => (hall u).2.2.ge) (by simp [hreg])

/-- A block of a wait that has not ended is linked on a header. -/
theorem WaitOk.link (h : WaitOk owner s) (hst : (s.th t).activeWaitBlocks = some st)
    (hpend : (s.th t).waitDone = false) (hi : i < (s.th t).waitBlockCount) {k : H}
    (hnot : ∀ p, (st, i) ∉ s.lists p) (hnone : s.registered t (s.th t).waitEpoch i = none)
    (hth : s'.th = s.th) (hb : s'.blocks st i = ⟨t, i, .active, k⟩)
    (hblocks : ∀ st' j, ¬ (st' = st ∧ j = i) → s'.blocks st' j = s.blocks st' j)
    (hl : s'.lists (.waiters k) = s.lists (.waiters k) ++ [(st, i)])
    (hl' : ∀ p, p ≠ .waiters k → s'.lists p = s.lists p) (hended : s'.ended = s.ended)
    (hsig : s'.sig = s.sig) (hreg : s'.registered t (s.th t).waitEpoch i = some k)
    (hreg' : ∀ u n j, ¬ (u = t ∧ n = (s.th t).waitEpoch ∧ j = i) →
      s'.registered u n j = s.registered u n j) : WaitOk owner s' := by
  have howner := h.owns t st hst
  -- the list of the header has the new block in addition, the other lists are as they were
  have hmem : ∀ p b, b ∈ s'.lists p ↔ b ∈ s.lists p ∨ p = .waiters k ∧ b = (st, i) := by
    intro p b
    by_cases hp : p = .waiters k
    · subst hp
      rw [hl]
      simp
    · rw [hl' p hp]
      simp [hp]
  refine ⟨?_, ?_, ?_, ?_, ?_, ?_, ?_, ?_, ?_⟩
  · intro p b hb'
    rcases (hmem p b).mp hb' with hold | ⟨-, rfl⟩
    · refine (h.linked p b hold).congr (by rw [hth]) (hblocks _ _ ?_)
      rintro ⟨rfl, rfl⟩
      exact hnot p hold
    refine ⟨?_, ?_, ?_, ?_, ?_, ?_⟩
    · rw [hth, howner]
      exact hst
    · rw [hth, howner]
      exact hi
    · rw [hth, howner]
      exact hpend
    · rw [hb]
    · rw [hb, howner]
    · rw [hb]
  · intro k' b hb'
    rw [hth]
    rcases (hmem _ b).mp hb' with hold | ⟨hk, rfl⟩
    · have hold' := h.header k' b hold
      rw [hreg' _ _ _ ?_]
      · exact hold'
      · rintro ⟨hu, hn, hj⟩
        rw [hu, hj, hnone] at hold'
        cases hold'
    · cases hk
      rw [howner]
      exact hreg
  · intro p
    by_cases hp : p = .waiters k
    · subst hp
      rw [hl]
      refine List.nodup_append.mpr ⟨h.nodup _, List.nodup_singleton _, ?_⟩
      rintro x hx y hy rfl
      exact hnot _ (List.mem_singleton.mp hy ▸ hx)
    · rw [hl' p hp]
      exact h.nodup p
  · intro p p' b hp hp'
    rcases (hmem p b).mp hp with hold | ⟨hk, rfl⟩ <;>
      rcases (hmem p' _).mp hp' with hold' | ⟨hk', hb'⟩
    · exact h.once p p' b hold hold'
    · rw [hb'] at hold
      exact absurd hold (hnot p)
    · exact absurd hold' (hnot p')
    · rw [hk, hk']
  · rw [hth]
    exact h.owns
  · intro u st' hu hd j hj
    rw [hth] at hu hd hj
    rw [hblocks]
    · exact h.unlinked u st' hu hd j hj
    rintro ⟨rfl, rfl⟩
    rw [h.owns u st' hu] at howner
    rw [howner, hpend] at hd
    cases hd
  · rw [hth, hended]
    exact h.threads
  · intro u n j hn
    rw [hth] at hn
    rw [hreg']
    · exact h.fresh u n j hn
    · rintro ⟨rfl, rfl, -⟩
      omega
  · intro r
    rw [hsig]
    refine (h.signals r).mono (by simp [hth]) fun u n j k' hu => ?_
    rw [hreg']
    · exact hu
    · rintro ⟨rfl, rfl, rfl⟩
      rw [hnone] at hu
      cases hu

/-- Blocks leave their lists, and a call gets on. -/
theorem WaitOk.signal (h : WaitOk owner s) (hth : s'.th = s.th) (hblocks : s'.blocks = s.blocks)
    (hended : s'.ended = s.ended) (hreg : s'.registered = s.registered)
    (hlinked : ∀ p, ∀ b ∈ s'.lists p, ∃ p', b ∈ s.lists p')
    (hheader : ∀ k, ∀ b ∈ s'.lists (.waiters k), b ∈ s.lists (.waiters k))
    (hnodup : ∀ p, (s'.lists p).Nodup) (honce : ∀ p p' b, b ∈ s'.lists p → b ∈ s'.lists p' → p = p')
    (hsig : ∀ r, SigOk s (s'.sig r)) : WaitOk owner s' := by
  refine ⟨?_, ?_, hnodup, honce, ?_, ?_, ?_, ?_, ?_⟩
  · intro p b hb
    obtain ⟨p', hb'⟩ := hlinked p b hb
    exact (h.linked p' b hb').congr (by rw [hth]) (by rw [hblocks])
  · intro k b hb
    rw [hreg, hth]
    exact h.header k b (hheader k b hb)
  · rw [hth]
    exact h.owns
  · rw [hth, hblocks]
    exact h.unlinked
  · rw [hth, hended]
    exact h.threads
  · rw [hth, hreg]
    exact h.fresh
  · exact fun r => (hsig r).mono (by simp [hth]) (by simp [hreg])

/-- A block that is not linked is written, and is not active after it. -/
theorem WaitOk.setBlock [DecidableEq St] (h : WaitOk owner s) {b : WaitBlock T H}
    (hnot : ∀ p, (st, i) ∉ s.lists p) (hb : b.state ≠ .active) :
    WaitOk owner (s.setBlock st i b) := by
  have hsame : ∀ st' j, ¬ (st' = st ∧ j = i) →
      (s.setBlock st i b).blocks st' j = s.blocks st' j := by
    intro st' j hne
    by_cases hst : st' = st
    · subst hst
      exact setBlock_of_ne fun hj => hne ⟨rfl, hj⟩
    · rw [setBlock_other hst]
  refine ⟨?_, h.header, h.nodup, h.once, h.owns, ?_, h.threads, h.fresh, h.signals⟩
  · intro p c hc
    refine (h.linked p c hc).congr rfl (hsame _ _ ?_)
    rintro ⟨rfl, rfl⟩
    exact hnot p hc
  · intro u st' hu hd j hj
    by_cases hne : st' = st ∧ j = i
    · obtain ⟨rfl, rfl⟩ := hne
      rw [setBlock_self]
      exact hb
    · rw [hsame _ _ hne]
      exact h.unlinked u st' hu hd j hj

/-- The number of blocks of a wait that has not ended is changed. -/
theorem WaitOk.setCount [DecidableEq T] (h : WaitOk owner s)
    (hst : (s.th t).activeWaitBlocks = some st) (hpend : (s.th t).waitDone = false)
    (hn : ∀ p j, (st, j) ∈ s.lists p → j < n) :
    WaitOk owner (s.setTh t { s.th t with waitBlockCount := n }) := by
  refine h.touch (fun u hu => setTh_of_ne hu) (by simp) (.inr ⟨hpend, ?_⟩) ?_ rfl rfl rfl rfl rfl
  · intro p b hb ho
    have hactive := (h.linked p b hb).active
    rw [ho, hst] at hactive
    obtain ⟨⟩ := hactive
    rw [setTh_self]
    exact hn p b.2 hb
  · rw [setTh_self]
    exact { h.threads t with }

end Charmos.Thread
