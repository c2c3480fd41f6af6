import Charmos.Sync.Turnstile

/-!
# Conservation of turnstiles

Turnstiles are neither lost nor shared: each is owned by one thread, on one freelist, or in the hash
table. Every step keeps this and none of its checks fails (`tsRun_sound`).
-/

namespace Charmos.Sync

open List Option Turnstile Function

variable {T U O H : Type}

/-- Each thread that is not blocked owns one turnstile, and no turnstile is in two places. Inside a
critical section one thread may be without: it has lent its turnstile and is not queued yet, or has
left its queue and taken none yet. -/
structure OwnOk (s : TsSys T U O H) (lent : Option (T × U)) : Prop where
  own : ∀ t, s.turnstile t = none ↔ (s.blockedTs t).isSome = true ∨ ∃ u, lent = some (t, u)
  lender : ∀ t u, lent = some (t, u) → s.blockedTs t = none ∧ (s.ts u).lockObj.isSome = true
  inj : ∀ t t' u, s.turnstile t = some u → s.turnstile t' = some u → t = t'
  unused : ∀ t u, s.turnstile t = some u → (s.ts u).state = .unused
  free : ∀ u, ∀ v ∈ (s.ts u).freelist, (s.ts v).state = .inFreeList
  freeInj : ∀ u u' v, v ∈ (s.ts u).freelist → v ∈ (s.ts u').freelist → u = u'
  freeNodup : ∀ u, (s.ts u).freelist.Nodup

/-- The table has one turnstile for a lock object, in the chain of the object. -/
structure TableOk (hash : O → H) (s : TsSys T U O H) : Prop where
  state : ∀ u, (s.ts u).state = .inHashTable ↔ (s.ts u).lockObj.isSome = true
  chain : ∀ h u, u ∈ s.chains h ↔ ∃ o, (s.ts u).lockObj = some o ∧ hash o = h
  nodup : ∀ h, (s.chains h).Nodup
  inj : ∀ u u' o, (s.ts u).lockObj = some o → (s.ts u').lockObj = some o → u = u'

/-- All the threads queued on a turnstile. -/
def Turnstile.queued (x : Turnstile T U O) : List T := x.queues .writer ++ x.queues .reader

/-- The waiters of a turnstile are the threads in its two queues, which are sorted, and one more
than the turnstiles on its freelist, counting a thread that has lent it one. -/
structure QueuesOk (s : TsSys T U O H) (lent : Option (T × U)) : Prop where
  idle : ∀ u, (s.ts u).lockObj = none →
    (s.ts u).waiters = 0 ∧ (s.ts u).freelist = [] ∧ (s.ts u).queued = []
  free : ∀ u, (s.ts u).lockObj.isSome = true → (∀ t, lent ≠ some (t, u)) →
    (s.ts u).waiters = 1 + (s.ts u).freelist.length
  lentFree : ∀ t u, lent = some (t, u) → (s.ts u).waiters = (s.ts u).freelist.length
  waiters : ∀ u, (s.ts u).waiters = (s.ts u).queued.length
  blocked : ∀ t u, s.blockedTs t = some u ↔ t ∈ (s.ts u).queued
  nodup : ∀ u, (s.ts u).queued.Nodup
  sorted : ∀ u q, SortedByKey s.wqPrio ((s.ts u).queues q)

/-- A thread that is blocked or is to be woken waits. -/
structure WaitsOk (s : TsSys T U O H) : Prop where
  blocked : ∀ t, (s.blockedTs t).isSome = true → s.waiting t = true
  waking : ∀ t ∈ s.wakeList, s.waiting t = true ∧ s.blockedTs t = none
  nodup : s.wakeList.Nodup

/-- The turnstiles, their table and their queues. -/
structure ConserveOk (hash : O → H) (s : TsSys T U O H) (lent : Option (T × U)) : Prop where
  own : OwnOk s lent
  table : TableOk hash s
  queues : QueuesOk s lent

/-- The invariant. -/
structure TsOk (hash : O → H) (s : TsSys T U O H) : Prop where
  conserve : ConserveOk hash s none
  waits : WaitsOk s

namespace Turnstile

variable {x : Turnstile T U O} {t : T} {q : TsQueue} {l : List T} {r : TsQueue}

theorem mem_queued : t ∈ x.queued ↔ ∃ q, t ∈ x.queues q := by
  simp only [queued, mem_append]
  refine ⟨?_, ?_⟩
  · rintro (h | h)
    · exact ⟨_, h⟩
    · exact ⟨_, h⟩
  · rintro ⟨q, h⟩
    cases q with
    | writer => exact .inl h
    | reader => exact .inr h

theorem queues_nodup (h : x.queued.Nodup) : (x.queues q).Nodup := by
  obtain ⟨hw, hr, -⟩ := nodup_append.mp h
  cases q with
  | writer => exact hw
  | reader => exact hr

/-- A thread is in one of the two queues only. -/
theorem queue_unique (h : x.queued.Nodup) (hq : t ∈ x.queues q) (hr : t ∈ x.queues r) : q = r := by
  obtain ⟨-, -, hdisj⟩ := nodup_append.mp h
  cases q <;> cases r
  · rfl
  · exact absurd rfl (hdisj t hq t hr)
  · exact absurd rfl (hdisj t hr t hq)
  · rfl

@[simp] theorem setQueue_queues_self : (x.setQueue q l).queues q = l := update_self _ _ _

theorem setQueue_queues_of_ne (h : r ≠ q) :
    (x.setQueue q l).queues r = x.queues r := update_of_ne h _ _

/-- The threads that are queued are those of one queue and of the other. -/
private theorem exists_other (x : Turnstile T U O) (q : TsQueue) :
    ∃ r, x.queued.Perm (x.queues q ++ r) ∧ ∀ l, (x.setQueue q l).queued.Perm (l ++ r) := by
  cases q with
  | writer => exact ⟨x.queues .reader, .refl _, fun l => .refl _⟩
  | reader => exact ⟨x.queues .writer, perm_append_comm, fun l => perm_append_comm⟩

/-- A queue is replaced by one with one more element. -/
theorem setQueue_queued_cons (h : l.Perm (t :: x.queues q)) :
    (x.setQueue q l).queued.Perm (t :: x.queued) := by
  obtain ⟨r, hx, hset⟩ := exists_other x q
  exact (hset l).trans ((h.append_right r).trans (hx.symm.cons t))

/-- A queue is reordered. -/
theorem setQueue_queued_perm (h : l.Perm (x.queues q)) : (x.setQueue q l).queued.Perm x.queued := by
  obtain ⟨r, hx, hset⟩ := exists_other x q
  exact (hset l).trans ((h.append_right r).trans hx.symm)

/-- An element is taken out of a queue. -/
theorem setQueue_queued_erase [DecidableEq T] (h : t ∈ x.queues q) :
    x.queued.Perm (t :: (x.setQueue q ((x.queues q).erase t)).queued) := by
  have hperm : (x.queues q).Perm (t :: (x.setQueue q ((x.queues q).erase t)).queues q) := by
    rw [setQueue_queues_self]
    exact perm_cons_erase h
  have hback : ((x.setQueue q ((x.queues q).erase t)).setQueue q (x.queues q)).queued =
      x.queued := by
    simp [setQueue, queued]
  rw [← hback]
  exact setQueue_queued_cons hperm

end Turnstile

/-! ### The parts of the invariant -/

section Parts

variable {hash : O → H} {s s' : TsSys T U O H} {t : T} {u v my : U} {x : Turnstile T U O}
  {lent lent' : Option (T × U)}

/-- The thread `t` changes, and turnstiles change their places: one that `t` has got was not unused,
and one that `u` has got on its freelist was on none. -/
private theorem OwnOk.move (h : OwnOk s lent) (hlent : ∀ r w, lent = some (r, w) → r = t)
    (hlent' : ∀ r w, lent' = some (r, w) →
      r = t ∧ s'.blockedTs t = none ∧ (s'.ts w).lockObj.isSome = true)
    (ht : ∀ r, r ≠ t → s'.turnstile r = s.turnstile r ∧ s'.blockedTs r = s.blockedTs r)
    (own : s'.turnstile t = none ↔ (s'.blockedTs t).isSome = true ∨ ∃ w, lent' = some (t, w))
    (hold : ∀ r w, s'.turnstile r = some w →
      s.turnstile r = some w ∧ (s'.ts w).state = (s.ts w).state ∨
        r = t ∧ (s'.ts w).state = .unused ∧ (s.ts w).state ≠ .unused)
    (hfree : ∀ w, ∀ y ∈ (s'.ts w).freelist,
      y ∈ (s.ts w).freelist ∧ (s'.ts y).state = (s.ts y).state ∨
        w = u ∧ (s'.ts y).state = .inFreeList ∧ (s.ts y).state ≠ .inFreeList)
    (hnodup : ∀ w, (s'.ts w).freelist.Nodup) : OwnOk s' lent' := by
  refine ⟨?_, ?_, ?_, ?_, ?_, ?_, hnodup⟩
  · intro r
    by_cases hr : r = t
    · rw [hr]
      exact own
    rw [(ht r hr).1, (ht r hr).2, h.own r]
    refine or_congr_right ⟨?_, ?_⟩
    · rintro ⟨w, hw⟩
      exact absurd (hlent r w hw) hr
    · rintro ⟨w, hw⟩
      exact absurd (hlent' r w hw).1 hr
  · intro r w hw
    obtain ⟨rfl, hb⟩ := hlent' r w hw
    exact hb
  · intro r r' w hr hr'
    rcases hold r w hr with ⟨hr, -⟩ | ⟨rfl, -, hne⟩ <;>
      rcases hold r' w hr' with ⟨hr', -⟩ | ⟨rfl, -, hne'⟩
    · exact h.inj r r' w hr hr'
    · exact absurd (h.unused r w hr) hne'
    · exact absurd (h.unused r' w hr') hne
    · rfl
  · intro r w hr
    rcases hold r w hr with ⟨hr, hs⟩ | ⟨-, hs, -⟩
    · exact hs.trans (h.unused r w hr)
    · exact hs
  · intro w y hy
    rcases hfree w y hy with ⟨hy, hs⟩ | ⟨-, hs, -⟩
    · exact hs.trans (h.free w y hy)
    · exact hs
  · intro w w' y hy hy'
    rcases hfree w y hy with ⟨hy, -⟩ | ⟨rfl, -, hne⟩ <;>
      rcases hfree w' y hy' with ⟨hy', -⟩ | ⟨rfl, -, hne'⟩
    · exact h.freeInj w w' y hy hy'
    · exact absurd (h.free w y hy) hne'
    · exact absurd (h.free w' y hy') hne
    · rfl

/-- No turnstile changes its place. -/
theorem OwnOk.congr (u : U) (h : OwnOk s lent) (hlent : ∀ r w, lent = some (r, w) → r = t)
    (hlent' : ∀ r w, lent' = some (r, w) →
      r = t ∧ s'.blockedTs t = none ∧ (s'.ts w).lockObj.isSome = true)
    (ht : s'.turnstile = s.turnstile) (hb : ∀ r, r ≠ t → s'.blockedTs r = s.blockedTs r)
    (own : s.turnstile t = none ↔ (s'.blockedTs t).isSome = true ∨ ∃ w, lent' = some (t, w))
    (hts : ∀ w, (s'.ts w).freelist = (s.ts w).freelist ∧ (s'.ts w).state = (s.ts w).state) :
    OwnOk s' lent' := by
  refine h.move (u := u) hlent hlent' (fun r hr => ⟨by rw [ht], hb r hr⟩) (by rw [ht]; exact own)
    ?_ ?_ ?_
  · exact fun r w hw => .inl ⟨ht ▸ hw, (hts w).2⟩
  · exact fun w y hy => .inl ⟨(hts w).1 ▸ hy, (hts y).2⟩
  · intro w
    rw [(hts w).1]
    exact h.freeNodup w

/-- A turnstile that is owned is on no freelist. -/
theorem OwnOk.not_mem_freelist (h : OwnOk s lent) (hmy : s.turnstile t = some my) (w : U) :
    my ∉ (s.ts w).freelist := by
  intro hm
  have := h.free w my hm
  rw [h.unused t my hmy] at this
  cases this

/-- A thread that owns a turnstile is not blocked. -/
private theorem OwnOk.not_blocked (h : OwnOk s none) (hmy : s.turnstile t = some my) :
    s.blockedTs t = none := by
  have hn := (h.own t).not.mp (by simp [hmy])
  cases hb : s.blockedTs t with
  | none => rfl
  | some w => exact absurd (.inl (by simp [hb])) hn

/-- A thread gives up its turnstile `my`, which goes to the table or to the freelist of `u`. -/
theorem OwnOk.lend [DecidableEq T] (h : OwnOk s none) (hmy : s.turnstile t = some my)
    (ht : s'.turnstile = update s.turnstile t none) (hb : s'.blockedTs = s.blockedTs)
    (hstate : ∀ w, w ≠ my → (s'.ts w).state = (s.ts w).state) (hu : (s'.ts u).lockObj.isSome = true)
    (hfree : ∀ w, ∀ y ∈ (s'.ts w).freelist,
      y ∈ (s.ts w).freelist ∨ w = u ∧ y = my ∧ (s'.ts my).state = .inFreeList)
    (hnodup : ∀ w, (s'.ts w).freelist.Nodup) : OwnOk s' (some (t, u)) := by
  refine h.move (t := t) (u := u) nofun ?_ ?_ ?_ ?_ ?_ hnodup
  · rintro r w ⟨⟩
    rw [hb]
    exact ⟨rfl, h.not_blocked hmy, hu⟩
  · intro r hr
    rw [ht, hb, update_of_ne hr]
    exact ⟨rfl, rfl⟩
  · rw [ht, update_self]
    exact iff_of_true rfl (.inr ⟨u, rfl⟩)
  · intro r w hw
    have hr : r ≠ t := by
      rintro rfl
      rw [ht, update_self] at hw
      cases hw
    rw [ht, update_of_ne hr] at hw
    refine .inl ⟨hw, hstate w ?_⟩
    rintro rfl
    exact hr (h.inj r t w hw hmy)
  · intro w y hy
    rcases hfree w y hy with hy | ⟨rfl, rfl, hs⟩
    · refine .inl ⟨hy, hstate y ?_⟩
      rintro rfl
      exact h.not_mem_freelist hmy w hy
    · refine .inr ⟨rfl, hs, ?_⟩
      rw [h.unused t y hmy]
      decide

/-- The lender is given a turnstile that was not unused and is on no freelist. -/
theorem OwnOk.give [DecidableEq T] (h : OwnOk s (some (t, u))) {got : U}
    (hgot : (s.ts got).state ≠ .unused) (hgot' : (s'.ts got).state = .unused)
    (ht : s'.turnstile = update s.turnstile t (some got)) (hb : s'.blockedTs = s.blockedTs)
    (hstate : ∀ w, w ≠ got → (s'.ts w).state = (s.ts w).state)
    (hfree : ∀ w, ∀ y ∈ (s'.ts w).freelist, y ∈ (s.ts w).freelist ∧ y ≠ got)
    (hnodup : ∀ w, (s'.ts w).freelist.Nodup) : OwnOk s' none := by
  refine h.move (t := t) (u := u) ?_ nofun ?_ ?_ ?_ ?_ hnodup
  · rintro r w ⟨⟩
    rfl
  · intro r hr
    rw [ht, hb, update_of_ne hr]
    exact ⟨rfl, rfl⟩
  · rw [ht, update_self, hb, (h.lender t u rfl).1]
    exact iff_of_false nofun (by simp)
  · intro r w hw
    by_cases hr : r = t
    · rw [ht, hr, update_self] at hw
      obtain ⟨⟩ := hw
      exact .inr ⟨hr, hgot', hgot⟩
    · rw [ht, update_of_ne hr] at hw
      refine .inl ⟨hw, hstate w ?_⟩
      rintro rfl
      exact hgot (h.unused r w hw)
  · exact fun w y hy => .inl ⟨(hfree w y hy).1, hstate y (hfree w y hy).2⟩

/-- The table when no turnstile has entered or left it. -/
theorem TableOk.congr (h : TableOk hash s) (hc : s'.chains = s.chains)
    (hts : ∀ w, (s'.ts w).lockObj = (s.ts w).lockObj ∧
      ((s'.ts w).state = .inHashTable ↔ (s.ts w).state = .inHashTable)) : TableOk hash s' := by
  refine ⟨?_, ?_, ?_, ?_⟩
  · intro w
    rw [(hts w).1, (hts w).2]
    exact h.state w
  · intro k w
    rw [hc, (hts w).1]
    exact h.chain k w
  · rw [hc]
    exact h.nodup
  · intro w w' o
    rw [(hts w).1, (hts w').1]
    exact h.inj w w' o

/-- The turnstile `v` enters or leaves the table. -/
theorem TableOk.move (h : TableOk hash s) (hts : ∀ w, w ≠ v → s'.ts w = s.ts w)
    (hv : (s'.ts v).state = .inHashTable ↔ (s'.ts v).lockObj.isSome = true)
    (hnew : ∀ w o, (s'.ts v).lockObj = some o → (s.ts w).lockObj ≠ some o)
    (hc : ∀ k w, w ∈ s'.chains k ↔
      w ≠ v ∧ w ∈ s.chains k ∨ w = v ∧ ∃ o, (s'.ts v).lockObj = some o ∧ hash o = k)
    (hnodup : ∀ k, (s'.chains k).Nodup) : TableOk hash s' := by
  refine ⟨?_, ?_, hnodup, ?_⟩
  · intro w
    by_cases hw : w = v
    · rw [hw]
      exact hv
    · rw [hts w hw]
      exact h.state w
  · intro k w
    rw [hc]
    by_cases hw : w = v
    · simp [hw]
    · simp [hw, hts w hw, h.chain k w]
  · intro w w' o hwo hwo'
    by_cases hw : w = v <;> by_cases hw' : w' = v
    · rw [hw, hw']
    · rw [hw] at hwo
      rw [hts w' hw'] at hwo'
      exact absurd hwo' (hnew w' o hwo)
    · rw [hw'] at hwo'
      rw [hts w hw] at hwo
      exact absurd hwo (hnew w o hwo')
    · rw [hts w hw] at hwo
      rw [hts w' hw'] at hwo'
      exact h.inj w w' o hwo hwo'

/-- A turnstile that is not in the table has no object. -/
theorem TableOk.lockObj_none (h : TableOk hash s) (hu : (s.ts u).state ≠ .inHashTable) :
    (s.ts u).lockObj = none := by
  rw [ne_eq, h.state u] at hu
  simpa using hu

/-- A turnstile with a queued thread has an object. -/
theorem QueuesOk.isSome_of_mem (h : QueuesOk s lent) (ht : t ∈ (s.ts u).queued) :
    (s.ts u).lockObj.isSome = true := by
  by_contra hn
  rw [(h.idle u (by simpa using hn)).2.2] at ht
  cases ht

/-- The turnstile `u` becomes `x`, and the queues and freelists of the others stay. -/
theorem QueuesOk.change (h : QueuesOk s lent) (hlent : ∀ r w, lent = some (r, w) → w = u)
    (hlent' : ∀ r w, lent' = some (r, w) → w = u) (hx : s'.ts u = x)
    (hts : ∀ w, w ≠ u → ∃ state, s'.ts w = { s.ts w with state := state })
    (hb : ∀ r w, w ≠ u → (s'.blockedTs r = some w ↔ s.blockedTs r = some w))
    (hkey : ∀ w r, w ≠ u → ∀ y ∈ (s.ts w).queues r, s'.wqPrio y = s.wqPrio y)
    (idle : x.lockObj = none → x.waiters = 0 ∧ x.freelist = [] ∧ x.queued = [])
    (free : x.lockObj.isSome = true → lent' = none → x.waiters = 1 + x.freelist.length)
    (lentFree : lent' ≠ none → x.waiters = x.freelist.length)
    (waiters : x.waiters = x.queued.length) (blocked : ∀ r, s'.blockedTs r = some u ↔ r ∈ x.queued)
    (nodup : x.queued.Nodup) (sorted : ∀ r, SortedByKey s'.wqPrio (x.queues r)) :
    QueuesOk s' lent' := by
  refine ⟨?_, ?_, ?_, ?_, ?_, ?_, ?_⟩
  · intro w
    by_cases hw : w = u
    · rw [hw, hx]
      exact idle
    · obtain ⟨a, ha⟩ := hts w hw
      rw [ha]
      exact h.idle w
  · intro w hwo hl
    by_cases hw : w = u
    · subst hw
      rw [hx] at hwo ⊢
      refine free hwo (eq_none_iff_forall_ne_some.mpr ?_)
      rintro ⟨r, w'⟩ hr
      obtain rfl := hlent' r w' hr
      exact hl r hr
    · obtain ⟨a, ha⟩ := hts w hw
      rw [ha] at hwo ⊢
      exact h.free w hwo fun r hr => hw (hlent r w hr)
  · intro r w hr
    obtain rfl := hlent' r w hr
    rw [hx]
    exact lentFree (by rw [hr]; nofun)
  · intro w
    by_cases hw : w = u
    · rw [hw, hx]
      exact waiters
    · obtain ⟨a, ha⟩ := hts w hw
      rw [ha]
      exact h.waiters w
  · intro r w
    by_cases hw : w = u
    · rw [hw, hx]
      exact blocked r
    · obtain ⟨a, ha⟩ := hts w hw
      rw [ha, hb r w hw]
      exact h.blocked r w
  · intro w
    by_cases hw : w = u
    · rw [hw, hx]
      exact nodup
    · obtain ⟨a, ha⟩ := hts w hw
      rw [ha]
      exact h.nodup w
  · intro w r
    by_cases hw : w = u
    · rw [hw, hx]
      exact sorted r
    · obtain ⟨a, ha⟩ := hts w hw
      rw [ha]
      exact (h.sorted w r).congr (hkey w r hw)

end Parts

end Charmos.Sync
