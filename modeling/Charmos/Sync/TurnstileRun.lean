import Charmos.Sync.TurnstileSpec

/-!
# Runs of the turnstiles

Each operation succeeds in a state of the invariant and keeps it: blocking lends a turnstile and
queues the thread, dequeuing takes the thread out and gives it a turnstile, and a requeue only
reorders a queue. Hence along every run no check fails and turnstiles are conserved
(`tsRun_sound`).
-/

namespace Charmos.Sync

open Function List Option Turnstile Relation

variable {T U O H : Type} [DecidableEq T] [DecidableEq U]
variable {hash : O → H} {s s' : TsSys T U O H} {t : T} {u v my : U} {l : List U} {a : TsState}
  {obj : O} {q : TsQueue} {w : TsSys T U O H}

section

omit [DecidableEq T] [DecidableEq U]

/-- A lookup finds a turnstile of the object. -/
theorem turnstileLookup_some [DecidableEq O] (hl : turnstileLookup hash s obj = some u) :
    (s.ts u).lockObj = some obj := by
  simpa using find?_some hl

/-- A lookup that finds none leaves the object without a turnstile. -/
theorem TableOk.lookup_none [DecidableEq O] (h : TableOk hash s)
    (hl : turnstileLookup hash s obj = none) (u : U) : (s.ts u).lockObj ≠ some obj := by
  intro hu
  have hmem : u ∈ s.chains (hash obj) := (h.chain _ u).mpr ⟨obj, hu, rfl⟩
  have := find?_eq_none.mp hl u hmem
  simp [hu] at this

end

section

omit [DecidableEq T]

/-- A field that the new value has too is kept. -/
private theorem field_update {β : Type*} (f : Turnstile T U O → β) {x : Turnstile T U O}
    (hx : f x = f (s.ts u)) (w : U) : f (update s.ts u x w) = f (s.ts w) := by
  by_cases hw : w = u
  · rw [hw, update_self, hx]
  · rw [update_of_ne hw]

/-- The freelist of `u` and the state of `v` are changed. -/
private theorem update_pair (huv : u ≠ v) (w : U) :
    ((s.setTs u { s.ts u with freelist := l }).setTs v { s.ts v with state := a }).ts w =
    { s.ts w with
      freelist := if w = u then l else (s.ts w).freelist
      state := if w = v then a else (s.ts w).state } := by
  by_cases hv : w = v
  · subst hv
    simp [TsSys.setTs, Ne.symm huv]
  by_cases hu : w = u
  · subst hu
    simp [TsSys.setTs, hv]
  · simp [TsSys.setTs, hv, hu]

end

/-! ### Lending and taking turnstiles -/

/-- The first waiter of an object lends its turnstile to the table. -/
private theorem ConserveOk.lendFirst [DecidableEq H] (h : ConserveOk hash s none)
    (hmy : s.turnstile t = some my) (hno : ∀ w, (s.ts w).lockObj ≠ some obj)
    (hts : s'.ts = (turnstileInsert hash s my obj).ts)
    (hc : s'.chains = (turnstileInsert hash s my obj).chains)
    (ht : s'.turnstile = update s.turnstile t none) (hb : s'.blockedTs = s.blockedTs)
    (hp : s'.wqPrio = s.wqPrio) : ConserveOk hash s' (some (t, my)) := by
  have hnone : (s.ts my).lockObj = none :=
    h.table.lockObj_none (by rw [h.own.unused t my hmy]; decide)
  have hnot : ∀ k, my ∉ s.chains k := by
    intro k hm
    obtain ⟨o, ho, -⟩ := (h.table.chain k my).mp hm
    rw [hnone] at ho
    cases ho
  obtain ⟨hw, hf, -⟩ := h.queues.idle my hnone
  simp only [turnstileInsert, TsSys.setTs] at hts hc
  have hself := congrFun hts my
  have hother : ∀ w, w ≠ my → s'.ts w = s.ts w := fun w hw => by rw [hts, update_of_ne hw]
  have hfree : ∀ w, (s'.ts w).freelist = (s.ts w).freelist := by
    rw [hts]
    exact field_update freelist rfl
  rw [update_self] at hself
  refine ⟨h.own.lend hmy ht hb ?_ (by rw [hself]; rfl) ?_ ?_,
    h.table.move hother (by rw [hself]; exact iff_of_true rfl rfl) ?_ ?_ ?_,
    h.queues.change nofun ?_ hself (fun w hw => ⟨_, hother w hw⟩)
      (by rw [hb]; exact fun _ _ _ => .rfl)
      (by rw [hp]; exact fun _ _ _ _ _ => rfl) nofun nofun ?_ (h.queues.waiters my)
      (by rw [hb]; exact fun r => h.queues.blocked r my) (h.queues.nodup my)
      (by rw [hp]; exact h.queues.sorted my)⟩
  · intro w hw
    rw [hother w hw]
  · intro w y hy
    rw [hfree] at hy
    exact .inl hy
  · intro w
    rw [hfree]
    exact h.own.freeNodup w
  · intro w o ho
    rw [hself] at ho
    rw [← ho]
    exact hno w
  · intro k w
    rw [hc, hself]
    by_cases hk : k = hash obj
    · subst hk
      by_cases hw : w = my <;> simp [hw]
    · by_cases hw : w = my
      · simp [hw, hk, hnot, Ne.symm hk]
      · simp [hw, hk]
  · rw [hc]
    refine (forall_update_iff s.chains fun _ l => l.Nodup).mpr ⟨?_, fun k _ => h.table.nodup k⟩
    rw [← concat_eq_append]
    exact (h.table.nodup _).concat (hnot _)
  · rintro r w ⟨⟩
    rfl
  · intro _
    rw [hw, hf]
    rfl

/-- A later waiter lends its turnstile to the freelist of the one in the table. -/
private theorem ConserveOk.lendNext (h : ConserveOk hash s none) (hmy : s.turnstile t = some my)
    (hu : (s.ts u).lockObj.isSome = true) (hum : u ≠ my)
    (hts : s'.ts = (turnstileInsertToFreelist s u my).ts) (hc : s'.chains = s.chains)
    (ht : s'.turnstile = update s.turnstile t none) (hb : s'.blockedTs = s.blockedTs)
    (hp : s'.wqPrio = s.wqPrio) : ConserveOk hash s' (some (t, u)) := by
  have hts : ∀ w, s'.ts w = { s.ts w with
      freelist := if w = u then (s.ts u).freelist ++ [my] else (s.ts w).freelist
      state := if w = my then .inFreeList else (s.ts w).state } := by
    rw [hts]
    exact update_pair hum
  refine ⟨h.own.lend hmy ht hb ?_ (by rw [hts]; exact hu) ?_ ?_, h.table.congr hc ?_,
    h.queues.change (u := u) (x := { s.ts u with freelist := (s.ts u).freelist ++ [my] }) nofun ?_
      (by simp [hts, hum]) ?_ (by rw [hb]; exact fun _ _ _ => .rfl)
      (by rw [hp]; exact fun _ _ _ _ _ => rfl) ?_ nofun ?_ (h.queues.waiters u)
      (by rw [hb]; exact fun r => h.queues.blocked r u) (h.queues.nodup u)
      (by rw [hp]; exact h.queues.sorted u)⟩
  · intro w hm
    rw [hts, if_neg hm]
  · intro w y hy
    rw [hts] at hy
    by_cases hw : w = u
    · subst hw
      rw [if_pos rfl] at hy
      rcases mem_append.mp hy with hy | hy
      · exact .inl hy
      · exact .inr ⟨rfl, mem_singleton.mp hy, by rw [hts, if_pos rfl]⟩
    · rw [if_neg hw] at hy
      exact .inl hy
  · intro w
    rw [hts]
    dsimp only
    split
    · rw [← concat_eq_append]
      exact (h.own.freeNodup u).concat (h.own.not_mem_freelist hmy u)
    · exact h.own.freeNodup w
  · intro w
    rw [hts]
    refine ⟨rfl, ?_⟩
    split
    case isTrue hw =>
      rw [hw, h.own.unused t my hmy]
      exact iff_of_false nofun nofun
    case isFalse => rfl
  · rintro r w ⟨⟩
    rfl
  · intro w hw
    exact ⟨_, by rw [hts, if_neg hw]⟩
  · intro hc
    rw [hc] at hu
    cases hu
  · intro _
    rw [h.queues.free u hu nofun, length_append, add_comm]
    rfl

/-- The last thread to leave takes the turnstile out of the table. -/
private theorem ConserveOk.takeHashed [DecidableEq H] (h : ConserveOk hash s (some (t, u)))
    (hu : (s.ts u).lockObj = some obj) (hw : (s.ts u).waiters = 0)
    (hts : s'.ts = (turnstileRemove hash s u obj).ts)
    (hc : s'.chains = (turnstileRemove hash s u obj).chains)
    (ht : s'.turnstile = update s.turnstile t (some u)) (hb : s'.blockedTs = s.blockedTs)
    (hp : s'.wqPrio = s.wqPrio) : ConserveOk hash s' none := by
  have hstate : (s.ts u).state = .inHashTable := (h.table.state u).mpr (by rw [hu]; rfl)
  simp only [turnstileRemove, TsSys.setTs] at hts hc
  have hself := congrFun hts u
  have hother : ∀ w, w ≠ u → s'.ts w = s.ts w := fun w hw => by rw [hts, update_of_ne hw]
  have hfree : ∀ w, (s'.ts w).freelist = (s.ts w).freelist := by
    rw [hts]
    exact field_update freelist rfl
  rw [update_self] at hself
  refine ⟨h.own.give (by rw [hstate]; decide) (by rw [hself]) ht hb ?_ ?_ ?_,
    h.table.move hother (by rw [hself]; exact iff_of_false nofun nofun) (by rw [hself]; nofun) ?_
      ?_,
    h.queues.change ?_ nofun hself (fun w hw => ⟨_, hother w hw⟩)
      (by rw [hb]; exact fun _ _ _ => .rfl)
      (by rw [hp]; exact fun _ _ _ _ _ => rfl) ?_ nofun nofun (h.queues.waiters u)
      (by rw [hb]; exact fun r => h.queues.blocked r u) (h.queues.nodup u)
      (by rw [hp]; exact h.queues.sorted u)⟩
  · intro w hw
    rw [hother w hw]
  · intro w y hy
    rw [hfree] at hy
    refine ⟨hy, ?_⟩
    rintro rfl
    rw [h.own.free w y hy] at hstate
    cases hstate
  · intro w
    rw [hfree]
    exact h.own.freeNodup w
  · intro k w
    rw [hc, hself]
    by_cases hk : k = hash obj
    · subst hk
      simp [(h.table.nodup _).mem_erase_iff]
    have hk' : u ∉ s.chains k := by
      rw [h.table.chain, hu]
      rintro ⟨o, ho, rfl⟩
      exact hk (by rw [some.inj ho])
    by_cases hw : w = u <;> simp [hw, hk, hk']
  · rw [hc]
    exact (forall_update_iff s.chains fun _ l => l.Nodup).mpr
      ⟨(h.table.nodup _).erase u, fun k _ => h.table.nodup k⟩
  · rintro r w ⟨⟩
    rfl
  · intro _
    refine ⟨hw, ?_, ?_⟩
    · rw [← length_eq_zero_iff]
      exact (h.queues.lentFree t u rfl).symm.trans hw
    · rw [← length_eq_zero_iff]
      exact (h.queues.waiters u).symm.trans hw

/-- A thread that is not the last to leave takes a turnstile from the freelist. -/
private theorem ConserveOk.takeFree (h : ConserveOk hash s (some (t, u)))
    (hf : (s.ts u).freelist = v :: l) (huv : u ≠ v)
    (hts : s'.ts = ((s.setTs u { s.ts u with freelist := l }).setTs v
      { s.ts v with state := .unused }).ts) (hc : s'.chains = s.chains)
    (ht : s'.turnstile = update s.turnstile t (some v)) (hb : s'.blockedTs = s.blockedTs)
    (hp : s'.wqPrio = s.wqPrio) : ConserveOk hash s' none := by
  have hts : ∀ w, s'.ts w = { s.ts w with
      freelist := if w = u then l else (s.ts w).freelist
      state := if w = v then .unused else (s.ts w).state } := by
    rw [hts]
    exact update_pair huv
  have hmem : v ∈ (s.ts u).freelist := by simp [hf]
  have hstate := h.own.free u v hmem
  have hsome := (h.own.lender t u rfl).2
  have hnodup := h.own.freeNodup u
  rw [hf, nodup_cons] at hnodup
  refine ⟨h.own.give (by rw [hstate]; decide) (by rw [hts, if_pos rfl]) ht hb ?_ ?_ ?_,
    h.table.congr hc ?_,
    h.queues.change (u := u) (x := { s.ts u with freelist := l }) ?_ nofun (by simp [hts, huv]) ?_
      (by rw [hb]; exact fun _ _ _ => .rfl) (by rw [hp]; exact fun _ _ _ _ _ => rfl) ?_ ?_ nofun
      (h.queues.waiters u) (by rw [hb]; exact fun r => h.queues.blocked r u) (h.queues.nodup u)
      (by rw [hp]; exact h.queues.sorted u)⟩
  · intro w hw
    rw [hts, if_neg hw]
  · intro w y hy
    rw [hts] at hy
    by_cases hw : w = u
    · subst hw
      rw [if_pos rfl] at hy
      refine ⟨by simp [hf, hy], ?_⟩
      rintro rfl
      exact hnodup.1 hy
    · rw [if_neg hw] at hy
      refine ⟨hy, ?_⟩
      rintro rfl
      exact hw (h.own.freeInj w u y hy hmem)
  · intro w
    rw [hts]
    dsimp only
    split
    · exact hnodup.2
    · exact h.own.freeNodup w
  · intro w
    rw [hts]
    refine ⟨rfl, ?_⟩
    split
    case isTrue hw =>
      rw [hw, hstate]
      exact iff_of_false nofun nofun
    case isFalse => rfl
  · rintro r w ⟨⟩
    rfl
  · exact fun w hw => ⟨_, by rw [hts, if_neg hw]⟩
  · intro hc
    rw [hc] at hsome
    cases hsome
  · intro _ _
    rw [h.queues.lentFree t u rfl, hf, length_cons, add_comm]

/-- Only the queues of `u` change, and the thread `t` in them. -/
private theorem ConserveOk.relist {x : Turnstile T U O} {lent lent' : Option (T × U)}
    (h : ConserveOk hash s lent) (hlent : ∀ r v, lent = some (r, v) → r = t ∧ v = u)
    (hlent' : ∀ r v, lent' = some (r, v) → (r = t ∧ v = u) ∧ s'.blockedTs t = none)
    (hts : s'.ts = update s.ts u x) (hc : s'.chains = s.chains) (ht : s'.turnstile = s.turnstile)
    (hx : x.freelist = (s.ts u).freelist ∧ x.lockObj = (s.ts u).lockObj ∧ x.state = (s.ts u).state)
    (hu : (s.ts u).lockObj.isSome = true) (hb : ∀ r, r ≠ t → s'.blockedTs r = s.blockedTs r)
    (hbt : ∀ v, v ≠ u → s.blockedTs t ≠ some v ∧ s'.blockedTs t ≠ some v)
    (hkey : ∀ r, r ≠ t → s'.wqPrio r = s.wqPrio r)
    (own : s.turnstile t = none ↔ (s'.blockedTs t).isSome = true ∨ ∃ v, lent' = some (t, v))
    (free : lent' = none → x.waiters = 1 + x.freelist.length)
    (lentFree : lent' ≠ none → x.waiters = x.freelist.length)
    (waiters : x.waiters = x.queued.length) (blocked : ∀ r, s'.blockedTs r = some u ↔ r ∈ x.queued)
    (nodup : x.queued.Nodup) (sorted : ∀ r, SortedByKey s'.wqPrio (x.queues r)) :
    ConserveOk hash s' lent' := by
  obtain ⟨hf, ho, hs⟩ := hx
  have hobj : ∀ v, (s'.ts v).lockObj = (s.ts v).lockObj := by
    rw [hts]
    exact field_update lockObj ho
  have hstate : ∀ v, (s'.ts v).state = (s.ts v).state := by
    rw [hts]
    exact field_update state hs
  refine ⟨h.own.congr u (fun r v hr => (hlent r v hr).1) ?_ ht hb own fun v => ⟨?_, hstate v⟩,
    h.table.congr hc fun v => ⟨hobj v, by rw [hstate]⟩,
    h.queues.change (fun r v hr => (hlent r v hr).2) (fun r v hr => (hlent' r v hr).1.2)
      (by rw [hts, update_self]) (fun v hv => ⟨_, by rw [hts, update_of_ne hv]⟩) ?_ ?_ ?_
      (fun _ => free) lentFree waiters blocked nodup sorted⟩
  · intro r v hr
    obtain ⟨⟨rfl, rfl⟩, hn⟩ := hlent' r v hr
    rw [hobj]
    exact ⟨rfl, hn, hu⟩
  · rw [hts]
    exact field_update freelist hf v
  · intro r v hv
    by_cases hr : r = t
    · rw [hr]
      exact iff_of_false (hbt v hv).2 (hbt v hv).1
    · rw [hb r hr]
  · intro v r hv y hy
    refine hkey y ?_
    rintro rfl
    exact (hbt v hv).1 ((h.queues.blocked y v).mpr (mem_queued.mpr ⟨r, hy⟩))
  · intro hn
    rw [← ho, hn] at hu
    cases hu

/-! ### Blocking -/

/-- The thread that has lent its turnstile takes its place in the queue. -/
private theorem ConserveOk.blockOn
    (h : ConserveOk hash { w with turnstile := update w.turnstile t none } (some (t, u))) :
    ConserveOk hash (turnstileBlockOn w t u q) none := by
  obtain ⟨hnb, hsome⟩ := h.own.lender t u rfl
  have hnot : t ∉ (w.ts u).queued := by
    intro hm
    have := (h.queues.blocked t u).mpr hm
    rw [hnb] at this
    cases this
  have hins : (insertByKey (turnstileBlockOn w t u q).wqPrio t ((w.ts u).queues q)).Perm _ :=
    insertByKey_perm
  have hperm := setQueue_queued_cons hins
  refine h.relist (t := t) ?_ nofun rfl rfl rfl ⟨rfl, rfl, rfl⟩ hsome
    (fun r hr => update_of_ne hr _ _) ?_ (fun r hr => update_of_ne hr _ _) ?_ ?_ nofun ?_ ?_ ?_ ?_
  · rintro r v ⟨⟩
    exact ⟨rfl, rfl⟩
  · intro v hv
    rw [hnb]
    exact ⟨nofun, by simp [turnstileBlockOn, Ne.symm hv]⟩
  · exact iff_of_true (update_self _ _ _) (.inl (by simp [turnstileBlockOn]))
  · intro _
    exact (congrArg (· + 1) (h.queues.lentFree t u rfl)).trans (add_comm _ _)
  · exact (congrArg (· + 1) (h.queues.waiters u)).trans hperm.length_eq.symm
  · intro r
    refine Iff.trans ?_ hperm.mem_iff.symm
    by_cases hr : r = t
    · simp [turnstileBlockOn, hr]
    · simp [turnstileBlockOn, hr, h.queues.blocked]
  · exact hperm.nodup_iff.mpr (nodup_cons.mpr ⟨hnot, h.queues.nodup u⟩)
  · intro r
    have hold : SortedByKey (turnstileBlockOn w t u q).wqPrio ((w.ts u).queues r) := by
      refine (h.queues.sorted u r).congr fun y hy => update_of_ne ?_ _ _
      rintro rfl
      exact hnot (mem_queued.mpr ⟨r, hy⟩)
    by_cases hr : r = q
    · subst hr
      rw [setQueue_queues_self]
      exact hold.insert
    · rw [setQueue_queues_of_ne hr]
      exact hold

/-- A thread that did not wait waits once it is queued. -/
private theorem WaitsOk.blockOn (h : WaitsOk w) (hrun : w.waiting t = false) :
    WaitsOk (turnstileBlockOn w t u q) := by
  have hne : ∀ r ∈ w.wakeList, r ≠ t := by
    rintro r hr rfl
    have := (h.waking r hr).1
    rw [hrun] at this
    cases this
  refine ⟨?_, ?_, h.nodup⟩
  · intro r hr
    by_cases hrt : r = t
    · subst hrt
      exact update_self _ _ _
    have hbr : (turnstileBlockOn w t u q).blockedTs r = w.blockedTs r := update_of_ne hrt _ _
    rw [hbr] at hr
    exact (update_of_ne hrt _ _).trans (h.blocked r hr)
  · intro r hr
    have hrt := hne r hr
    exact ⟨(update_of_ne hrt _ _).trans (h.waking r hr).1,
      (update_of_ne hrt _ _).trans (h.waking r hr).2⟩

/-- A thread that runs can block: its turnstile is there and no check fails. -/
theorem turnstileBlock_ok [DecidableEq O] [DecidableEq H] (h : TsOk hash s)
    (hrun : s.waiting t = false) : ∃ s', turnstileBlock hash s t obj q = .ok s' ∧ TsOk hash s' := by
  have hnb : s.blockedTs t = none := by
    cases hb : s.blockedTs t with
    | none => rfl
    | some w =>
      have := h.waits.blocked t (by rw [hb]; rfl)
      rw [hrun] at this
      cases this
  obtain ⟨my, hmy⟩ : ∃ my, s.turnstile t = some my := by
    cases hm : s.turnstile t with
    | none =>
      have := (h.conserve.own.own t).mp hm
      simp [hnb] at this
    | some my => exact ⟨my, rfl⟩
  have hchecks : turnstileBlockChecks s t = .ok () := by
    simp [turnstileBlockChecks, hnb, hrun]
  unfold turnstileBlock
  rw [hmy]
  have hunused := h.conserve.own.unused t my hmy
  have hnone : (s.ts my).lockObj = none := h.conserve.table.lockObj_none (by rw [hunused]; decide)
  cases hl : turnstileLookup hash s obj with
  | none =>
    have hw0 := (h.conserve.queues.idle my hnone).1
    refine ⟨turnstileBlockOn (turnstileInsert hash s my obj) t my q, ?_, ?_, ?_⟩
    · simp [hw0, hchecks, Except.map]
    · refine ConserveOk.blockOn ?_
      exact h.conserve.lendFirst hmy (h.conserve.table.lookup_none hl) rfl rfl rfl rfl rfl
    · have hw : WaitsOk (turnstileInsert hash s my obj) :=
        ⟨h.waits.blocked, h.waits.waking, h.waits.nodup⟩
      exact hw.blockOn hrun
  | some u =>
    have hu := turnstileLookup_some hl
    have hum : u ≠ my := by
      rintro rfl
      rw [hnone] at hu
      cases hu
    have hwu := h.conserve.queues.free u (by rw [hu]; rfl) nofun
    refine ⟨turnstileBlockOn (turnstileInsertToFreelist s u my) t u q, ?_, ?_, ?_⟩
    · have hne : (s.ts u).waiters ≠ 0 := by omega
      simp [hne, hu, hchecks, Except.map]
    · refine ConserveOk.blockOn ?_
      exact h.conserve.lendNext hmy (by rw [hu]; rfl) hum rfl rfl rfl rfl rfl
    · have hw : WaitsOk (turnstileInsertToFreelist s u my) :=
        ⟨h.waits.blocked, h.waits.waking, h.waits.nodup⟩
      exact hw.blockOn hrun

/-! ### Waking -/

/-- The thread without the turnstile it is to get, between leaving its queue and taking one. -/
private def unqueued (s : TsSys T U O H) (u : U) (q : TsQueue) (t : T) : TsSys T U O H :=
  { s.setTs u { (s.ts u).setQueue q (((s.ts u).queues q).erase t) with
      waiters := (s.ts u).waiters - 1 } with
    blockedTs := update s.blockedTs t none }

private theorem unqueued_queues (r : TsQueue) : ((unqueued s u q t).ts u).queues r =
    if r = q then ((s.ts u).queues q).erase t else (s.ts u).queues r := by
  by_cases hr : r = q
  · subst hr
    simp [unqueued, TsSys.setTs, setQueue]
  · simp [unqueued, TsSys.setTs, setQueue, hr]

private theorem ConserveOk.unqueued (h : ConserveOk hash s none) (ht : t ∈ (s.ts u).queues q) :
    ConserveOk hash (Sync.unqueued s u q t) (some (t, u)) := by
  have hperm := setQueue_queued_erase ht
  have hmem : t ∈ (s.ts u).queued := mem_queued.mpr ⟨q, ht⟩
  have hblocked := (h.queues.blocked t u).mpr hmem
  have hu := h.queues.isSome_of_mem hmem
  have hnodup := nodup_cons.mp (hperm.nodup_iff.mp (h.queues.nodup u))
  refine h.relist (t := t) nofun ?_ rfl rfl rfl ⟨rfl, rfl, rfl⟩ hu (fun r hr => update_of_ne hr _ _)
    ?_ (fun _ _ => rfl) ?_ nofun ?_ ?_ ?_ hnodup.2 ?_
  · rintro r v ⟨⟩
    exact ⟨⟨rfl, rfl⟩, update_self _ _ _⟩
  · intro v hv
    rw [hblocked]
    exact ⟨fun he => hv (some.inj he).symm, by simp [Sync.unqueued]⟩
  · exact iff_of_true ((h.own.own t).mpr (.inl (by rw [hblocked]; rfl))) (.inr ⟨u, rfl⟩)
  · intro _
    rw [h.queues.free u hu nofun, Nat.add_sub_cancel_left]
    rfl
  · rw [h.queues.waiters u, hperm.length_eq, length_cons, Nat.add_sub_cancel]
    rfl
  · intro r
    by_cases hr : r = t
    · rw [hr]
      exact iff_of_false (by simp [Sync.unqueued]) hnodup.1
    have hmem := hperm.mem_iff (a := r)
    rw [mem_cons, or_iff_right hr, ← h.queues.blocked] at hmem
    refine Iff.trans ?_ hmem
    simp [Sync.unqueued, hr]
  · intro r
    have hsorted := h.queues.sorted u r
    by_cases hr : r = q
    · subst hr
      rw [setQueue_queues_self]
      exact Pairwise.sublist erase_sublist hsorted
    · rw [setQueue_queues_of_ne hr]
      exact hsorted

/-- A thread of a queue can be dequeued: a turnstile is there for it and no check fails. -/
theorem turnstileDequeue_ok [DecidableEq H] (h : TsOk hash s) (hu : (s.ts u).lockObj = some obj)
    (ht : t ∈ (s.ts u).queues q) :
    ∃ s', turnstileDequeue hash s u obj q t = .ok s' ∧ TsOk hash s' ∧
      (∀ r, (s'.ts u).queues r = if r = q then ((s.ts u).queues q).erase t else (s.ts u).queues r) ∧
      ((s.ts u).queued.length ≠ 1 → (s'.ts u).lockObj = some obj) := by
  have hmem : t ∈ (s.ts u).queued := mem_queued.mpr ⟨q, ht⟩
  have hblocked := (h.conserve.queues.blocked t u).mpr hmem
  have hsome := h.conserve.queues.isSome_of_mem hmem
  have hlent := h.conserve.unqueued ht
  have hfree := h.conserve.queues.free u hsome nofun
  have hself : ((unqueued s u q t).ts u).waiters = (s.ts u).waiters - 1 ∧
      ((unqueued s u q t).ts u).freelist = (s.ts u).freelist ∧
      ((unqueued s u q t).ts u).lockObj = (s.ts u).lockObj := by
    simp [unqueued, TsSys.setTs, setQueue]
  have hwaits : ∀ w : TsSys T U O H, w.blockedTs = update s.blockedTs t none →
      w.waiting = s.waiting → w.wakeList = s.wakeList ++ [t] → WaitsOk w := by
    intro w hb hw hl
    have hnot : t ∉ s.wakeList := by
      intro hm
      have := (h.waits.waking t hm).2
      rw [hblocked] at this
      cases this
    refine ⟨?_, ?_, ?_⟩
    · intro r hr
      rw [hw]
      by_cases hrt : r = t
      · subst hrt
        exact h.waits.blocked r (by rw [hblocked]; rfl)
      · rw [hb, update_of_ne hrt] at hr
        exact h.waits.blocked r hr
    · intro r hr
      rw [hw, hb]
      rw [hl] at hr
      rcases mem_append.mp hr with hr | hr
      · have hrt : r ≠ t := fun he => hnot (he ▸ hr)
        rw [update_of_ne hrt]
        exact h.waits.waking r hr
      · obtain rfl := mem_singleton.mp hr
        exact ⟨h.waits.blocked r (by rw [hblocked]; rfl), update_self _ _ _⟩
    · rw [hl, ← concat_eq_append]
      exact h.waits.nodup.concat hnot
  unfold turnstileDequeue
  by_cases hone : (s.ts u).waiters = 1
  · have hfl : (s.ts u).freelist = [] := by
      rw [← length_eq_zero_iff]
      omega
    rw [if_pos hone, if_neg (by simp [hfl])]
    have hts : (turnstileLeave (turnstileRemove hash s u obj) u q t u).ts =
        (turnstileRemove hash (unqueued s u q t) u obj).ts := by
      simp [turnstileLeave, turnstileRemove, unqueued, TsSys.setTs, setQueue]
    refine ⟨_, rfl, ⟨?_, hwaits _ rfl rfl rfl⟩, ?_, ?_⟩
    · exact hlent.takeHashed (hself.2.2.trans hu) (hself.1.trans (by rw [hone])) hts rfl rfl rfl rfl
    · intro r
      rw [hts, ← unqueued_queues]
      simp [turnstileRemove, TsSys.setTs]
    · intro hlen
      rw [← h.conserve.queues.waiters u] at hlen
      exact absurd hone hlen
  · rw [if_neg hone]
    cases hfl : (s.ts u).freelist with
    | nil =>
      rw [hfl] at hfree
      exact absurd hfree hone
    | cons v rest =>
      have hvs := h.conserve.own.free u v (by rw [hfl]; exact mem_cons_self)
      have huv : u ≠ v := by
        rintro rfl
        rw [(h.conserve.table.state u).mpr hsome] at hvs
        cases hvs
      have hts : (turnstileLeave ((s.setTs u { s.ts u with freelist := rest }).setTs v
          { s.ts v with state := .unused }) u q t v).ts =
          (((unqueued s u q t).setTs u { (unqueued s u q t).ts u with freelist := rest }).setTs v
            { (unqueued s u q t).ts v with state := .unused }).ts := by
        simp [turnstileLeave, unqueued, TsSys.setTs, setQueue, Ne.symm huv, update_comm huv]
      refine ⟨_, rfl, ⟨?_, hwaits _ rfl rfl rfl⟩, ?_, ?_⟩
      · exact hlent.takeFree (hself.2.1.trans hfl) huv hts rfl rfl rfl rfl
      · intro r
        rw [hts, ← unqueued_queues]
        simp [TsSys.setTs, huv]
      · intro _
        rw [hts, ← hu, ← hself.2.2]
        simp [TsSys.setTs, huv]

/-- As many threads as are queued can be woken. -/
theorem turnstileWake_ok [DecidableEq H] {n : ℕ} (h : TsOk hash s)
    (hu : n ≠ 0 → (s.ts u).lockObj = some obj) (hn : n ≤ ((s.ts u).queues q).length) :
    ∃ s', turnstileWake hash s u obj q n = .ok s' ∧ TsOk hash s' := by
  induction n generalizing s with
  | zero => exact ⟨s, rfl, h⟩
  | succ n ih =>
    have hne : (s.ts u).queues q ≠ [] := by
      intro he
      simp [he] at hn
    have hlast := getLast?_eq_some_getLast hne
    have hmem := getLast_mem hne
    obtain ⟨s₁, hs₁, hok, hq, hobj⟩ := turnstileDequeue_ok h (hu (by omega)) hmem
    have hlen : ((s₁.ts u).queues q).length = ((s.ts u).queues q).length - 1 := by
      rw [hq q, if_pos rfl, length_erase_of_mem hmem]
    have hsub : ((s.ts u).queues q).length ≤ (s.ts u).queued.length := by
      cases q <;> simp [queued]
    obtain ⟨s₂, hs₂, hok₂⟩ := ih hok (fun h0 => hobj (by omega)) (by omega)
    refine ⟨s₂, ?_, hok₂⟩
    simp only [turnstileWake, hlast, hs₁]
    exact hs₂

/-- The turnstile can be handed to any queued thread. -/
theorem turnstileWakeHandoff_ok [DecidableEq H] {target : Option T} (h : TsOk hash s)
    (hu : (s.ts u).lockObj = some obj) (hne : (s.ts u).queues q ≠ [])
    (ht : ∀ t ∈ target, t ∈ (s.ts u).queues q) :
    ∃ s', turnstileWakeHandoff hash s u obj q target = .ok s' ∧ TsOk hash s' := by
  have hlast := getLast?_eq_some_getLast hne
  have hfirst : target.getD (((s.ts u).queues q).getLast hne) ∈ (s.ts u).queues q := by
    cases htg : target with
    | none => exact getLast_mem hne
    | some t => exact ht t htg
  obtain ⟨s', hs', hok, -⟩ := turnstileDequeue_ok h hu hfirst
  refine ⟨s', ?_, hok⟩
  simp only [turnstileWakeHandoff, hlast, hfirst, not_true, if_false]
  exact hs'

/-! ### Requeues and wake-ups -/

/-- One of the two queues reinserts its waiter `t`, whose key has changed. -/
private theorem TsOk.requeue {k : ℕ} (h : TsOk hash s) (ht : t ∈ (s.ts u).queues q) :
    TsOk hash { s.setTs u ((s.ts u).setQueue q
        (reinsert (update s.wqPrio t k) t ((s.ts u).queues q))) with
      wqPrio := update s.wqPrio t k } := by
  have hmem : t ∈ (s.ts u).queued := mem_queued.mpr ⟨q, ht⟩
  have hsome := h.conserve.queues.isSome_of_mem hmem
  have hre : (reinsert (update s.wqPrio t k) t ((s.ts u).queues q)).Perm _ := reinsert_perm ht
  have hperm := setQueue_queued_perm hre
  have hnodup := h.conserve.queues.nodup u
  refine ⟨h.conserve.relist (t := t) nofun nofun rfl rfl rfl ⟨rfl, rfl, rfl⟩ hsome (fun _ _ => rfl)
    ?_ (fun r hr => update_of_ne hr _ _) (h.conserve.own.own t)
    (fun _ => h.conserve.queues.free u hsome nofun) nofun
    ((h.conserve.queues.waiters u).trans hperm.length_eq.symm)
    (fun r => (h.conserve.queues.blocked r u).trans hperm.mem_iff.symm)
    (hperm.nodup_iff.mpr hnodup) ?_, { h.waits with }⟩
  · intro v hv
    have hne : s.blockedTs t ≠ some v := by
      rw [(h.conserve.queues.blocked t u).mpr hmem]
      exact fun he => hv (some.inj he).symm
    exact ⟨hne, hne⟩
  · intro r
    have hsorted := h.conserve.queues.sorted u r
    by_cases hr : r = q
    · subst hr
      rw [setQueue_queues_self]
      have hqn := queues_nodup hnodup (q := r)
      refine SortedByKey.reinsert ht ?_ hqn
      refine SortedByKey.congr (Pairwise.sublist erase_sublist hsorted) ?_
      intro x hx
      have hxt : x ≠ t := (hqn.mem_erase_iff.mp hx).1
      exact update_of_ne hxt _ _
    · rw [setQueue_queues_of_ne hr]
      refine SortedByKey.congr hsorted ?_
      intro x hx
      have hxt : x ≠ t := by
        rintro rfl
        exact hr (queue_unique hnodup hx ht)
      exact update_of_ne hxt _ _

theorem turnstileRequeueWaiter_ok (h : TsOk hash s) : TsOk hash (turnstileRequeueWaiter s u t) := by
  unfold turnstileRequeueWaiter
  dsimp only
  split
  · exact h
  split
  case isTrue ht => exact h.requeue ht
  split
  case isTrue ht => exact h.requeue ht
  exact h

omit [DecidableEq U] in
/-- The wait of a dequeued thread is there to be satisfied. -/
theorem turnstileSatisfy_ok (h : TsOk hash s) (ht : t ∈ s.wakeList) :
    ∃ s', turnstileSatisfy s t = .ok s' ∧ TsOk hash s' := by
  have hw := h.waits.waking t ht
  refine ⟨_, if_pos hw.1, ⟨{ h.conserve.own with }, { h.conserve.table with },
    { h.conserve.queues with }⟩, ?_, ?_, ?_⟩
  · intro r hr
    have hrt : r ≠ t := by
      rintro rfl
      rw [hw.2] at hr
      cases hr
    exact (update_of_ne hrt _ _).trans (h.waits.blocked r hr)
  · intro r hr
    obtain ⟨hrt, hr⟩ := h.waits.nodup.mem_erase_iff.mp hr
    exact ⟨(update_of_ne hrt _ _).trans (h.waits.waking r hr).1, (h.waits.waking r hr).2⟩
  · exact h.waits.nodup.erase t

/-! ### Runs -/

omit [DecidableEq T] [DecidableEq U] in
theorem tsInit_ok {born : T → U} (hborn : Injective born) (prioClass : T → PrioClass)
    (weight : T → ℕ) : TsOk hash (tsInit born prioClass weight : TsSys T U O H) where
  conserve := by
    refine ⟨⟨?_, nofun, ?_, ?_, nofun, nofun, ?_⟩, ⟨?_, ?_, ?_, nofun⟩,
      ⟨?_, nofun, nofun, ?_, ?_, ?_, ?_⟩⟩
    · simp [tsInit]
    · intro t t' u ht ht'
      exact hborn (some.inj (ht.trans ht'.symm))
    · intro _ _ _
      rfl
    · intro _
      exact nodup_nil
    · simp [tsInit, turnstileInit]
    · simp [tsInit, turnstileInit]
    · intro _
      exact nodup_nil
    · intro _ _
      exact ⟨rfl, rfl, rfl⟩
    · intro _
      rfl
    · simp [tsInit, turnstileInit, queued]
    · intro _
      exact nodup_nil
    · intro _ _
      exact Pairwise.nil
  waits := ⟨nofun, nofun, nodup_nil⟩

variable [DecidableEq O] [DecidableEq H]

/-- Every step that can be taken succeeds and keeps the invariant. -/
theorem tsStep_ok {a : TsAct T U O} {r : Except TsError (TsSys T U O H)} (h : TsOk hash s)
    (ha : tsStep hash s a = some r) : ∃ s', r = .ok s' ∧ TsOk hash s' := by
  cases a with
  | block t obj q =>
    obtain ⟨hrun, ⟨⟩⟩ := ite_none_left_eq_some.mp ha
    exact turnstileBlock_ok h (by simpa using hrun)
  | wake obj q n =>
    simp only [tsStep] at ha
    split at ha
    case h_1 => cases ha
    case h_2 u hl =>
      obtain ⟨hn, ⟨⟩⟩ := ite_none_right_eq_some.mp ha
      exact turnstileWake_ok h (fun _ => turnstileLookup_some hl) hn
  | handoff obj q target =>
    simp only [tsStep] at ha
    split at ha
    case h_1 => cases ha
    case h_2 u hl =>
      obtain ⟨hq, ⟨⟩⟩ := ite_none_right_eq_some.mp ha
      exact turnstileWakeHandoff_ok h (turnstileLookup_some hl) hq.1 hq.2
  | requeue obj t =>
    obtain ⟨u, -, rfl⟩ := map_eq_some_iff.mp ha
    exact ⟨_, rfl, turnstileRequeueWaiter_ok h⟩
  | satisfy t =>
    obtain ⟨ht, ⟨⟩⟩ := ite_none_right_eq_some.mp ha
    exact turnstileSatisfy_ok h ht
  | prio t c weight =>
    obtain ⟨⟩ := ha
    exact ⟨_, rfl, ⟨{ h.conserve.own with }, { h.conserve.table with },
    { h.conserve.queues with }⟩, h.waits.blocked, h.waits.waking, h.waits.nodup⟩

/-- The system goes from one state to the next. -/
def TsStep (hash : O → H) (s s' : TsSys T U O H) : Prop := ∃ a, tsStep hash s a = some (.ok s')

theorem tsSteps_ok {s₀ : TsSys T U O H} (h₀ : TsOk hash s₀)
    (h : ReflTransGen (TsStep hash) s₀ s) : TsOk hash s := by
  induction h with
  | refl => exact h₀
  | tail _ hstep ih =>
    obtain ⟨a, ha⟩ := hstep
    obtain ⟨s', hs', hok⟩ := tsStep_ok ih ha
    obtain ⟨⟩ := hs'
    exact hok

/-- What is conserved. -/
structure TsSound (hash : O → H) (s : TsSys T U O H) : Prop where
  /-- A thread owns a turnstile, which is one as `turnstile` is a function, unless it is blocked. -/
  owns : ∀ t, s.blockedTs t = none ↔ ∃ u, s.turnstile t = some u
  not_shared : ∀ t t' u, s.turnstile t = some u → s.turnstile t' = some u → t = t'
  /-- A turnstile that a thread owns is neither in the table nor on a freelist. -/
  not_lent : ∀ t u, s.turnstile t = some u →
    (∀ k, u ∉ s.chains k) ∧ ∀ u', u ∉ (s.ts u').freelist
  /-- The lock object that a thread waits for has one turnstile in the table. -/
  one_turnstile : ∀ t u, s.blockedTs t = some u → ∃ obj, (s.ts u).lockObj = some obj ∧
    ∀ k u', u' ∈ s.chains k ∧ (s.ts u').lockObj = some obj ↔ k = hash obj ∧ u' = u
  /-- A turnstile of the table has waiters, counted by its queues and by its freelist. -/
  waiters : ∀ k, ∀ u ∈ s.chains k, 0 < (s.ts u).waiters ∧
    (s.ts u).waiters = ((s.ts u).queues .writer).length + ((s.ts u).queues .reader).length ∧
    (s.ts u).waiters = 1 + (s.ts u).freelist.length
  /-- A blocked thread is once in one queue, and no other thread is in a queue. -/
  one_queue : ∀ t u, s.blockedTs t = some u → ∃ q, ((s.ts u).queues q).count t = 1 ∧
    ∀ u' q', t ∈ (s.ts u').queues q' → u' = u ∧ q' = q
  queued : ∀ t u q, t ∈ (s.ts u).queues q → s.blockedTs t = some u
  sorted : ∀ u q, SortedByKey s.wqPrio ((s.ts u).queues q)
  /-- No check of a step fails. -/
  no_failure : ∀ a e, tsStep hash s a ≠ some (.error e)

theorem TsOk.sound (h : TsOk hash s) : TsSound hash s where
  owns := by
    intro t
    have hown := h.conserve.own.own t
    cases hb : s.blockedTs t <;> cases ht : s.turnstile t <;> simp_all
  not_shared := h.conserve.own.inj
  not_lent := by
    intro t u hu
    have hstate := h.conserve.own.unused t u hu
    refine ⟨?_, ?_⟩
    · intro k hk
      obtain ⟨obj, hobj, -⟩ := (h.conserve.table.chain k u).mp hk
      rw [(h.conserve.table.state u).mpr (by rw [hobj]; rfl)] at hstate
      cases hstate
    · intro u' hm
      rw [h.conserve.own.free u' u hm] at hstate
      cases hstate
  one_turnstile := by
    intro t u hb
    have hmem := (h.conserve.queues.blocked t u).mp hb
    obtain ⟨obj, hobj⟩ := isSome_iff_exists.mp (h.conserve.queues.isSome_of_mem hmem)
    refine ⟨obj, hobj, fun k u' => ⟨?_, ?_⟩⟩
    · rintro ⟨hk, ho⟩
      obtain ⟨o, ho', rfl⟩ := (h.conserve.table.chain k u').mp hk
      obtain rfl := some.inj (ho'.symm.trans ho)
      exact ⟨rfl, h.conserve.table.inj u' u o ho' hobj⟩
    · rintro ⟨rfl, rfl⟩
      exact ⟨(h.conserve.table.chain _ _).mpr ⟨obj, hobj, rfl⟩, hobj⟩
  waiters := by
    intro k u hk
    obtain ⟨obj, hobj, -⟩ := (h.conserve.table.chain k u).mp hk
    have hfree := h.conserve.queues.free u (by rw [hobj]; rfl) nofun
    refine ⟨by omega, ?_, hfree⟩
    rw [h.conserve.queues.waiters u, queued, length_append]
  one_queue := by
    intro t u hb
    obtain ⟨q, hq⟩ := mem_queued.mp ((h.conserve.queues.blocked t u).mp hb)
    have hnodup := h.conserve.queues.nodup u
    refine ⟨q, count_eq_one_of_mem (queues_nodup hnodup) hq, fun u' q' hm => ?_⟩
    have hb' := (h.conserve.queues.blocked t u').mpr (mem_queued.mpr ⟨q', hm⟩)
    obtain rfl := some.inj (hb'.symm.trans hb)
    exact ⟨rfl, queue_unique hnodup hm hq⟩
  queued := by
    intro t u q hm
    exact (h.conserve.queues.blocked t u).mpr (mem_queued.mpr ⟨q, hm⟩)
  sorted := h.conserve.queues.sorted
  no_failure := by
    intro a e ha
    obtain ⟨s', hs', -⟩ := tsStep_ok h ha
    cases hs'

/-- If every thread is born with its own turnstile, turnstiles are conserved in every run and no
check of it fails. -/
theorem tsRun_sound (hash : O → H) (born : T → U) (prioClass : T → PrioClass) (weight : T → ℕ)
    (hborn : Injective born) (s : TsSys T U O H)
    (h : ReflTransGen (TsStep hash) (tsInit born prioClass weight) s) :
    TsSound hash s :=
  (tsSteps_ok (tsInit_ok hborn prioClass weight) h).sound

/-- The steps of a list, one after the other. -/
def tsTrace (hash : O → H) (s : TsSys T U O H) : List (TsAct T U O) → Option (TsSys T U O H)
  | [] => some s
  | a :: l =>
    match tsStep hash s a with
    | some (.ok s') => tsTrace hash s' l
    | _ => none

private theorem tsTrace_run {l : List (TsAct T U O)} (h : tsTrace hash s l = some s') :
    ReflTransGen (TsStep hash) s s' := by
  induction l generalizing s with
  | nil =>
    obtain ⟨⟩ := h
    exact .refl
  | cons a l ih =>
    simp only [tsTrace] at h
    split at h
    case h_1 w hw => exact .head ⟨a, hw⟩ (ih h)
    case h_2 => cases h

/-- Three threads wait for object 0 and one is woken: it has taken the second one's turnstile. -/
theorem tsRun_sound_exchanged : ∃ s : TsSys ℕ ℕ ℕ ℕ, Injective (id : ℕ → ℕ) ∧
    ReflTransGen (TsStep fun _ => 0) (tsInit id (fun _ => .timeshare) fun _ => 0) s ∧
      (s.ts 0).queues .writer = [0, 1] ∧ s.turnstile 2 = some 1 ∧
      TsSound (fun _ => 0) s := by
  have hrun : (tsTrace (fun _ => 0) (tsInit id (fun _ => .timeshare) fun _ => 0)
      ([.block 0 0 .writer, .block 1 0 .writer, .block 2 0 .writer, .wake 0 .writer 1,
        .satisfy 2] : List (TsAct ℕ ℕ ℕ))).map
        (fun s : TsSys ℕ ℕ ℕ ℕ => ((s.ts 0).queues .writer, s.turnstile 2)) =
      some ([0, 1], some 1) := by
    decide +kernel
  obtain ⟨s, hs, hobs⟩ := map_eq_some_iff.mp hrun
  simp only [Prod.mk.injEq] at hobs
  exact ⟨s, injective_id, tsTrace_run hs, hobs.1, hobs.2,
    tsRun_sound _ _ _ _ injective_id s (tsTrace_run hs)⟩

end Charmos.Sync
