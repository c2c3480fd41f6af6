import Charmos.Thread.ApcSpec

/-!
# Runs of asynchronous procedure calls

Every step that is possible keeps the invariant of `ApcSpec` and passes the checks of the source, so
both hold in every state that a run reaches. `apcRun_ok` says what follows for the calls: an enqueue
is consumed once, in order, and a call is destroyed once, when nothing holds it any more.
-/

namespace Charmos.Apc

open Function Sys

variable {T A K : Type} {s : Sys T A K} {place : A → Place T K} {a : A} {e e' : A → ℕ}
  {pc : Delivery A}

/-! ### What the invariant says -/

theorem Inv.init : Inv (init : Sys T A K) := by
  refine ⟨fun _ => .idle, ⟨?_, ?_, ?_, ?_, ?_, ?_, ?_, ?_, ?_⟩, fun a => ⟨∅, fun x => ?_, rfl⟩,
    ⟨?_, ?_, ?_, ?_⟩, ?_⟩
  · exact fun _ => rfl
  · simp [Sys.init]
  · exact fun _ _ => List.nodup_nil
  · simp [Sys.init, Call.drained]
  · exact fun _ => List.nodup_nil
  · simp [Sys.init, Call.loose]
  · simp [Sys.init, Delivery.running]
  · simp
  · exact fun _ _ => ⟨rfl, rfl⟩
  · cases x <;> simp [Sys.putting, Sys.init, Call.putting, Delivery.putting]
  · simp [Sys.init]
  · exact fun _ => rfl
  · exact fun _ _ => List.Pairwise.nil
  · simp [Sys.init]
  · simp [Sys.init]

/-- What holds of the calls while no lock is held. -/
structure ApcOk (s : Sys T A K) : Prop where
  /-- A call is on one queue at most, and there once. -/
  oneQueue : ∀ a t type u ty, a ∈ s.queue t type → a ∈ s.queue u ty → t = u ∧ type = ty
  nodup : ∀ t type, (s.queue t type).Nodup
  /-- Each enqueue was consumed by one execution, one cancel or one rundown, except the last one of
  a call that is on a queue. -/
  waiting : ∀ a t type, a ∈ s.queue t type →
    s.enqueues a = s.executions a + s.cancels a + s.rundowns a + 1
  consumed : ∀ a, (∀ t type, a ∉ s.queue t type) →
    s.enqueues a = s.executions a + s.cancels a + s.rundowns a
  /-- The numbers of the enqueues that were delivered and of those on the queue, in this order. -/
  order : ∀ t type, (s.delivered t type ++ (s.queue t type).map s.seq).Pairwise (· < ·)
  pending : ∀ t type, s.queue t type ≠ [] → s.pending t type = true
  owner : ∀ a t type, a ∈ s.queue t type → s.owner a = some t ∧ s.state a = .queued
  idle : ∀ a, s.state a = .idle → s.owner a = none
  /-- Besides the users, a call that is not idle holds one reference, and so does each function and
  delivery that is about to drop it. -/
  refs : ∀ a, ∃ P : Finset (K ⊕ T), (∀ x, x ∈ P ↔ s.putting x = some a) ∧
    s.refs a = s.users a + (if s.state a = .idle then 0 else 1) + P.card
  /-- A call is destroyed once, with its last reference; it is then idle and nowhere linked. -/
  destroyed : ∀ a, s.destroyed a = if s.refs a = 0 then 1 else 0
  unlinked : ∀ a, s.refs a = 0 → s.state a = .idle ∧ s.owner a = none ∧ s.next a = none ∧
    ∀ t type, a ∉ s.queue t type

theorem Sys.busy_eq (s : Sys T A K) (a : A) : s.busy a = if s.state a = .idle then 0 else 1 := by
  unfold busy
  cases s.state a <;> rfl

theorem Inv.ok (h : Inv s) : ApcOk s := by
  obtain ⟨place, h⟩ := h
  have hidle : ∀ a, s.state a = .idle → s.owner a = none ∧ s.next a = none := by
    intro a ha
    refine h.placed.unlinked a ?_
    rw [h.placed.idle_of_state ha]
    exact id
  refine ⟨?_, h.placed.queueNodup, ?_, ?_, h.ledger.order, h.ledger.pending, ?_,
    fun a ha => (hidle a ha).1, ?_, h.destroyed, ?_⟩
  · intro a t type u ty h1 h2
    have heq := ((h.placed.queue t type a).mp h1).symm.trans ((h.placed.queue u ty a).mp h2)
    exact Place.queue.inj heq
  · intro a t type ha
    have hc := h.ledger.consumed a
    rwa [(h.placed.queue t type a).mp ha] at hc
  · intro a ha
    have hc := h.ledger.consumed a
    cases hp : place a with
    | queue t type => exact absurd ((h.placed.queue t type a).mpr hp) (ha t type)
    | _ => rwa [hp] at hc
  · intro a t type ha
    have hp := (h.placed.queue t type a).mp ha
    exact ⟨h.placed.owner a t type hp, by simp [h.placed.state, hp, Place.state]⟩
  · intro a
    obtain ⟨P, hP, hr⟩ := h.refs a
    exact ⟨P, hP, by rw [hr, s.busy_eq, add_zero]⟩
  · intro a ha
    obtain ⟨P, -, hr⟩ := h.refs a
    have hst : s.state a = .idle := by
      by_contra hne
      rw [s.busy_eq, if_neg hne] at hr
      omega
    refine ⟨hst, (hidle a hst).1, (hidle a hst).2, fun t type hin => ?_⟩
    have hp := (h.placed.queue t type a).mp hin
    rw [h.placed.idle_of_state hst] at hp
    cases hp

/-! ### Steps of users -/

/-- Who can call the functions holds a reference. -/
theorem RefsOk.pos_of_inReach (h : RefsOk e s) (ha : s.inReach a = true) : s.refs a ≠ 0 := by
  obtain ⟨P, -, hr⟩ := h a
  simp only [inReach, decide_eq_true_eq] at ha
  rcases ha with hu | hs
  · omega
  · have hbusy : s.busy a = 1 := by simp [busy, hs]
    omega

/-- The invariant does not read the flags of the threads. -/
theorem InvWith.setFlags (h : InvWith e s place) (dying : T → Bool) (special kernel : T → ℕ) :
    InvWith e { s with
      dying := dying
      specialApcDisable := special
      kernelApcDisable := kernel } place :=
  ⟨{ h.placed with }, h.refs, { h.ledger with }, h.destroyed⟩

/-- A user takes up a reference, or leaves one. -/
theorem InvWith.setUsers (h : InvWith e s place) {users : A → ℕ}
    (hu : ∀ b, s.users b + e b = users b + e' b) : InvWith e' { s with users := users } place := by
  refine ⟨{ h.placed with }, h.refs.congr rfl fun b => ?_,
    { h.ledger with }, h.destroyed⟩
  have := hu b
  simp only [busy]
  omega

/-- The places of a delivery at which it has no call in its hands. -/
def Delivery.Free : Delivery A → Prop
  | .exec _ _ _ | .put _ _ _ => False
  | _ => True

theorem Delivery.Free.spec (h : pc.Free) : pc.running = none ∧ pc.putting = none := by
  cases pc with
  | exec a type budget | put a type budget => exact h.elim
  | _ => exact ⟨rfl, rfl⟩

theorem Delivery.free_after (type : ApcType) : (Delivery.after type : Delivery A).Free := by
  cases type <;> trivial

variable [DecidableEq T] [DecidableEq A] [DecidableEq K] {k : K}

omit [DecidableEq T] [DecidableEq K] in
theorem InvWith.getref (h : InvWith (fun _ => 0) s place) (ha : s.refs a ≠ 0) :
    InvWith (holds (some a)) { s with refs := update s.refs a (s.refs a + 1) } place := by
  refine ⟨{ h.placed with }, h.refs.congr rfl fun b => ?_,
    { h.ledger with }, fun b => ?_⟩
  · by_cases hb : b = a
    · subst hb
      simp only [update_self, holds, busy, if_true]
      omega
    · simp [update_of_ne hb, holds, busy, Ne.symm hb]
  · by_cases hb : b = a
    · subst hb
      simp [h.destroyed, ha]
    · simp [h.destroyed, hb]

/-- A function that had nothing in its hands returns. -/
theorem InvWith.ret (h : InvWith (fun _ => 0) s place) (hk : (s.call k).isIdle) (result : Bool) :
    InvWith (fun _ => 0) (s.setCall k (.ret result)) place := by
  obtain ⟨hd, hl, hp⟩ := Call.isIdle_spec hk
  exact h.setCall k _ hd.symm hl.symm fun b => by rw [hp]; rfl

/-! ### Critical sections -/

theorem Inv.enqueue (h : Inv s) (hk : (s.call k).isIdle) (t : T) (ha : s.inReach a = true)
    (type : ApcType) (ok : Bool) :
    ∃ s', (apcEnqueue s t a type ok).map (fun r => r.2.setCall k r.1) = .ok s' ∧ Inv s' := by
  obtain ⟨place, h⟩ := h
  obtain ⟨hd, hl, hp⟩ := Call.isIdle_spec hk
  have hpos := h.refs.pos_of_inReach ha
  unfold apcEnqueue
  split
  · exact ⟨_, rfl, place, h.ret hk false⟩
  rw [apcGetref, if_neg hpos]
  have h1 := h.getref hpos
  by_cases hidle : s.state a = .idle
  · have howner : s.owner a = none := by
      refine (h.placed.unlinked a ?_).1
      rw [h.placed.idle_of_state hidle]
      exact id
    simp only [hidle, howner, ne_eq, not_true_eq_false, if_false]
    exact ⟨_, rfl, _, (h1.enqueue hidle t type).ret hk true⟩
  · simp only [ne_eq, hidle, not_false_eq_true, if_true]
    refine ⟨_, rfl, place, h1.setCall k _ hd.symm hl.symm fun b => ?_⟩
    rw [hp]
    simp [holds, Call.putting]

theorem Inv.cancel (h : Inv s) (hk : (s.call k).isIdle) (t : T) (a : A) (ok : Bool) :
    ∃ s', (apcCancel s t a ok).map (fun r => r.2.setCall k r.1) = .ok s' ∧ Inv s' := by
  obtain ⟨place, h⟩ := h
  unfold apcCancel
  split
  · exact ⟨_, rfl, place, h.ret hk false⟩
  cases hf : apcTypes.find? (a ∈ s.queue t ·) with
  | none => exact ⟨_, rfl, place, h.ret hk false⟩
  | some type =>
    have ha : a ∈ s.queue t type := by simpa using List.find?_some hf
    obtain ⟨s', hs', h'⟩ := h.cancel ha hk
    simp only [hs']
    refine ⟨_, rfl, update place a (.loose k), ?_⟩
    simp only [updatePendingMask]
    split
    · next hq => exact h'.setPending hq
    · exact h'

/-! ### Steps outside the lock -/

theorem Inv.callStep (h : Inv s) (k : K) :
    callStep s k = none ∨ ∃ s', callStep s k = some (.ok s') ∧ Inv s' := by
  obtain ⟨place, h⟩ := h
  unfold Apc.callStep
  cases hk : s.call k with
  | idle | ret result => exact .inl rfl
  | putFail a =>
    obtain ⟨s', hs', h'⟩ := h.putCall hk rfl (.ret false) rfl rfl rfl
    exact .inr ⟨s', congrArg some hs', place, h'⟩
  | cancelIdle a =>
    exact .inr ⟨_, rfl, _, h.idleCall hk rfl rfl (.cancelPut a) rfl rfl rfl⟩
  | cancelPut a =>
    obtain ⟨s', hs', h'⟩ := h.putCall hk rfl (.ret true) rfl rfl rfl
    exact .inr ⟨s', congrArg some hs', place, h'⟩
  | runNext drained =>
    cases drained with
    | nil =>
      exact .inr ⟨_, rfl, place, h.setCall k _ (by rw [hk]; rfl) (by rw [hk]; rfl)
        fun b => by rw [hk]; rfl⟩
    | cons a drained => exact .inr ⟨_, rfl, _, h.runNext hk⟩
  | runIdle a drained =>
    exact .inr ⟨_, rfl, _, h.idleCall hk rfl rfl (.runPut a drained) rfl rfl rfl⟩
  | runPut a drained =>
    obtain ⟨s', hs', h'⟩ := h.putCall hk rfl (.runNext drained) rfl rfl rfl
    exact .inr ⟨s', congrArg some hs', place, h'⟩

/-- A delivery with no call in its hands goes on without one. -/
theorem InvWith.freeDelivery (h : InvWith (fun _ => 0) s place) {t : T} (ht : (s.delivery t).Free)
    (hpc : pc.Free) : InvWith (fun _ => 0) (s.setDelivery t pc) place := by
  obtain ⟨hr, hp⟩ := ht.spec
  obtain ⟨hr', hp'⟩ := hpc.spec
  exact h.setDelivery t pc (hr'.trans hr.symm) fun b => by rw [hp, hp']

theorem Inv.deliverStep (h : Inv s) (t : T) (ok : Bool) :
    deliverStep s t ok = none ∨ ∃ s', deliverStep s t ok = some (.ok s') ∧ Inv s' := by
  obtain ⟨place, h⟩ := h
  unfold Apc.deliverStep
  cases ht : s.delivery t with
  | idle => exact .inl rfl
  | check type =>
    have hfree : (s.delivery t).Free := by rw [ht]; trivial
    refine .inr ⟨_, rfl, place, h.freeDelivery hfree ?_⟩
    split
    · trivial
    · exact Delivery.free_after type
  | loop type budget =>
    have hfree : (s.delivery t).Free := by rw [ht]; trivial
    dsimp only
    split
    · exact .inr ⟨_, rfl, place, h.freeDelivery hfree (Delivery.free_after type)⟩
    cases hq : s.queue t type with
    | nil =>
      refine .inr ⟨_, rfl, place, (h.setPending hq).freeDelivery ?_ (Delivery.free_after type)⟩
      exact hfree
    | cons a l =>
      have hpl : place a = .queue t type := (h.placed.queue t type a).mp (by simp [hq])
      have howner : s.owner a = some t := h.placed.owner a t type hpl
      have hstate : s.state a = .queued := by simp [h.placed.state, hpl, Place.state]
      simp only [howner, hstate, ne_eq, not_true_eq_false, if_false]
      exact .inr ⟨_, rfl, _, h.deliver hq hfree.spec.1 hfree.spec.2 _⟩
  | exec a type budget =>
    exact .inr ⟨_, rfl, _, h.idleDelivery (by rw [ht]; rfl) (by rw [ht]; rfl)
      (.put a type budget) rfl rfl⟩
  | put a type budget =>
    obtain ⟨s', hs', h'⟩ := h.putDelivery (t := t) (a := a) (by rw [ht]; rfl) (.loop type budget)
      (by rw [ht]; rfl) rfl
    exact .inr ⟨s', congrArg some hs', place, h'⟩

/-! ### Runs -/

/-- A step is not possible, or it passes all checks and keeps the invariant. -/
theorem Inv.step (h : Inv s) (act : Act T A K) :
    apcStep s act = none ∨ ∃ s', apcStep s act = some (.ok s') ∧ Inv s' := by
  cases act with
  | enqueue k t a type ok =>
    simp only [apcStep]
    split
    · next hc =>
      obtain ⟨s', hs', h'⟩ := h.enqueue hc.1 t hc.2 type ok
      exact .inr ⟨s', congrArg some hs', h'⟩
    · exact .inl rfl
  | cancel k t a ok =>
    simp only [apcStep]
    split
    · next hc =>
      obtain ⟨s', hs', h'⟩ := h.cancel hc.1 t a ok
      exact .inr ⟨s', congrArg some hs', h'⟩
    · exact .inl rfl
  | rundown k t =>
    simp only [apcStep]
    split
    · next hc =>
      obtain ⟨place, h⟩ := h
      exact .inr ⟨_, rfl, _, h.rundown t hc⟩
    · exact .inl rfl
  | call k => exact h.callStep k
  | apcCheckAndDeliver t =>
    simp only [apcStep]
    obtain ⟨place, h⟩ := h
    cases ht : s.delivery t with
    | idle =>
      dsimp only
      split
      · refine .inr ⟨_, rfl, place, h.freeDelivery ?_ trivial⟩
        rw [ht]
        trivial
      · exact .inl rfl
    | _ => exact .inl rfl
  | deliverStep t ok => exact h.deliverStep t ok
  | getref a =>
    simp only [apcStep]
    split
    · next hc =>
      obtain ⟨place, h⟩ := h
      have hpos := h.refs.pos_of_inReach hc
      rw [apcGetref, if_neg hpos]
      refine .inr ⟨_, rfl, place, (h.getref hpos).setUsers fun b => ?_⟩
      by_cases hb : b = a
      · subst hb
        simp [holds]
      · simp [holds, hb, Ne.symm hb]
    · exact .inl rfl
  | putref a =>
    simp only [apcStep]
    split
    · next hc =>
      obtain ⟨place, h⟩ := h
      have h1 : InvWith (holds (some a))
          { s with users := update s.users a (s.users a - 1) } place := by
        refine h.setUsers fun b => ?_
        by_cases hb : b = a
        · subst hb
          simp only [update_self, holds, if_true]
          omega
        · simp [holds, hb, Ne.symm hb]
      obtain ⟨s', hs', h'⟩ := h1.putref
      exact .inr ⟨s', congrArg some hs', place, h'⟩
    · exact .inl rfl
  | die t | apcDisableSpecial t | apcDisableKernel t =>
    obtain ⟨place, h⟩ := h
    exact .inr ⟨_, rfl, place, h.setFlags _ _ _⟩
  | apcEnableSpecial t | apcEnableKernel t =>
    simp only [apcStep]
    split
    · obtain ⟨place, h⟩ := h
      exact .inr ⟨_, rfl, place, h.setFlags _ _ _⟩
    · exact .inl rfl

theorem Inv.reachable (hs : Reachable s) : Inv s := by
  induction hs with
  | refl => exact Inv.init
  | tail _ hstep ih =>
    obtain ⟨act, hact⟩ := hstep
    rcases ih.step act with hnone | ⟨s', hs', h'⟩
    · simp [hnone] at hact
    · rw [hact] at hs'
      obtain rfl := Except.ok.inj (Option.some.inj hs')
      exact h'

/-- In every state that a run reaches, each enqueue is consumed at most once and until then the call
is on one queue, calls are delivered in the order of their enqueues, the pending bits, the owners
and the references are right, a call is destroyed once and only when it is idle and unlinked; and no
check fails in the next step. -/
theorem apcRun_ok {s : Sys T A K} (hs : Reachable s) :
    ApcOk s ∧ ∀ act fault, apcStep s act ≠ some (.error fault) := by
  have h := Inv.reachable hs
  refine ⟨h.ok, fun act fault hact => ?_⟩
  rcases h.step act with hnone | ⟨s', hs', -⟩
  · simp [hnone] at hact
  · simp [hs'] at hact

/-- The state after a list of actions, if they are possible and pass the checks. -/
def trace (s : Sys T A K) : List (Act T A K) → Option (Sys T A K)
  | [] => some s
  | act :: acts =>
    match apcStep s act with
    | some (.ok s') => trace s' acts
    | _ => none

theorem trace_reachable {s s' : Sys T A K} {acts : List (Act T A K)} (hs : Reachable s)
    (h : trace s acts = some s') : Reachable s' := by
  induction acts generalizing s with
  | nil =>
    obtain ⟨⟩ := h
    exact hs
  | cons act acts ih =>
    rw [trace] at h
    split at h
    · next s₁ hstep => exact ih (hs.tail ⟨act, hstep⟩) h
    · cases h

/-- The only call is enqueued, delivered and enqueued again, and its creator gives up the
reference. -/
theorem apcRun_ok_twice : ∃ s : Sys Unit Unit Unit, Reachable s ∧
    (s.delivered () .kernel, s.enqueues (), s.executions (), s.refs ()) = ([0], 2, 1, 1) ∧
    ApcOk s := by
  obtain ⟨acts, hacts⟩ : ∃ acts : List (Act Unit Unit Unit), acts =
      [.enqueue () () () .kernel true, .apcCheckAndDeliver (), .deliverStep () true,
        .deliverStep () true, .deliverStep () true, .deliverStep () true, .deliverStep () true,
        .enqueue () () () .kernel true, .putref ()] := ⟨_, rfl⟩
  have hend : (trace init acts).map (fun s =>
      (s.delivered () .kernel, s.enqueues (), s.executions (), s.refs ())) =
      some ([0], 2, 1, 1) := by
    rw [hacts]
    decide +kernel
  obtain ⟨s, hs, hb⟩ := Option.map_eq_some_iff.mp hend
  have hreach := trace_reachable Relation.ReflTransGen.refl hs
  exact ⟨s, hreach, hb, (apcRun_ok hreach).1⟩

end Charmos.Apc
