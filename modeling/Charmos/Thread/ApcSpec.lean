import Charmos.Thread.Apc

/-!
# Where an asynchronous procedure call is

At every moment a call is in one place: idle, on one queue, in the list that one rundown has taken
over, in the hands of one function that has removed it from there, or executed by one thread. The
place decides the state, and outside the two lists a call has no owner and no link. Each function
that is about to drop a reference has one, and so has each place but the idle one; the rest belong
to the users.
-/

namespace Charmos.Apc

open Function List Option Sys

/-- Where a call is. -/
inductive Place (T K : Type)
  | idle
  | queue (t : T) (type : ApcType)
  | drained (k : K)
  | loose (k : K)
  | exec (t : T)
  deriving DecidableEq

/-- The state of a call in a place. -/
def Place.state {T K : Type} : Place T K → ApcState
  | .idle => .idle
  | .exec _ => .executing
  | _ => .queued

/-- The places in which a call has an owner and can have a link. -/
def Place.Linked {T K : Type} : Place T K → Prop
  | .queue _ _ | .drained _ => True
  | _ => False

/-- One on a queue, zero elsewhere. -/
def Place.waiting {T K : Type} : Place T K → ℕ
  | .queue _ _ => 1
  | _ => 0

/-- What a rundown has still to do. -/
def Call.drained {A : Type} : Call A → List A
  | .runNext l | .runIdle _ l | .runPut _ l => l
  | _ => []

/-- The call that is removed and not yet idle. -/
def Call.loose {A : Type} : Call A → Option A
  | .cancelIdle a | .runIdle a _ => some a
  | _ => none

/-- The call whose reference goes next. -/
def Call.putting {A : Type} : Call A → Option A
  | .putFail a | .cancelPut a | .runPut a _ => some a
  | _ => none

def Delivery.running {A : Type} : Delivery A → Option A
  | .exec a _ _ => some a
  | _ => none

def Delivery.putting {A : Type} : Delivery A → Option A
  | .put a _ _ => some a
  | _ => none

variable {T A K : Type}

/-- The references that functions and deliveries are about to drop. -/
def Sys.putting (s : Sys T A K) : K ⊕ T → Option A
  | .inl k => (s.call k).putting
  | .inr t => (s.delivery t).putting

/-- The reference of a queue, of a function that has removed the call, or of its execution. -/
def Sys.busy (s : Sys T A K) (a : A) : ℕ :=
  match s.state a with
  | .idle => 0
  | _ => 1

/-- One if it is this call. -/
def holds [DecidableEq A] (o : Option A) (a : A) : ℕ := if o = some a then 1 else 0

/-- Each call is where its place says. -/
structure Placed (s : Sys T A K) (place : A → Place T K) : Prop where
  state : ∀ a, s.state a = (place a).state
  queue : ∀ t type a, a ∈ s.queue t type ↔ place a = .queue t type
  queueNodup : ∀ t type, (s.queue t type).Nodup
  drained : ∀ k a, a ∈ (s.call k).drained ↔ place a = .drained k
  drainedNodup : ∀ k, (s.call k).drained.Nodup
  loose : ∀ k a, (s.call k).loose = some a ↔ place a = .loose k
  running : ∀ t a, (s.delivery t).running = some a ↔ place a = .exec t
  owner : ∀ a t type, place a = .queue t type → s.owner a = some t
  unlinked : ∀ a, ¬ (place a).Linked → s.owner a = none ∧ s.next a = none

/-- The references are accounted for, up to those in `e`. -/
def RefsOk (e : A → ℕ) (s : Sys T A K) : Prop :=
  ∀ a, ∃ P : Finset (K ⊕ T), (∀ x, x ∈ P ↔ s.putting x = some a) ∧
    s.refs a = s.users a + s.busy a + P.card + e a

/-- The enqueues, their numbers and what became of them. -/
structure Ledger (s : Sys T A K) (place : A → Place T K) : Prop where
  pending : ∀ t type, s.queue t type ≠ [] → s.pending t type = true
  consumed : ∀ a, s.enqueues a =
    s.executions a + s.cancels a + s.rundowns a + (place a).waiting
  order : ∀ t type, (s.delivered t type ++ (s.queue t type).map s.seq).Pairwise (· < ·)
  bound : ∀ t type, ∀ n ∈ s.delivered t type ++ (s.queue t type).map s.seq, n < s.clock

/-- The invariant, with references in `e` that nobody has taken up. -/
structure InvWith (e : A → ℕ) (s : Sys T A K) (place : A → Place T K) : Prop where
  placed : Placed s place
  refs : RefsOk e s
  ledger : Ledger s place
  destroyed : ∀ a, s.destroyed a = if s.refs a = 0 then 1 else 0

def Inv (s : Sys T A K) : Prop :=
  ∃ place, InvWith (fun _ => 0) s place

variable {s s' : Sys T A K} {place : A → Place T K} {a : A} {e e' : A → ℕ}

/-! ### Places -/

/-- The call is on the list, or in the hands, that the place names. -/
def Sys.At (s : Sys T A K) (a : A) : Place T K → Prop
  | .idle => False
  | .queue t type => a ∈ s.queue t type
  | .drained k => a ∈ (s.call k).drained
  | .loose k => (s.call k).loose = some a
  | .exec t => (s.delivery t).running = some a

theorem Placed.at_iff (h : Placed s place) {x : Place T K} (hx : x ≠ .idle) (b : A) :
    s.At b x ↔ place b = x := by
  cases x with
  | idle => exact absurd rfl hx
  | queue t type => exact h.queue t type b
  | drained k => exact h.drained k b
  | loose k => exact h.loose k b
  | exec t => exact h.running t b

/-- Nobody moves, and the references change with what they are for. -/
theorem RefsOk.congr (h : RefsOk e s) (hp : s'.putting = s.putting)
    (hb : ∀ a, s'.refs a + (s.users a + s.busy a + e a) =
      s.refs a + (s'.users a + s'.busy a + e' a)) : RefsOk e' s' := by
  intro a
  obtain ⟨P, hP, hr⟩ := h a
  refine ⟨P, fun x => by rw [hp, hP], ?_⟩
  have := hb a
  omega

theorem Placed.idle_of_state (h : Placed s place)
    (hidle : s.state a = .idle) : place a = .idle := by
  have hst := h.state a
  rw [hidle] at hst
  cases hp : place a <;> simp [hp, Place.state] at hst
  rfl

theorem Call.isIdle_spec {pc : Call A} (h : pc.isIdle = true) :
    pc.drained = [] ∧ pc.loose = none ∧ pc.putting = none := by
  cases pc with
  | idle | ret result => exact ⟨rfl, rfl, rfl⟩
  | _ => exact absurd h Bool.false_ne_true

theorem mem_apcTypes (type : ApcType) : type ∈ apcTypes := by
  cases type <;> simp [apcTypes]

theorem Placed.mem_queues (h : Placed s place) (t : T) (a : A) : a ∈ apcTypes.flatMap (s.queue t) ↔
    ∃ type, place a = .queue t type := by
  simp only [mem_flatMap, mem_apcTypes, true_and, h.queue]

theorem Placed.queues_nodup (h : Placed s place) (t : T) :
    (apcTypes.flatMap (s.queue t)).Nodup := by
  refine nodup_flatMap.mpr ⟨fun type _ => h.queueNodup t type, ?_⟩
  refine Pairwise.imp ?_ (show apcTypes.Nodup by decide)
  intro x y hne a hx hy
  have hxy := ((h.queue t x a).mp hx).symm.trans ((h.queue t y a).mp hy)
  exact hne (Place.queue.inj hxy).2

section

theorem Placed.not_mem_queue (h : Placed s place) {t : T} {type : ApcType}
    (ha : ¬ (place a).Linked) : a ∉ s.queue t type := by
  intro hc
  rw [(h.queue t type a).mp hc] at ha
  exact ha trivial

theorem mem_tail_iff {l : List A} (h : (a :: l).Nodup) {b : A} : b ∈ l ↔ b ∈ a :: l ∧ b ≠ a := by
  refine ⟨fun hb => ⟨mem_cons_of_mem _ hb, ?_⟩,
    fun hb => (mem_cons.mp hb.1).resolve_left hb.2⟩
  rintro rfl
  exact (nodup_cons.mp h).1 hb

variable [DecidableEq A] {p : Place T K}

/-- A call goes from the place `q` to the place `p`. -/
theorem Placed.move {q : Place T K} (h : Placed s place) (hq : place a = q) (hne : p ≠ q)
    (hstate : s'.state a = p.state) (hstate' : ∀ b, b ≠ a → s'.state b = s.state b)
    (hsame : ∀ x, x ≠ p → x ≠ q → ∀ b, s'.At b x ↔ s.At b x)
    (hleave : ∀ b, s'.At b q ↔ s.At b q ∧ b ≠ a)
    (henter : p ≠ .idle → ∀ b, s'.At b p ↔ s.At b p ∨ b = a)
    (hqueue : ∀ t type, (s'.queue t type).Nodup) (hdrained : ∀ k, (s'.call k).drained.Nodup)
    (hon : ∀ t type, p = .queue t type → s'.owner a = some t)
    (hoff : ¬ p.Linked → s'.owner a = none ∧ s'.next a = none)
    (howner : ∀ b, b ≠ a → s'.owner b = s.owner b)
    (hnext : ∀ b, b ≠ a → ¬ (place b).Linked → s'.next b = s.next b) :
    Placed s' (update place a p) := by
  subst hq
  have hat : ∀ x, x ≠ .idle → ∀ b, s'.At b x ↔ update place a p b = x := by
    intro x hx b
    by_cases hb : b = a
    · subst hb
      rw [update_self]
      by_cases hp : x = p
      · subst hp
        simp [henter hx]
      refine iff_of_false (fun hc => ?_) (Ne.symm hp)
      by_cases hq : x = place b
      · subst hq
        exact ((hleave b).mp hc).2 rfl
      · exact hq ((h.at_iff hx b).mp ((hsame x hp hq b).mp hc)).symm
    · rw [update_of_ne hb, ← h.at_iff hx]
      by_cases hp : x = p
      · subst hp
        simp [henter hx, hb]
      by_cases hq : x = place a
      · subst hq
        simp [hleave, hb]
      · exact hsame x hp hq b
  refine ⟨fun b => ?_, fun t type => hat (.queue t type) nofun, hqueue,
    fun k => hat (.drained k) nofun, hdrained, fun k => hat (.loose k) nofun, fun t => hat
      (.exec t) nofun, fun b t type hb => ?_,
    fun b hb => ?_⟩
  all_goals by_cases hba : b = a
  · subst hba
    rw [update_self, hstate]
  · rw [update_of_ne hba, hstate' b hba, h.state]
  · subst hba
    exact hon t type (by simpa using hb)
  · rw [howner b hba]
    exact h.owner b t type (by simpa [hba] using hb)
  · subst hba
    exact hoff (by simpa using hb)
  · have hl : ¬ (place b).Linked := by simpa [hba] using hb
    rw [howner b hba, hnext b hba hl]
    exact h.unlinked b hl

theorem waiting_update {n m : A → ℕ} (h : ∀ b, n b = m b + (place b).waiting)
    (hp : p.waiting = (place a).waiting) : ∀ b, n b = m b + (update place a p b).waiting := by
  intro b
  by_cases hb : b = a
  · subst hb
    simp [h, hp]
  · simp [h, hb]

/-! ### Lists -/

/-- Links are written only for the call itself and for the last member of the list. -/
theorem linkTail_eq (next : A → Option A) (l : List A) {b : A} (ha : b ≠ a) (hb : b ∉ l) :
    linkTail next l a b = next b := by
  unfold linkTail
  cases hl : l.getLast? with
  | none => simp [ha]
  | some tail =>
    have hne : b ≠ tail := fun hc => hb (hc ▸ mem_of_getLast? hl)
    simp [ha, hne]

theorem unlink_self (next : A → Option A) (l : List A) : unlink next l a a = none := by
  unfold unlink
  cases (l.takeWhile (· ≠ a)).getLast? <;> simp

/-- Links are written only for the call itself and for a member of the list. -/
theorem unlink_eq (next : A → Option A) (l : List A) {b : A} (ha : b ≠ a) (hb : b ∉ l) :
    unlink next l a b = next b := by
  unfold unlink
  cases hl : (l.takeWhile (· ≠ a)).getLast? with
  | none => simp [ha]
  | some prev =>
    have hprev : prev ∈ l := ( takeWhile_prefix _).subset (mem_of_getLast? hl)
    have hne : b ≠ prev := fun hc => hb (hc ▸ hprev)
    simp [ha, hne]

theorem apcQueueSplice_spec (l : List A) : ∀ (drained : List A) (next : A → Option A),
    (apcQueueSplice drained next l).1 = drained ++ l ∧
      ∀ b, b ∉ drained ++ l → (apcQueueSplice drained next l).2 b = next b := by
  induction l with
  | nil => exact fun drained next => ⟨(append_nil drained).symm, fun _ _ => rfl⟩
  | cons a l ih =>
    intro drained next
    obtain ⟨h1, h2⟩ := ih (drained ++ [a]) (linkTail next drained a)
    refine ⟨h1.trans (by simp), fun b hb => (h2 b (by simpa using hb)).trans ?_⟩
    simp only [mem_append, mem_cons, not_or] at hb
    exact linkTail_eq next drained hb.2.1 hb.1

/-- The rundown collects the queues in the order of the types, and writes only links of what it
collects. -/
theorem splice_types_spec (queue : ApcType → List A) (types : List ApcType) :
    ∀ (drained : List A) (next : A → Option A),
      (types.foldl (fun r type => apcQueueSplice r.1 r.2 (queue type)) (drained, next)).1 =
        drained ++ types.flatMap queue ∧
      ∀ b, b ∉ drained ++ types.flatMap queue →
        (types.foldl (fun r type => apcQueueSplice r.1 r.2 (queue type)) (drained, next)).2 b =
          next b := by
  induction types with
  | nil => exact fun drained next => ⟨by simp, fun _ _ => rfl⟩
  | cons type types ih =>
    intro drained next
    obtain ⟨g1, g2⟩ := apcQueueSplice_spec (queue type) drained next
    obtain ⟨h1, h2⟩ := ih (apcQueueSplice drained next (queue type)).1
      (apcQueueSplice drained next (queue type)).2
    refine ⟨h1.trans (by simp [g1]), fun b hb => ?_⟩
    have hb' : b ∉ drained ++ queue type ++ types.flatMap queue := by simpa using hb
    exact (h2 b (g1 ▸ hb')).trans (g2 b fun hc => hb' (mem_append_left _ hc))

end

section

variable [DecidableEq T] {type : ApcType} {t : T}

/-- One entry of a table with two indices is written. -/
theorem update_update_apply {β : Type} (f : T → ApcType → β) (t : T) (type : ApcType) (b : β)
    (u : T) (ty : ApcType) :
    update f t (update (f t) type b) u ty = if u = t ∧ ty = type then b else f u ty := by
  by_cases hu : u = t
  · subst hu
    simp [update_apply]
  · simp [hu]

theorem queue_setQueue (s : Sys T A K) (t : T) (type : ApcType) (l : List A) (u : T)
    (ty : ApcType) :
    (s.setQueue t type l).queue u ty = if u = t ∧ ty = type then l else s.queue u ty :=
  update_update_apply ..

/-- The bit of an empty queue can be cleared. -/
theorem Ledger.setPending (h : Ledger s place) (hq : s.queue t type = []) :
    Ledger (s.setPending t type false) place := by
  refine ⟨fun u ty hne => ?_, h.consumed, h.order, h.bound⟩
  refine (update_update_apply ..).trans ?_
  split
  · next hu =>
    obtain ⟨rfl, rfl⟩ := hu
    exact absurd hq hne
  · exact h.pending u ty hne

theorem InvWith.setPending (h : InvWith e s place) (hq : s.queue t type = []) :
    InvWith e (s.setPending t type false) place :=
  ⟨{ h.placed with }, h.refs, h.ledger.setPending hq, h.destroyed⟩

omit [DecidableEq T] in
/-- Calls leave the queues, some of them to be delivered. -/
theorem Ledger.shrink {place' : A → Place T K} (h : Ledger s place) (hclock : s'.clock = s.clock)
    (hsub : ∀ t type, (s'.delivered t type ++ (s'.queue t type).map s'.seq).Sublist
      (s.delivered t type ++ (s.queue t type).map s.seq))
    (hpending : ∀ t type, s'.queue t type ≠ [] → s'.pending t type = true)
    (hconsumed : ∀ a, s'.enqueues a =
      s'.executions a + s'.cancels a + s'.rundowns a + (place' a).waiting) : Ledger s' place' :=
  ⟨hpending, hconsumed, fun t type => (h.order t type).sublist (hsub t type),
    fun t type n hn => hclock ▸ h.bound t type n ((hsub t type).subset hn)⟩

/-- Where the calls are after a rundown. -/
def runPlace (place : A → Place T K) (t : T) (k : K) (a : A) : Place T K :=
  match place a with
  | .queue u type => if u = t then .drained k else .queue u type
  | p => p

/-- The calls on the queues of the thread move, and no others. -/
theorem runPlace_cases (place : A → Place T K) (t : T) (k : K) (a : A) :
    (∃ type, place a = .queue t type) ∧ runPlace place t k a = .drained k ∨
      (∀ type, place a ≠ .queue t type) ∧ runPlace place t k a = place a := by
  unfold runPlace
  cases hp : place a with
  | queue u type => by_cases hu : u = t <;> simp [hu]
  | _ => simp

/-- A place other than the lists of the thread and of the rundown keeps who was there. -/
theorem runPlace_eq_iff {place : A → Place T K} {k : K} {p : Place T K}
    (hq : ∀ type, p ≠ .queue t type) (hd : p ≠ .drained k) :
    runPlace place t k a = p ↔ place a = p := by
  rcases runPlace_cases place t k a with ⟨⟨type, hp⟩, hr⟩ | ⟨-, hr⟩
  · rw [hr, hp]
    exact iff_of_false hd.symm (hq type).symm
  · rw [hr]

end

variable [DecidableEq A]

/-! ### References -/

/-- A reference that nobody has taken up can be dropped: if it is the last one, the call is idle and
has neither owner nor link. -/
theorem InvWith.putref (h : InvWith (holds (some a)) s place) :
    ∃ s', apcPutref s a = .ok s' ∧ InvWith (fun _ => 0) s' place := by
  obtain ⟨P, -, hr⟩ := h.refs a
  have hone : holds (some a) a = 1 := if_pos rfl
  have hpos : s.refs a ≠ 0 := by omega
  have hrefs : RefsOk (fun _ => 0)
      { s with refs := update s.refs a (s.refs a - 1) } := by
    refine h.refs.congr rfl fun b => ?_
    by_cases hb : b = a
    · subst hb
      simp only [update_self, hone, busy]
      omega
    · have hne : holds (some a) b = 0 := if_neg fun hc => hb (some.inj hc).symm
      simp only [update_of_ne hb, hne, busy]
  rw [apcPutref, if_neg hpos]
  simp only [update_self]
  by_cases hlast : s.refs a - 1 = 0
  · have hbusy : s.busy a = 0 := by omega
    have hidle : s.state a = .idle := by
      unfold busy at hbusy
      cases hs : s.state a with
      | idle => rfl
      | queued | executing => simp [hs] at hbusy
    have hplace : ¬ (place a).Linked := by
      rw [h.placed.idle_of_state hidle]
      exact id
    obtain ⟨howner, hnext⟩ := h.placed.unlinked a hplace
    rw [if_neg (not_not.mpr hlast), if_neg (not_not.mpr hidle), if_neg (not_not.mpr howner),
      if_neg (not_not.mpr hnext)]
    refine ⟨_, rfl, { h.placed with }, hrefs, { h.ledger with }, fun b => ?_⟩
    by_cases hb : b = a
    · subst hb
      simp [hlast, h.destroyed, hpos]
    · simp [hb, h.destroyed]
  · rw [if_pos hlast]
    refine ⟨_, rfl, { h.placed with }, hrefs, { h.ledger with }, fun b => ?_⟩
    by_cases hb : b = a
    · subst hb
      simp [hlast, h.destroyed, hpos]
    · simp [hb, h.destroyed]

variable [DecidableEq T]

theorem apcPutref_setDelivery (s : Sys T A K) (a : A) (t : T) (pc : Delivery A) :
    (apcPutref s a).map (·.setDelivery t pc) = apcPutref (s.setDelivery t pc) a := by
  simp only [apcPutref, apply_ite (Except.map _)]
  rfl

theorem queue_addApcToThread (s : Sys T A K) (t : T) (a : A) (type : ApcType) (u : T)
    (ty : ApcType) :
    (addApcToThread s t a type).queue u ty =
      if u = t ∧ ty = type then s.queue t type ++ [a] else s.queue u ty := by
  exact update_update_apply ..

theorem pending_addApcToThread (s : Sys T A K) (t : T) (a : A) (type : ApcType) (u : T)
    (ty : ApcType) :
    (addApcToThread s t a type).pending u ty =
      if u = t ∧ ty = type then true else s.pending u ty := by
  exact update_update_apply ..

/-- The call is put on a queue of a thread, with a reference that nobody had taken up. -/
theorem InvWith.enqueue (h : InvWith (holds (some a)) s place) (hidle : s.state a = .idle) (t : T)
    (type : ApcType) : InvWith (fun _ => 0) (addApcToThread (s.storeState a .queued) t a type)
      (update place a (.queue t type)) := by
  have hpl : place a = .idle := h.placed.idle_of_state hidle
  have hfree : ∀ u ty, a ∉ s.queue u ty := by
    intro u ty hc
    have hq := (h.placed.queue u ty a).mp hc
    simp [hpl] at hq
  -- the numbers of the members of a queue do not change, since the call is on none
  have hnum : ∀ u ty, s.delivered u ty ++ ((addApcToThread (s.storeState a .queued) t a type).queue
        u ty).map (update s.seq a s.clock) =
      s.delivered u ty ++ (s.queue u ty).map s.seq ++
        if u = t ∧ ty = type then [s.clock] else [] := by
    intro u ty
    have hseq : (s.queue u ty).map (update s.seq a s.clock) = (s.queue u ty).map s.seq :=
      map_congr_left fun b hb => update_of_ne (ne_of_mem_of_not_mem hb (hfree u ty)) _ _
    rw [queue_addApcToThread, append_assoc, ← hseq]
    split
    · next hu =>
      obtain ⟨rfl, rfl⟩ := hu
      simp [storeState]
    · simp [storeState]
  have hnew : ∀ u ty, ∀ n ∈ if u = t ∧ ty = type then [s.clock] else [], n = s.clock := by
    intro u ty n hn
    split at hn
    · exact mem_singleton.mp hn
    · exact absurd hn not_mem_nil
  refine ⟨h.placed.move hpl nofun (update_self ..)
    (fun b hb => update_of_ne hb _ _)
    ?_ (fun _ => by simp [Sys.At]) (fun _ b => ?_) (fun u ty => ?_) h.placed.drainedNodup
    (fun u ty hu => ?_) (fun hc => absurd trivial hc) (fun b hb => update_of_ne hb _ _)
    (fun b hb hbl => linkTail_eq s.next _ hb (h.placed.not_mem_queue hbl)), ?_, ⟨?_, ?_, ?_, ?_⟩,
    h.destroyed⟩
  · rintro (_ | ⟨u, ty⟩ | _ | _ | _) hq - b
    case queue =>
      have hu : ¬ (u = t ∧ ty = type) := by
        rintro ⟨rfl, rfl⟩
        exact hq rfl
      simp only [Sys.At, queue_addApcToThread, if_neg hu, storeState]
    all_goals exact .rfl
  · simp [Sys.At, queue_addApcToThread, storeState]
  · rw [queue_addApcToThread]
    split
    · refine (h.placed.queueNodup t type).append (nodup_singleton a) ?_
      simpa [storeState] using hfree t type
    · exact h.placed.queueNodup u ty
  · obtain ⟨rfl, -⟩ := Place.queue.inj hu
    exact update_self ..
  · refine h.refs.congr rfl fun b => ?_
    by_cases hb : b = a
    · subst hb
      simp [addApcToThread, setQueue, Sys.setPending, storeState, Sys.busy, holds, hidle]
    · simp [addApcToThread, setQueue, Sys.setPending, storeState, Sys.busy, holds, hb, Ne.symm hb]
  · intro u ty hne
    rw [queue_addApcToThread] at hne
    rw [pending_addApcToThread]
    split
    · rfl
    · next hu => exact h.ledger.pending u ty (by simpa [hu, storeState] using hne)
  · intro b
    have hc := h.ledger.consumed b
    by_cases hb : b = a
    · subst hb
      simp only [hpl, Place.waiting] at hc
      simp [addApcToThread, setQueue, Sys.setPending, storeState, Place.waiting, hc]
    · simp [addApcToThread, setQueue, Sys.setPending, storeState, hb, hc]
  · intro u ty
    refine (congrArg (Pairwise (· < ·)) (hnum u ty)).mpr
      (pairwise_append.mpr ⟨h.ledger.order u ty, ?_, fun n hn m hm => ?_⟩)
    · split <;> simp
    · exact hnew u ty m hm ▸ h.ledger.bound u ty n hn
  · intro u ty n hn
    rcases mem_append.mp (hnum u ty ▸ hn) with hn | hn
    · exact Nat.lt_succ_of_lt (h.ledger.bound u ty n hn)
    · exact (hnew u ty n hn).trans_lt s.clock.lt_succ_self

variable [DecidableEq K] {k : K} {c : Call A} {t : T} {type : ApcType} {l : List A}

section

omit [DecidableEq A]

theorem putting_setCall (s : Sys T A K) (k : K) (pc : Call A) :
    (s.setCall k pc).putting = update s.putting (.inl k) pc.putting := by
  funext x
  cases x with
  | inl j =>
    by_cases h : j = k
    · subst h
      simp [putting, setCall]
    · simp [putting, setCall, h]
  | inr t => simp [putting, setCall]

theorem putting_setDelivery (s : Sys T A K) (t : T) (pc : Delivery A) :
    (s.setDelivery t pc).putting = update s.putting (.inr t) pc.putting := by
  funext x
  cases x with
  | inl k => simp [putting, setDelivery]
  | inr u =>
    by_cases h : u = t
    · subst h
      simp [putting, setDelivery]
    · simp [putting, setDelivery, h]

end

/-- One function or delivery goes on, and the references move accordingly. -/
theorem RefsOk.move (h : RefsOk e s) (x : K ⊕ T) (o : Option A)
    (hp : s'.putting = update s.putting x o)
    (hb : ∀ a, s'.refs a + (s.users a + s.busy a + holds (s.putting x) a + e a) =
      s.refs a + (s'.users a + s'.busy a + holds o a + e' a)) : RefsOk e' s' := by
  intro a
  obtain ⟨P, hP, hr⟩ := h a
  have hb := hb a
  have hcard : (P.erase x).card + holds (s.putting x) a = P.card := by
    by_cases hx : s.putting x = some a
    · rw [holds, if_pos hx, Finset.card_erase_add_one ((hP x).mpr hx)]
    · rw [holds, if_neg hx, Finset.erase_eq_of_notMem (mt (hP x).mp hx), add_zero]
  by_cases ho : o = some a
  · have hone : holds o a = 1 := if_pos ho
    refine ⟨insert x (P.erase x), fun y => ?_, ?_⟩
    · rw [hp, Finset.mem_insert, Finset.mem_erase, hP]
      by_cases hy : y = x <;> simp [hy, ho]
    · rw [Finset.card_insert_of_notMem (Finset.notMem_erase x P)]
      omega
  · have hzero : holds o a = 0 := if_neg ho
    refine ⟨P.erase x, fun y => ?_, by omega⟩
    rw [hp, Finset.mem_erase, hP]
    by_cases hy : y = x <;> simp [hy, ho]

omit [DecidableEq T] in
theorem apcPutref_setCall (s : Sys T A K) (a : A) (k : K) (pc : Call A) :
    (apcPutref s a).map (·.setCall k pc) = apcPutref (s.setCall k pc) a := by
  simp only [apcPutref, apply_ite (Except.map _)]
  rfl

/-! ### Steps outside the lock -/

omit [DecidableEq T] [DecidableEq A] in
/-- What is read of a function that goes on and keeps it. -/
theorem call_setCall {β : Type} (f : Call A → β) (hf : f c = f (s.call k)) (j : K) :
    f ((s.setCall k c).call j) = f (s.call j) := by
  by_cases hj : j = k
  · subst hj
    simpa [setCall] using hf
  · simp [setCall, hj]

/-- A function goes on without moving a call; the reference it was to drop, or is now to drop, is
taken from or left to the rest. -/
theorem InvWith.setCall (h : InvWith e s place) (k : K) (pc : Call A)
    (hd : pc.drained = (s.call k).drained) (hl : pc.loose = (s.call k).loose)
    (he : ∀ a, holds (s.call k).putting a + e a = holds pc.putting a + e' a) :
    InvWith e' (s.setCall k pc) place := by
  have hdrained := call_setCall Call.drained hd
  have hloose := call_setCall Call.loose hl
  refine ⟨⟨h.placed.state, h.placed.queue, h.placed.queueNodup, ?_, ?_, ?_, h.placed.running,
    h.placed.owner, h.placed.unlinked⟩, ?_, { h.ledger with },
    h.destroyed⟩
  · intro j a
    rw [hdrained, h.placed.drained]
  · intro j
    rw [hdrained]
    exact h.placed.drainedNodup j
  · intro j a
    rw [hloose, h.placed.loose]
  · refine h.refs.move (.inl k) pc.putting (putting_setCall s k pc) fun a => ?_
    have := he a
    simp only [Sys.setCall, Sys.busy, Sys.putting] at this ⊢
    omega

/-- A delivery goes on without taking or leaving a call. -/
theorem InvWith.setDelivery (h : InvWith e s place) (t : T) (pc : Delivery A)
    (hr : pc.running = (s.delivery t).running)
    (he : ∀ a, holds (s.delivery t).putting a + e a = holds pc.putting a + e' a) :
    InvWith e' (s.setDelivery t pc) place := by
  have hrunning : ∀ u, ((s.setDelivery t pc).delivery u).running = (s.delivery u).running := by
    intro u
    by_cases hu : u = t
    · subst hu
      simpa [Sys.setDelivery] using hr
    · simp [Sys.setDelivery, hu]
  refine ⟨⟨h.placed.state, h.placed.queue, h.placed.queueNodup, h.placed.drained,
    h.placed.drainedNodup, h.placed.loose, ?_, h.placed.owner, h.placed.unlinked⟩, ?_,
    { h.ledger with }, h.destroyed⟩
  · intro u a
    rw [hrunning, h.placed.running]
  refine h.refs.move (.inr t) pc.putting (putting_setDelivery s t pc) fun a => ?_
  have := he a
  simp only [Sys.setDelivery, Sys.busy, Sys.putting] at this ⊢
  omega

variable (h : InvWith (fun _ => 0) s place)
include h

/-- A function that is about to drop a reference drops it and goes on. -/
theorem InvWith.putCall (hk : s.call k = c)
    (ha : c.putting = some a) (pc : Call A) (hd : pc.drained = c.drained) (hl : pc.loose = c.loose)
    (hp : pc.putting = none) :
    ∃ s', (apcPutref s a).map (·.setCall k pc) = .ok s' ∧ InvWith (fun _ => 0) s' place := by
  subst hk
  rw [apcPutref_setCall]
  refine (h.setCall k pc hd hl fun b => ?_).putref
  simp [ha, hp, holds]

theorem InvWith.putDelivery
    (ha : (s.delivery t).putting = some a)
    (pc : Delivery A) (hr : pc.running = (s.delivery t).running) (hp : pc.putting = none) :
    ∃ s', (apcPutref s a).map (·.setDelivery t pc) = .ok s' ∧ InvWith (fun _ => 0) s' place := by
  rw [apcPutref_setDelivery]
  refine (h.setDelivery t pc hr fun b => ?_).putref
  simp [ha, hp, holds]

/-- The store of the idle state after a call was removed from a queue. -/
theorem InvWith.idleCall (hk : s.call k = c)
    (hl : c.loose = some a) (hp : c.putting = none) (pc : Call A) (hd : pc.drained = c.drained)
    (pl : pc.loose = none) (pp : pc.putting = some a) :
    InvWith (fun _ => 0) ((s.storeState a .idle).setCall k pc) (update place a .idle) := by
  subst hk
  have hpl : place a = .loose k := (h.placed.loose k a).mp hl
  have hdrained := call_setCall (s := s.storeState a .idle) Call.drained hd
  have hunlinked := h.placed.unlinked a (by simp [hpl, Place.Linked])
  refine ⟨h.placed.move hpl nofun (update_self ..)
    (fun b hb => update_of_ne hb _ _)
    ?_ (fun b => ?_) (fun hc => absurd rfl hc) h.placed.queueNodup (fun j => ?_) nofun
    (fun _ => hunlinked) (fun _ _ => rfl) fun _ _ _ => rfl, ?_,
    { h.ledger with consumed := ?_ }, h.destroyed⟩
  · rintro (_ | ⟨t, type⟩ | j | j | t) - hj b
    · exact .rfl
    · exact .rfl
    · exact iff_of_eq (congrArg (b ∈ ·) (hdrained j))
    · have hj : j ≠ k := fun hc => hj (congrArg _ hc)
      simp [Sys.At, Sys.setCall, storeState, hj]
    · exact Iff.rfl
  · simp only [Sys.At, Sys.setCall, update_self, pl, hl, reduceCtorEq, some.injEq,
      false_iff, not_and, not_not]
    exact Eq.symm
  · rw [hdrained]
    exact h.placed.drainedNodup j
  · refine h.refs.move (.inl k) pc.putting (putting_setCall (s.storeState a .idle) k pc) fun b => ?_
    simp only [putting, hp, pp]
    by_cases hb : b = a
    · subst hb
      simp [Sys.busy, Sys.setCall, storeState, holds, h.placed.state, hpl, Place.state]
    · simp [Sys.busy, Sys.setCall, storeState, holds, hb, Ne.symm hb]
  · exact waiting_update h.ledger.consumed (by simp [hpl, Place.waiting])

/-- The store of the idle state after the procedure has run. -/
theorem InvWith.idleDelivery
    (hr : (s.delivery t).running = some a) (hp : (s.delivery t).putting = none) (pc : Delivery A)
    (pr : pc.running = none) (pp : pc.putting = some a) :
    InvWith (fun _ => 0) ((s.storeState a .idle).setDelivery t pc)
      (update place a .idle) := by
  have hpl : place a = .exec t := (h.placed.running t a).mp hr
  have hunlinked := h.placed.unlinked a (by simp [hpl, Place.Linked])
  refine ⟨h.placed.move hpl nofun (update_self ..)
    (fun b hb => update_of_ne hb _ _)
    ?_ (fun b => ?_) (fun hc => absurd rfl hc) h.placed.queueNodup h.placed.drainedNodup nofun
    (fun _ => hunlinked) (fun _ _ => rfl) fun _ _ _ => rfl, ?_,
    { h.ledger with consumed := ?_ }, h.destroyed⟩
  · rintro (_ | _ | _ | _ | u) - hu b
    case exec =>
      have hu : u ≠ t := fun hc => hu (congrArg _ hc)
      simp [Sys.At, Sys.setDelivery, storeState, hu]
    all_goals exact Iff.rfl
  · simp only [Sys.At, Sys.setDelivery, update_self, pr, hr, reduceCtorEq,
      some.injEq, false_iff, not_and, not_not]
    exact Eq.symm
  · refine h.refs.move (.inr t) pc.putting (putting_setDelivery (s.storeState a .idle) t pc)
      fun b => ?_
    simp only [putting, hp, pp]
    by_cases hb : b = a
    · subst hb
      simp [Sys.busy, Sys.setDelivery, storeState, holds, h.placed.state, hpl, Place.state]
    · simp [Sys.busy, Sys.setDelivery, storeState, holds, hb, Ne.symm hb]
  · exact waiting_update h.ledger.consumed (by simp [hpl, Place.waiting])

/-- The rundown takes the next call from its list. -/
theorem InvWith.runNext (hk : s.call k = .runNext (a :: l)) :
    InvWith (fun _ => 0)
      (({ s with
        next := update s.next a none
        owner := update s.owner a none } : Sys T A K).setCall k (.runIdle a l))
      (update place a (.loose k)) := by
  have hpl : place a = .drained k := (h.placed.drained k a).mp (by simp [hk, Call.drained])
  have hnodup : (a :: l).Nodup := by simpa [hk, Call.drained] using h.placed.drainedNodup k
  refine ⟨h.placed.move hpl nofun ((h.placed.state a).trans (by rw [hpl]; rfl)) (fun _ _ => rfl) ?_
    (fun b => ?_) (fun _ b => ?_) h.placed.queueNodup (fun j => ?_) nofun
    (fun _ => ⟨update_self .., update_self ..⟩)
    (fun b hb => update_of_ne hb _ _) fun b hb _ => update_of_ne hb _ _, ?_,
    { h.ledger with consumed := ?_ }, h.destroyed⟩
  · rintro (_ | _ | j | j | _) hl hd b
    case drained | loose =>
      have hj : j ≠ k := by
        rintro rfl
        first
          | exact hd rfl
          | exact hl rfl
      simp [Sys.At, Sys.setCall, hj]
    all_goals exact Iff.rfl
  · simp only [Sys.At, Sys.setCall, update_self, hk, Call.drained]
    exact mem_tail_iff hnodup
  · simp only [Sys.At, Sys.setCall, update_self, hk, Call.loose, some.injEq,
      reduceCtorEq, false_or]
    exact eq_comm
  · by_cases hj : j = k
    · subst hj
      simpa [Sys.setCall, Call.drained] using hnodup.of_cons
    · simpa [Sys.setCall, hj] using h.placed.drainedNodup j
  · refine h.refs.move (.inl k) none (putting_setCall _ k _) fun b => ?_
    simp [Sys.putting, hk, Call.putting, Sys.setCall, Sys.busy]
  · exact waiting_update h.ledger.consumed (by simp [hpl, Place.waiting])

/-! ### Steps under the lock -/

/-- The thread takes the head of its queue and executes it. -/
theorem InvWith.deliver (hq : s.queue t type = a :: l)
    (hr : (s.delivery t).running = none) (hp : (s.delivery t).putting = none) (budget : ℕ) :
    InvWith (fun _ => 0) ((deliverHead s t type a l).setDelivery t (.exec a type budget))
      (update place a (.exec t)) := by
  have hpl : place a = .queue t type := (h.placed.queue t type a).mp (by simp [hq])
  have hnodup : (a :: l).Nodup := hq ▸ h.placed.queueNodup t type
  have hqueue : ∀ u ty,
      ((deliverHead s t type a l).setDelivery t (.exec a type budget)).queue u ty =
        if u = t ∧ ty = type then l else s.queue u ty :=
    fun u ty => queue_setQueue _ t type l u ty
  have hdelivered : ∀ u ty,
      ((deliverHead s t type a l).setDelivery t (.exec a type budget)).delivered u ty ++
        ((if u = t ∧ ty = type then l else s.queue u ty)).map s.seq =
      s.delivered u ty ++ (s.queue u ty).map s.seq := by
    intro u ty
    by_cases hu : u = t
    · subst hu
      by_cases hty : ty = type
      · subst hty
        simp [deliverHead, Sys.setDelivery, storeState, setQueue, hq]
      · simp [deliverHead, Sys.setDelivery, storeState, setQueue, hty]
    · simp [deliverHead, Sys.setDelivery, storeState, setQueue, hu]
  refine ⟨h.placed.move hpl nofun (update_self ..)
    (fun b hb => update_of_ne hb _ _)
    ?_ (fun b => ?_) (fun _ b => ?_) (fun u ty => ?_) h.placed.drainedNodup nofun
    (fun _ => ⟨update_self .., update_self ..⟩)
    (fun b hb => update_of_ne hb _ _) fun b hb _ => update_of_ne hb _ _, ?_,
    h.ledger.shrink rfl (fun u ty => ?_) ?_ ?_, h.destroyed⟩
  · rintro (_ | ⟨u, ty⟩ | _ | _ | u) hu hu' b
    case queue =>
      have hu : ¬ (u = t ∧ ty = type) := by
        rintro ⟨rfl, rfl⟩
        exact hu' rfl
      rw [Sys.At, hqueue, if_neg hu, Sys.At]
    case exec =>
      have hu : u ≠ t := fun hc => hu (congrArg _ hc)
      simp [Sys.At, Sys.setDelivery, hu, deliverHead, storeState, setQueue]
    all_goals exact Iff.rfl
  · rw [Sys.At, hqueue, if_pos ⟨rfl, rfl⟩, Sys.At, hq]
    exact mem_tail_iff hnodup
  · rw [Sys.At, Sys.At, hr]
    simp only [Sys.setDelivery, update_self, Delivery.running, some.injEq, reduceCtorEq, false_or]
    exact eq_comm
  · rw [hqueue]
    split
    · exact hnodup.of_cons
    · exact h.placed.queueNodup u ty
  · refine h.refs.move (.inr t) none (putting_setDelivery _ t _) fun b => ?_
    simp only [putting, hp]
    by_cases hb : b = a
    · subst hb
      simp [deliverHead, Sys.setDelivery, storeState, setQueue, Sys.busy, h.placed.state,
        hpl, Place.state]
    · simp [deliverHead, Sys.setDelivery, storeState, setQueue, Sys.busy, hb]
  · rw [hqueue]
    exact (hdelivered u ty).symm ▸ Sublist.refl _
  · intro u ty hne
    rw [hqueue] at hne
    refine h.ledger.pending u ty fun hc => hne ?_
    split
    · next hu =>
      obtain ⟨rfl, rfl⟩ := hu
      simp [hq] at hc
    · exact hc
  · intro b
    have hc := h.ledger.consumed b
    by_cases hb : b = a
    · subst hb
      simp only [hpl, Place.waiting] at hc
      simp only [deliverHead, Sys.setDelivery, storeState, setQueue, update_self, Place.waiting]
      omega
    · simpa [deliverHead, Sys.setDelivery, storeState, setQueue, hb] using hc

/-- A call is withdrawn from a queue by a function that had nothing in its hands. -/
theorem InvWith.cancel (ha : a ∈ s.queue t type) (hk : (s.call k).isIdle) :
    ∃ s', tryCancelFromQueue s t a type = .ok s' ∧
      InvWith (fun _ => 0) (s'.setCall k (.cancelIdle a)) (update place a (.loose k)) := by
  have hpl : place a = .queue t type := (h.placed.queue t type a).mp ha
  have howner : s.owner a = some t := h.placed.owner a t type hpl
  have hstate : s.state a = .queued := by simp [h.placed.state, hpl, Place.state]
  obtain ⟨hkd, hkl, hkp⟩ := Call.isIdle_spec hk
  rw [tryCancelFromQueue, if_neg (not_not.mpr howner), if_neg (not_not.mpr hstate)]
  have hdrained : ∀ j, (update s.call k (.cancelIdle a) j).drained = (s.call j).drained :=
    call_setCall (s := s) (c := .cancelIdle a) Call.drained hkd.symm
  refine ⟨_, rfl, h.placed.move hpl nofun hstate (fun _ _ => rfl) ?_ (fun b => ?_) (fun _ b => ?_)
    (fun u ty => ?_) (fun j => ?_) nofun (fun _ => ⟨update_self .., unlink_self ..⟩)
    (fun b hb => update_of_ne hb _ _)
    fun b hb hbl => unlink_eq s.next _ hb (h.placed.not_mem_queue hbl), ?_,
    h.ledger.shrink rfl (fun u ty => ?_) ?_ ?_, h.destroyed⟩
  · rintro (_ | ⟨u, ty⟩ | j | j | _) hp hq b
    case queue =>
      have hu : ¬ (u = t ∧ ty = type) := by
        rintro ⟨rfl, rfl⟩
        exact hq rfl
      simp only [Sys.At, Sys.setCall, queue_setQueue, if_neg hu]
    case drained => simp only [Sys.At, Sys.setCall, setQueue, hdrained]
    case loose =>
      have hj : j ≠ k := fun hc => hp (congrArg _ hc)
      simp [Sys.At, Sys.setCall, setQueue, hj]
    all_goals exact Iff.rfl
  · simp only [Sys.At, Sys.setCall, queue_setQueue, and_self, if_true]
    rw [(h.placed.queueNodup t type).mem_erase_iff, and_comm]
  · rw [Sys.At, Sys.At, hkl]
    simp only [Sys.setCall, update_self, Call.loose, some.injEq, reduceCtorEq, false_or]
    exact eq_comm
  · simp only [Sys.setCall, queue_setQueue]
    split
    · exact (h.placed.queueNodup t type).erase a
    · exact h.placed.queueNodup u ty
  · simp only [Sys.setCall, setQueue, hdrained]
    exact h.placed.drainedNodup j
  · refine h.refs.move (.inl k) none (putting_setCall _ k _) fun b => ?_
    simp only [Sys.putting, hkp, Sys.setCall, setQueue, Sys.busy]
  · simp only [Sys.setCall, queue_setQueue]
    refine (Sublist.map s.seq ?_).append_left _
    split
    · next hu =>
      obtain ⟨rfl, rfl⟩ := hu
      exact erase_sublist
    · exact Sublist.refl _
  · intro u ty hne
    refine h.ledger.pending u ty fun hc => hne ?_
    simp only [Sys.setCall, queue_setQueue]
    split
    · next hu =>
      obtain ⟨rfl, rfl⟩ := hu
      rw [hc, erase_nil]
    · exact hc
  · intro b
    have hc := h.ledger.consumed b
    by_cases hb : b = a
    · subst hb
      simp only [hpl, Place.waiting] at hc
      simp only [Sys.setCall, setQueue, update_self, Place.waiting]
      omega
    · simpa [Sys.setCall, setQueue, hb] using hc

/-! ### The rundown of a thread -/

/-- The rundown takes over all queues of the thread. -/
theorem InvWith.rundown (t : T) (hk : (s.call k).isIdle) :
    InvWith (fun _ => 0) ((apcRundownThread s t).2.setCall k (apcRundownThread s t).1)
      (runPlace place t k) := by
  obtain ⟨hkd, hkl, hkp⟩ := Call.isIdle_spec hk
  obtain ⟨hr, hnext⟩ := splice_types_spec (s.queue t) apcTypes [] s.next
  simp only [nil_append] at hr hnext
  have hmem := h.placed.mem_queues t
  -- nothing was in the list of this function before
  have hfree : ∀ a, place a ≠ .drained k := by
    intro a hc
    have hd := (h.placed.drained k a).mpr hc
    simp [hkd] at hd
  have hqueue : ∀ u type, ((apcRundownThread s t).2.setCall k (apcRundownThread s t).1).queue u type
      = if u = t then [] else s.queue u type := by
    intro u type
    by_cases hu : u = t
    · subst hu
      simp [apcRundownThread, Sys.setCall]
    · simp [apcRundownThread, Sys.setCall, hu]
  have hcase := runPlace_cases place t k
  refine ⟨⟨?_, ?_, ?_, ?_, ?_, ?_, ?_, ?_, ?_⟩, ?_, h.ledger.shrink rfl (fun u type => ?_) ?_ ?_,
    h.destroyed⟩
  · intro a
    refine (h.placed.state a).trans ?_
    rcases hcase a with ⟨⟨type, hp⟩, hrun⟩ | ⟨-, hrun⟩
    · rw [hrun, hp]
      rfl
    · rw [hrun]
  · intro u type a
    rw [hqueue]
    by_cases hu : u = t
    · subst hu
      rw [if_pos rfl]
      refine iff_of_false not_mem_nil ?_
      rcases hcase a with ⟨-, hrun⟩ | ⟨hnot, hrun⟩
      · simp [hrun]
      · rw [hrun]
        exact hnot type
    · rw [if_neg hu, h.placed.queue]
      exact (runPlace_eq_iff (by simp [hu]) (by simp)).symm
  · intro u type
    rw [hqueue]
    split
    · exact nodup_nil
    · exact h.placed.queueNodup u type
  · intro j a
    by_cases hj : j = k
    · subst hj
      simp only [apcRundownThread, Sys.setCall, update_self, Call.drained]
      rw [hr, hmem]
      rcases hcase a with ⟨hp, hrun⟩ | ⟨hnot, hrun⟩
      · exact iff_of_true hp hrun
      · rw [hrun]
        exact iff_of_false (not_exists.mpr hnot) (hfree a)
    · simp only [apcRundownThread, Sys.setCall, update_of_ne hj]
      rw [h.placed.drained]
      exact (runPlace_eq_iff (by simp) (by simpa using hj)).symm
  · intro j
    by_cases hj : j = k
    · subst hj
      simp only [apcRundownThread, Sys.setCall, update_self, Call.drained]
      rw [hr]
      exact h.placed.queues_nodup t
    · simpa [apcRundownThread, Sys.setCall, hj] using h.placed.drainedNodup j
  · intro j a
    refine Iff.trans ?_ (runPlace_eq_iff (by simp) (by simp)).symm
    rw [← h.placed.loose]
    by_cases hj : j = k
    · subst hj
      rw [hkl]
      simp [apcRundownThread, Sys.setCall, Call.loose]
    · simp [apcRundownThread, Sys.setCall, hj]
  · intro u a
    exact (h.placed.running u a).trans (runPlace_eq_iff (by simp) (by simp)).symm
  · intro a u type ha
    rcases hcase a with ⟨-, hrun⟩ | ⟨-, hrun⟩
    · rw [hrun] at ha
      cases ha
    · exact h.placed.owner a u type (hrun ▸ ha)
  · intro a ha
    rcases hcase a with ⟨-, hrun⟩ | ⟨hnot, hrun⟩
    · rw [hrun] at ha
      exact absurd trivial ha
    · obtain ⟨howner, hn⟩ := h.placed.unlinked a (hrun ▸ ha)
      exact ⟨howner, (hnext a fun hc => not_exists.mpr hnot ((hmem a).mp hc)).trans hn⟩
  · refine h.refs.move (.inl k) none (putting_setCall _ k _) fun b => ?_
    simp only [Sys.putting, hkp, apcRundownThread, Sys.setCall, Sys.busy]
  · rw [hqueue]
    refine (Sublist.map s.seq ?_).append_left _
    split
    · exact nil_sublist _
    · exact Sublist.refl _
  · intro u type hne
    rw [hqueue] at hne
    by_cases hu : u = t
    · exact absurd (if_pos hu) hne
    · have := h.ledger.pending u type (by simpa [hu] using hne)
      simpa [apcRundownThread, Sys.setCall, hu] using this
  · intro a
    have hc := h.ledger.consumed a
    simp only [apcRundownThread, Sys.setCall]
    rw [hr]
    rcases hcase a with ⟨⟨type, hp⟩, hrun⟩ | ⟨hnot, hrun⟩
    · rw [if_pos ((hmem a).mpr ⟨type, hp⟩), hrun]
      simp only [hp, Place.waiting] at hc ⊢
      omega
    · rw [if_neg fun hin => not_exists.mpr hnot ((hmem a).mp hin), hrun, hc]

end Charmos.Apc
