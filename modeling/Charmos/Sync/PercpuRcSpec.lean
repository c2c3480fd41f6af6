import Charmos.Sync.PercpuRc

/-!
# References on two counters

The references that are outstanding are counted in two places: on the per-CPU counters, with what
the callback has already summed, and on the shared counter, less the bias. The invariant says so in
one equation, and says that there is one kill at most that has gone past its test: it is about to
defer, or its callback is pending, running or over. As long as it is not over, the per-CPU counters
sum to less than the bias, so the shared counter stays positive.

`ThreadMove` says once what a step of a thread has to keep to.
-/

namespace Charmos.PercpuRc

open AgentSum Function List Pc Bool

variable {n : ℕ} {T : Type} [Fintype T] [DecidableEq T]

/-! ### The invariant -/

/-- What the callback has taken from the per-CPU counters. -/
def Pc.summed : Pc n → ℤ
  | .cbSum _ sum | .cbZero _ sum _ | .cbFree sum | .cbAdd sum => sum
  | _ => 0

/-- One for a thread that has killed the counter and not deferred the callback. -/
def Pc.deferring : Pc n → ℕ
  | .killDefer => 1
  | _ => 0

/-- One for a thread in the callback. -/
def Pc.switching : Pc n → ℕ
  | .cbLoad | .cbSum _ _ | .cbZero _ _ _ | .cbFree _ | .cbAdd _ => 1
  | _ => 0

/-- One for a thread that is about to adjust `count`. -/
def Pc.adding : Pc n → ℕ
  | .cbAdd _ => 1
  | _ => 0

/-- One for a thread that is about to get a reference on a CPU's counter. -/
def Pc.percpuGetting : Pc n → ℕ
  | .getPercpu | .tryPercpu => 1
  | _ => 0

/-- The thread has found the per-CPU counters in use. -/
def Pc.usesPercpu : Pc n → Bool
  | .getPercpu | .putPercpu | .tryPercpu => true
  | _ => false

/-- The thread has found them not in use. -/
def Pc.usesCount : Pc n → Bool
  | .getCount | .putLeave | .putDec | .tryLeave | .tryRead | .tryCas _ => true
  | _ => false

/-- How many counters the callback has zeroed. -/
def Pc.zeroed : Pc n → ℕ
  | .cbSum i _ => i
  | .cbZero i _ _ => i
  | .cbFree _ | .cbAdd _ => n
  | _ => 0

/-- The callback has read the counter that it zeroes next. -/
def Pc.Seen (counters : Fin n → ℤ) : Pc n → Prop
  | .cbZero i _ value => counters i = value
  | _ => True

/-- The part of the references that is on the per-CPU counters. -/
def percpuTotal (s : Rc n T) : ℤ := ∑ c, s.counters c + total summed s.pc

structure RcInv (s : Rc n T) : Prop where
  /-- The two counts add up to the references that are outstanding. -/
  counted : s.applied = 0 → s.count + percpuTotal s = outstanding s + (percpuCountBias + 1)
  merged : 0 < s.applied → s.count + percpuTotal s = outstanding s
  /-- There is one kill at most. -/
  kills : total deferring s.pc + s.pending.length + total switching s.pc + s.applied =
    s.ptr.dead.toNat
  bounded : outstanding s + total getting s.pc < 2 ^ 30
  alive : s.ptr.dead = false → s.ptr.atomic = false ∧ s.count = percpuCountBias + 1
  dying : s.ptr.dead → s.applied = 0 → percpuTotal s + total percpuGetting s.pc < 2 ^ 30
  shared : ∀ t, (s.pc t).usesCount → s.ptr.dead
  /-- The callback waits for those who still count on the per-CPU counters. -/
  grace : ∀ W ∈ s.pending, ∀ t, (s.pc t).usesPercpu → t ∈ W
  quiet : 0 < total switching s.pc + s.applied → ∀ t, (s.pc t).usesPercpu = false
  zeroed : ∀ t (c : Fin n), c.val < (s.pc t).zeroed ∨ 0 < s.applied → s.counters c = 0
  seen : ∀ t, (s.pc t).Seen s.counters
  present : s.ptr.counters ∨ 0 < s.applied + total adding s.pc
  due : 0 < s.applied → outstanding s = 0 → s.released + total releasing s.pc = 1
  not_due : s.applied = 0 ∨ 0 < outstanding s → s.released + total releasing s.pc = 0

omit [DecidableEq T] in
theorem RcInv.init (allowReinit : Bool) : RcInv (percpuRcInit n T false allowReinit) := by
  have hzero : ∀ w : Pc n → ℕ, w .idle = 0 →
      total w (percpuRcInit n T false allowReinit).pc = 0 :=
    fun w hw => total_const_zero fun _ => hw
  have hsum : percpuTotal (percpuRcInit n T false allowReinit) = 0 := by
    have : total (summed (n := n)) (percpuRcInit n T false allowReinit).pc = 0 :=
      total_const_zero fun _ => rfl
    rw [percpuTotal, this]
    simp [percpuRcInit]
  have hout : outstanding (percpuRcInit n T false allowReinit) = 0 := by
    rw [outstanding, hzero _ rfl]
    rfl
  constructor
  · rw [hsum, hout]
    simp [percpuRcInit, add_comm]
  · exact fun h => absurd h (lt_irrefl 0)
  · rw [hzero _ rfl, hzero _ rfl]
    rfl
  · rw [hout, hzero _ rfl]
    decide
  · exact fun _ => ⟨rfl, add_comm _ _⟩
  · exact fun h => absurd h false_ne_true
  · exact fun t h => absurd h (by simp [percpuRcInit, usesCount])
  · exact fun W h => absurd h not_mem_nil
  · exact fun _ t => rfl
  · exact fun t c _ => rfl
  · exact fun t => trivial
  · exact .inl rfl
  · exact fun h => absurd h (lt_irrefl 0)
  · rw [hzero _ rfl]
    exact fun _ => rfl

variable {s : Rc n T} {t : T} {q : Pc n} {p : Pc n} {sum : ℤ} {s' : Rc n T}

/-! ### Steps on the counts -/

theorem sum_update (f : Fin n → ℤ) (i : Fin n) (x : ℤ) :
    ∑ c, update f i x c = ∑ c, f c - f i + x := by
  have h := total_update id f i x
  simp only [total, id_eq] at h
  linarith

/-- A thread outside of the callback has nothing of the callback. -/
theorem Pc.of_switching (h : p.switching = 0) : p.zeroed = 0 ∧ p.adding = 0 ∧ p.summed = 0 := by
  cases p <;> first | exact ⟨rfl, rfl, rfl⟩ | cases h

theorem Pc.seen_of_switching (h : p.switching = 0) (counters : Fin n → ℤ) : p.Seen counters := by
  cases p with
  | cbZero => cases h
  | _ => trivial

section

variable (h : RcInv s)
include h

section

omit [DecidableEq T]

theorem RcInv.kills_le : total deferring s.pc + s.pending.length +
    total switching s.pc + s.applied ≤ 1 :=
  h.kills ▸ toNat_le s.ptr.dead

/-- As long as a thread counts on the per-CPU counters, no callback runs. -/
theorem RcInv.not_switching (ht : (s.pc t).usesPercpu) :
    total switching s.pc = 0 ∧ s.applied = 0 := by
  by_contra hne
  have hquiet := h.quiet (by omega) t
  rw [ht] at hquiet
  cases hquiet

/-- Before the callback is over, the references on the per-CPU counters are fewer than the bias. -/
theorem RcInv.percpuTotal_lt (h0 : s.applied = 0) :
    percpuTotal s + total percpuGetting s.pc < 2 ^ 30 := by
  cases hdead : s.ptr.dead with
  | true => exact h.dying hdead h0
  | false =>
    -- they are all there, and those being got come on top
    have hcounted := h.counted h0
    have hlive := (h.alive hdead).2
    have hbounded := h.bounded
    have hle : total percpuGetting s.pc ≤ total getting s.pc := by
      refine Finset.sum_le_sum fun u _ => ?_
      cases s.pc u <;> simp [percpuGetting, getting]
    omega

end

/-- A thread goes on from `p` to `q`. What that changes in the weights of its place, in the counts,
the pointer and the callbacks balances. -/
structure ThreadMove (s : Rc n T) (t : T) (p q : Pc n) (s' : Rc n T) : Prop where
  old : s.pc t = p
  pc : s'.pc = update s.pc t q
  applied : s'.applied = s.applied
  dead : s.ptr.dead → s'.ptr.dead
  cons : s'.count + (∑ c, s'.counters c + q.summed) - (s'.held + q.putting : ℕ) =
    s.count + (∑ c, s.counters c + p.summed) - (s.held + p.putting : ℕ)
  bounded : s'.held + q.putting + q.getting ≤ s.held + p.putting + p.getting ∨
    s'.held + q.putting = s.held + p.putting ∧
      outstanding s + total getting s.pc + q.getting < 2 ^ 30
  kills : q.deferring + s'.pending.length + q.switching + s.ptr.dead.toNat =
    p.deferring + s.pending.length + p.switching + s'.ptr.dead.toNat
  alive : s'.ptr.dead = false → s'.ptr.atomic = s.ptr.atomic ∧ s'.count = s.count
  dying : s'.ptr.dead → ∑ c, s'.counters c + q.summed + q.percpuGetting ≤
    ∑ c, s.counters c + p.summed + p.percpuGetting
  shared : q.usesCount → s'.ptr.dead
  percpu : q.usesPercpu → p.usesPercpu ∨ s'.ptr.dead = false
  grace : ∀ W ∈ s'.pending, ∀ u, (s.pc u).usesPercpu → u ∈ W
  quiet : p.switching < q.switching → ∀ u, (s.pc u).usesPercpu = false
  same : s'.counters = s.counters ∨ p.usesPercpu ∨
    p.switching = 1 ∧ ∀ c, s.counters c = 0 → s'.counters c = 0
  zeroed : ∀ c : Fin n, c.val < q.zeroed → s'.counters c = 0
  seen : q.Seen s'.counters
  present : s'.ptr.counters = s.ptr.counters ∧ p.adding ≤ q.adding ∨ 0 < q.adding
  rel : s'.held + q.putting = s.held + p.putting ∧
      s'.released + q.releasing = s.released + p.releasing ∨
    (s.applied = 0 ∨ 0 < outstanding s) ∧ s'.released = s.released ∧ p.releasing = 0 ∧
      q.releasing = if 0 < s.applied ∧ outstanding s' = 0 then 1 else 0

section Move

variable (hm : ThreadMove s t p q s')
include hm

omit h in
theorem ThreadMove.balance {M : Type} [AddCommMonoid M] (w : Pc n → M) :
    total w s'.pc + w p = total w s.pc + w q := by
  rw [hm.pc, ← hm.old]
  exact total_update w s.pc t q

theorem ThreadMove.kills_after : total deferring s'.pc + s'.pending.length +
    total switching s'.pc + s'.applied = s'.ptr.dead.toNat := by
  have := hm.balance deferring
  have := hm.balance switching
  have := h.kills
  have := hm.kills
  have := hm.applied
  omega

theorem ThreadMove.counters_zero (u : T) (c : Fin n)
    (hc : c.val < (s.pc u).zeroed ∨ 0 < s.applied) : s'.counters c = 0 := by
  rcases hm.same with he | ht | ⟨-, hz⟩
  · rw [he]
    exact h.zeroed u c hc
  · obtain ⟨hsw, h0⟩ := h.not_switching (hm.old.symm ▸ ht)
    rw [(of_switching (total_eq_zero.1 hsw u)).1] at hc
    omega
  · exact hz c (h.zeroed u c hc)

theorem ThreadMove.grace_after (W : Finset T) (hW : W ∈ s'.pending) (u : T) :
    (s'.pc u).usesPercpu → u ∈ W := by
  rw [hm.pc]
  refine (forall_update_iff s.pc fun u p => p.usesPercpu = true → u ∈ W).2
    ⟨fun hq => ?_, fun u _ => hm.grace W hW u⟩ u
  rcases hm.percpu hq with hp | hd
  · exact hm.grace W hW t (hm.old.symm ▸ hp)
  · have := length_pos_of_mem hW
    have hkills := hm.kills_after h
    rw [hd, toNat_false] at hkills
    omega

theorem ThreadMove.quiet_after (hpos : 0 < total switching s'.pc + s'.applied) (u : T) :
    (s'.pc u).usesPercpu = false := by
  have hkills := hm.kills_after h
  have hall : ∀ u, (s.pc u).usesPercpu = false := by
    by_cases hbefore : 0 < total switching s.pc + s.applied
    · exact h.quiet hbefore
    · have := hm.balance switching
      have := hm.applied
      exact hm.quiet (by omega)
  rw [hm.pc]
  refine (forall_update_iff s.pc fun _ p => p.usesPercpu = false).2
    ⟨eq_false_iff.2 fun hq => ?_, fun u _ => hall u⟩ u
  rcases hm.percpu hq with hp | hd
  · rw [← hm.old, hall t] at hp
    cases hp
  · rw [hd, toNat_false] at hkills
    omega

theorem ThreadMove.seen_after (u : T) : (s'.pc u).Seen s'.counters := by
  rw [hm.pc]
  refine (forall_update_iff s.pc fun _ p => p.Seen s'.counters).2 ⟨hm.seen, fun u hu => ?_⟩ u
  rcases hm.same with he | ht | ⟨hsw, -⟩
  · rw [he]
    exact h.seen u
  · exact seen_of_switching (total_eq_zero.1 (h.not_switching (hm.old.symm ▸ ht)).1 u) _
  · -- no other thread is in the callback
    refine seen_of_switching (Nat.eq_zero_of_not_pos fun hpos => hu ?_) _
    exact eq_of_total_le_one (by have := h.kills_le; omega) hpos (by rw [hm.old]; omega)

/-- A move of a thread keeps the invariant. -/
theorem RcInv.threadStep : RcInv s' := by
  have tput := hm.balance putting
  have tget := hm.balance getting
  have trel := hm.balance releasing
  have tadd := hm.balance adding
  have tpg := hm.balance percpuGetting
  have tsum := hm.balance summed
  have happ := hm.applied
  have hcons := hm.cons
  have hout : outstanding s' + (s.held + p.putting) = outstanding s + (s'.held + q.putting) := by
    unfold outstanding
    omega
  have hperc : percpuTotal s' + (∑ c, s.counters c + p.summed) =
      percpuTotal s + (∑ c, s'.counters c + q.summed) := by
    unfold percpuTotal
    linarith
  refine ⟨?_, ?_, hm.kills_after h, ?_, ?_, ?_, ?_, hm.grace_after h, hm.quiet_after h, ?_,
    hm.seen_after h, ?_, ?_, ?_⟩
  · rw [happ]
    intro h0
    have := h.counted h0
    omega
  · rw [happ]
    intro h0
    have := h.merged h0
    omega
  · have := h.bounded
    have := hm.bounded
    omega
  · intro hd
    have hd' : s.ptr.dead = false := by
      rw [eq_false_iff]
      intro hd'
      rw [hm.dead hd'] at hd
      cases hd
    exact ⟨(hm.alive hd).1.trans (h.alive hd').1, (hm.alive hd).2.trans (h.alive hd').2⟩
  · rw [happ]
    intro hd h0
    have := h.percpuTotal_lt h0
    have := hm.dying hd
    omega
  · rw [hm.pc]
    exact (forall_update_iff s.pc fun _ p => p.usesCount = true → s'.ptr.dead = true).2
      ⟨hm.shared, fun u _ hu => hm.dead (h.shared u hu)⟩
  · rw [hm.pc, happ]
    exact (forall_update_iff s.pc fun _ p =>
      ∀ c : Fin n, c.val < p.zeroed ∨ 0 < s.applied → s'.counters c = 0).2
      ⟨fun c hc => hc.elim (hm.zeroed c) fun hc => hm.counters_zero h t c (.inr hc),
        fun u _ => hm.counters_zero h u⟩
  · rw [happ]
    rcases hm.present with ⟨he, hadd⟩ | hq
    · rw [he]
      exact h.present.imp_right fun hpos => by omega
    · have := le_total adding s.pc t
      rw [hm.old] at this
      right
      omega
  · rw [happ]
    intro hpos hz
    rcases hm.rel with ⟨hsame, hrel⟩ | ⟨hcase, hrel, hr, hq⟩
    · have := h.due hpos (by omega)
      omega
    · have := h.not_due hcase
      rw [if_pos ⟨hpos, hz⟩] at hq
      omega
  · rw [happ]
    intro hcase
    rcases hm.rel with ⟨hsame, hrel⟩ | ⟨hcase', hrel, hr, hq⟩
    · have := h.not_due (by omega)
      omega
    · have := h.not_due hcase'
      rw [if_neg (by omega)] at hq
      omega

end Move

/-- A step that only moves a thread, which counts for the same as before, except that it may begin
or end to get a reference. -/
theorem RcInv.move (hpc : s.pc t = p)
    (hshared : q.usesCount → s.ptr.dead := by rintro ⟨⟩)
    (hpercpu : q.usesPercpu → p.usesPercpu ∨ s.ptr.dead = false := by rintro ⟨⟩)
    (hzeroed : ∀ c : Fin n, c.val < q.zeroed → s.counters c = 0 := by
      exact fun _ hc => absurd hc (Nat.not_lt_zero _))
    (hseen : q.Seen s.counters := by trivial)
    (hpg : s.ptr.dead → q.percpuGetting ≤ p.percpuGetting := by exact fun _ => le_rfl)
    (hget : q.getting ≤ p.getting ∨ outstanding s + total getting s.pc + q.getting < 2 ^ 30 := by
      first | exact .inl le_rfl | exact .inl (Nat.zero_le _))
    (hadd : p.adding ≤ q.adding := by first | exact le_rfl | exact Nat.zero_le _)
    (hput : q.putting = p.putting := by rfl) (hrel : q.releasing = p.releasing := by rfl)
    (hdef : q.deferring = p.deferring := by rfl) (hsw : q.switching = p.switching := by rfl)
    (hsum : q.summed = p.summed := by rfl) : RcInv (s.setPc t q) := by
  have hheld : s.held + q.putting = s.held + p.putting := by rw [hput]
  refine h.threadStep ⟨hpc, rfl, rfl, id, by rw [hsum, hput]; rfl,
    hget.imp (fun hle => ?_) fun hlt => ⟨hheld, hlt⟩, by rw [hdef, hsw]; rfl, fun _ => ⟨rfl, rfl⟩,
    fun hd => ?_, hshared, hpercpu, h.grace, fun hlt => absurd hsw hlt.ne', .inl rfl, hzeroed,
    hseen, .inl ⟨rfl, hadd⟩, .inl ⟨hheld, congrArg _ hrel⟩⟩
  · rw [hput]
    exact Nat.add_le_add_left hle _
  · rw [hsum]
    exact Int.add_le_add_left (Int.ofNat_le.2 (hpg hd)) _

/-- A step outside of kill and callback, which leaves the pointer and the callbacks alone. What it
does to the counts it does to the references. -/
theorem RcInv.refStep (hp : s.pc t = p) (hpc : s'.pc = update s.pc t q)
    (hptr : s'.ptr = s.ptr) (hpend : s'.pending = s.pending) (happ : s'.applied = s.applied)
    (hcounters : s'.counters = s.counters ∨ p.usesPercpu) (hold : p.switching = 0 ∧ p.deferring = 0)
    (hnew : q.switching = 0 ∧ q.deferring = 0)
    (hpercpu : q.usesPercpu = false) (hshared : q.usesCount → s.ptr.dead)
    (hcons : s'.count + ∑ c, s'.counters c - (s'.held + q.putting : ℕ) =
      s.count + ∑ c, s.counters c - (s.held + p.putting : ℕ))
    (hbounded : s'.held + q.putting + q.getting ≤
      s.held + p.putting + p.getting)
    (halive : s.ptr.dead = false → s'.count = s.count)
    (hdying : ∑ c, s'.counters c + q.percpuGetting ≤
      ∑ c, s.counters c + p.percpuGetting)
    (hrel : s'.held + q.putting = s.held + p.putting ∧
        s'.released + q.releasing = s.released + p.releasing ∨
      (s.applied = 0 ∨ 0 < outstanding s) ∧ s'.released = s.released ∧ p.releasing = 0 ∧
        q.releasing = if 0 < s.applied ∧ outstanding s' = 0 then 1 else 0) : RcInv s' := by
  obtain ⟨-, padd, psum⟩ := of_switching hold.1
  obtain ⟨qzero, qadd, qsum⟩ := of_switching hnew.1
  refine h.threadStep ⟨hp, hpc, happ, fun hd => hptr ▸ hd, ?_, .inl hbounded, ?_, ?_, fun _ => ?_,
    hptr ▸ hshared, fun hq => ?_, hpend ▸ h.grace, fun hlt => ?_, hcounters.imp_right .inl,
    fun c hc => ?_, seen_of_switching hnew.1 _, .inl ⟨by rw [hptr], ?_⟩, hrel⟩
  · rwa [psum, qsum, add_zero, add_zero]
  · rw [hold.1, hold.2, hnew.1, hnew.2, hptr, hpend]
  · rw [hptr]
    exact fun hd => ⟨rfl, halive hd⟩
  · rwa [psum, qsum, add_zero, add_zero]
  · rw [hpercpu] at hq
    cases hq
  · omega
  · omega
  · rw [padd, qadd]

/-- A reference is got on the counter of a CPU. -/
theorem RcInv.getPercpu (cpu : Fin n)
    (hpc : s.pc t = .getPercpu ∨ s.pc t = .tryPercpu) :
    RcInv { (s.addPercpu cpu 1).setPc t .unlock with held := s.held + 1 } := by
  have huses : (s.pc t).usesPercpu := by rcases hpc with hpc | hpc <;> rw [hpc] <;> rfl
  have happ := (h.not_switching huses).2
  have hsum : ∑ c, update s.counters cpu (s.counters cpu + 1) c =
      ∑ c, s.counters c + 1 := by
    rw [sum_update]
    ring
  have hcons : s.count + ∑ c, update s.counters cpu (s.counters cpu + 1) c - (s.held + 1 + 0 : ℕ) =
      s.count + ∑ c, s.counters c - (s.held + 0 : ℕ) := by
    rw [hsum]
    push_cast
    ring
  have hdying : ∑ c, update s.counters cpu (s.counters cpu + 1) c + (0 : ℕ) ≤
      ∑ c, s.counters c + (1 : ℕ) := by
    rw [hsum]
    simp
  have hrel : (unlock : Pc n).releasing = if 0 < s.applied ∧
      outstanding { (s.addPercpu cpu 1).setPc t .unlock with held := s.held + 1 } = 0 then 1
      else 0 := by
    rw [happ, if_neg (by omega)]
    rfl
  rcases hpc with hpc | hpc
  all_goals
    exact h.refStep hpc (q := .unlock) rfl rfl rfl rfl (.inr rfl) ⟨rfl, rfl⟩ ⟨rfl, rfl⟩ rfl
      nofun hcons le_rfl (fun _ => rfl) hdying (.inr ⟨.inl happ, rfl, rfl, hrel⟩)

/-- A reference is put on the counter of a CPU. -/
theorem RcInv.putPercpu (cpu : Fin n) (hpc : s.pc t = .putPercpu) :
    RcInv ((s.addPercpu cpu (-1)).setPc t .unlock) := by
  have happ := (h.not_switching (t := t) (by rw [hpc]; rfl)).2
  have hsum : ∑ c, update s.counters cpu (s.counters cpu + -1) c =
      ∑ c, s.counters c - 1 := by
    rw [sum_update]
    ring
  refine h.refStep hpc (q := .unlock) rfl rfl rfl rfl (.inr rfl) ⟨rfl, rfl⟩ ⟨rfl, rfl⟩ rfl nofun ?_
    (Nat.le_succ _) (fun _ => rfl) ?_ (.inr ⟨.inl happ, rfl, rfl, ?_⟩)
  · change s.count + ∑ c, update s.counters cpu (s.counters cpu + -1) c - (s.held + 0 : ℕ) = _
    rw [hsum]
    simp only [putting]
    push_cast
    ring
  · change ∑ c, update s.counters cpu (s.counters cpu + -1) c + (0 : ℕ) ≤ _
    rw [hsum]
    simp [percpuGetting]
  · rw [happ, if_neg (by omega)]
    rfl

section

omit [DecidableEq T]

/-- After the callback, `count` is the number of references. -/
theorem RcInv.count_eq (t : T) (happ : 0 < s.applied) : s.count = outstanding s := by
  have hsw : total switching s.pc = 0 := by
    have := h.kills_le
    omega
  have hperc : percpuTotal s = 0 := by
    rw [percpuTotal, total_const_zero fun u => (of_switching (total_eq_zero.1 hsw u)).2.2,
      Finset.sum_eq_zero fun c _ => h.zeroed t c (.inr happ)]
    rfl
  have := h.merged happ
  linarith

/-- Before it, the bias keeps `count` positive. -/
theorem RcInv.count_gt (hdead : s.ptr.dead) (happ : s.applied = 0) :
    (outstanding s : ℤ) + 1 < s.count := by
  have hcounted := h.counted happ
  have hdying := h.dying hdead happ
  unfold percpuCountBias at hcounted
  omega

end

/-- A reference is got on the shared counter, which is positive. -/
theorem RcInv.getCount (hpos : 0 < s.count)
    (hpc : s.pc t = .getCount ∧ q = .unlock ∨ ∃ c, s.pc t = .tryCas c ∧ q = .idle) :
    RcInv { s.setPc t q with count := s.count + 1, held := s.held + 1 } := by
  have hdead : s.ptr.dead := by
    refine h.shared t ?_
    rcases hpc with ⟨hpc, -⟩ | ⟨c, hpc, -⟩ <;> rw [hpc] <;> rfl
  have hout : s.applied = 0 ∨ 0 < outstanding s := by
    rcases Nat.eq_zero_or_pos s.applied with h0 | happ
    · exact .inl h0
    · have := h.count_eq t happ
      omega
  have hnew : 0 < outstanding { s.setPc t q with count := s.count + 1, held := s.held + 1 } := by
    unfold outstanding
    dsimp only
    omega
  have hcons : s.count + 1 + ∑ c, s.counters c - (s.held + 1 + 0 : ℕ) =
      s.count + ∑ c, s.counters c - (s.held + 0 : ℕ) := by
    push_cast
    ring
  have hlive : s.ptr.dead = false → s.count + 1 = s.count := fun hlive =>
    absurd hdead (by simp [hlive])
  rcases hpc with ⟨hpc, rfl⟩ | ⟨c, hpc, rfl⟩
  · exact h.refStep hpc (q := .unlock) rfl rfl rfl rfl (.inl rfl) ⟨rfl, rfl⟩ ⟨rfl, rfl⟩ rfl nofun
      hcons le_rfl hlive le_rfl (.inr ⟨hout, rfl, rfl, (if_neg fun hc => hnew.ne' hc.2).symm⟩)
  · exact h.refStep hpc (q := .idle) rfl rfl rfl rfl (.inl rfl) ⟨rfl, rfl⟩ ⟨rfl, rfl⟩ rfl nofun
      hcons le_rfl hlive le_rfl (.inr ⟨hout, rfl, rfl, (if_neg fun hc => hnew.ne' hc.2).symm⟩)

/-- A reference is put on the shared counter. -/
theorem RcInv.putDec (hpc : s.pc t = .putDec) :
    RcInv { s.setPc t (if s.count - 1 = 0 then .release else .idle) with
      count := s.count - 1 } := by
  have hdead := h.shared t (by rw [hpc]; rfl)
  have hone : 1 ≤ outstanding s := by
    have := le_total putting s.pc t
    rw [hpc] at this
    unfold outstanding
    simp only [putting] at this
    omega
  have hout : ∀ q : Pc n, q.putting = 0 →
      outstanding { s.setPc t q with count := s.count - 1 } = outstanding s - 1 := by
    intro q qput
    have tput := total_update putting s.pc t q
    rw [hpc, qput] at tput
    simp only [putting] at tput
    unfold outstanding Rc.setPc
    dsimp only
    omega
  have hlast : s.count - 1 = 0 ↔ 0 < s.applied ∧ outstanding s - 1 = 0 := by
    rcases Nat.eq_zero_or_pos s.applied with h0 | happ
    · have := h.count_gt hdead h0
      omega
    · have := h.count_eq t happ
      omega
  have hcons : s.count - 1 + ∑ c, s.counters c - (s.held + 0 : ℕ) =
      s.count + ∑ c, s.counters c - (s.held + 1 : ℕ) := by
    push_cast
    ring
  have hlive : s.ptr.dead = false → s.count - 1 = s.count := fun hlive =>
    absurd hdead (by simp [hlive])
  by_cases hz : s.count - 1 = 0
  · rw [if_pos hz]
    refine h.refStep hpc (q := .release) rfl rfl rfl rfl (.inl rfl) ⟨rfl, rfl⟩ ⟨rfl, rfl⟩ rfl nofun
      hcons (Nat.le_succ _) hlive le_rfl (.inr ⟨.inr hone, rfl, rfl, ?_⟩)
    rw [hout _ rfl]
    exact (if_pos (hlast.mp hz)).symm
  · rw [if_neg hz]
    refine h.refStep hpc (q := .idle) rfl rfl rfl rfl (.inl rfl) ⟨rfl, rfl⟩ ⟨rfl, rfl⟩ rfl nofun
      hcons (Nat.le_succ _) hlive le_rfl (.inr ⟨.inr hone, rfl, rfl, ?_⟩)
    rw [hout _ rfl]
    exact (if_neg (mt hlast.mpr hz)).symm

/-- A reference that is held begins to be put. -/
theorem RcInv.putref (hpc : s.pc t = .idle) (hheld : 0 < s.held) :
    RcInv { s.setPc t .putLoad with held := s.held - 1 } := by
  have hsame : s.held - 1 + 1 = s.held + 0 := Nat.sub_add_cancel hheld
  refine h.refStep hpc (q := .putLoad) rfl rfl rfl rfl (.inl rfl) ⟨rfl, rfl⟩ ⟨rfl, rfl⟩ rfl nofun
    ?_ hsame.le (fun _ => rfl) le_rfl (.inl ⟨hsame, rfl⟩)
  change s.count + ∑ c, s.counters c - (s.held - 1 + 1 : ℕ) = _
  rw [hsame]
  rfl

/-- `release` is called. -/
theorem RcInv.release (hpc : s.pc t = .release) :
    RcInv { s.setPc t .idle with released := s.released + 1 } :=
  h.refStep hpc (q := .idle) rfl rfl rfl rfl (.inl rfl) ⟨rfl, rfl⟩ ⟨rfl, rfl⟩ rfl nofun rfl
    le_rfl (fun _ => rfl) le_rfl (.inl ⟨rfl, rfl⟩)

/-! ### Sections, kill and callback -/

/-- A thread that does not count on the per-CPU counters leaves its section. -/
theorem RcInv.rcuReadUnlock (ht : (s.pc t).usesPercpu = false) : RcInv (s.rcuReadUnlock t) := by
  refine { h with kills := ?_, grace := ?_ }
  · unfold Rc.rcuReadUnlock
    rw [length_map]
    exact h.kills
  intro W hW u hu
  obtain ⟨W₀, hW₀, rfl⟩ := mem_map.1 hW
  refine Finset.mem_erase.2 ⟨?_, h.grace W₀ hW₀ u hu⟩
  rintro rfl
  change (s.pc u).usesPercpu = true at hu
  rw [ht] at hu
  cases hu

/-- The first kill sets the bits. -/
theorem RcInv.killOr (hpc : s.pc t = .killOr) (halive : s.ptr.dead = false) :
    RcInv { s.setPc t .killDefer with
      ptr := { s.ptr with dead := true, atomic := true } } := by
  refine h.threadStep (q := .killDefer) ⟨hpc, rfl, rfl, fun _ => rfl, rfl, .inl le_rfl, ?_, nofun,
    fun _ => le_rfl, nofun, nofun, h.grace, nofun, .inl rfl, nofun, trivial, .inl ⟨rfl, le_rfl⟩,
    .inl ⟨rfl, rfl⟩⟩
  rw [halive]
  change 1 + s.pending.length + 0 + 0 = 0 + s.pending.length + 0 + 1
  omega

end

/-- The thread is not getting or putting a reference, and not about to release. -/
def Pc.Plain (p : Pc n) : Prop :=
  p.putting = 0 ∧ p.getting = 0 ∧ p.releasing = 0 ∧ p.percpuGetting = 0 ∧
    p.usesCount = false ∧ p.usesPercpu = false

/-- A step of a kill or of the callback that leaves `count` and the references alone. -/
theorem RcInv.switchStep (h : RcInv s) (hp : s.pc t = p) (hpc : s'.pc = update s.pc t q)
    (hcount : s'.count = s.count) (hheld : s'.held = s.held) (happ : s'.applied = s.applied)
    (hrel : s'.released = s.released) (hdead : s'.ptr.dead = s.ptr.dead)
    (hatomic : s.ptr.dead = false → s'.ptr.atomic = s.ptr.atomic) (hold : p.Plain) (hnew : q.Plain)
    (hsum : ∑ c, s'.counters c + q.summed = ∑ c, s.counters c + p.summed)
    (hkills : q.deferring + s'.pending.length + q.switching =
      p.deferring + s.pending.length + p.switching)
    (hgrace : ∀ W ∈ s'.pending, ∀ u, (s.pc u).usesPercpu → u ∈ W)
    (hquiet : p.switching < q.switching → ∀ u, (s.pc u).usesPercpu = false)
    (hzero : ∀ c, s.counters c = 0 → s'.counters c = 0)
    (hsame : s'.counters = s.counters ∨ p.switching = 1)
    (hzeroed : ∀ c : Fin n, c.val < q.zeroed → s'.counters c = 0) (hseen : q.Seen s'.counters)
    (hpresent : s'.ptr.counters = s.ptr.counters ∧ p.adding = 0 ∨ 0 < q.adding) : RcInv s' := by
  obtain ⟨hput, hget, hrl, hpg, -, -⟩ := hold
  obtain ⟨qput, qget, qrl, qpg, qcount, qperc⟩ := hnew
  refine h.threadStep ⟨hp, hpc, happ, fun hd => hdead ▸ hd, ?_, .inl ?_, ?_, fun hd => ?_,
    fun _ => ?_, fun hq => ?_, fun hq => ?_, hgrace, hquiet,
    hsame.imp_right fun hsw => .inr ⟨hsw, hzero⟩, hzeroed, hseen,
    hpresent.imp_left fun hadd => ⟨hadd.1, hadd.2.trans_le (Nat.zero_le _)⟩, .inl ⟨?_, ?_⟩⟩
  · rw [hcount, hsum, hheld, hput, qput]
  · rw [hheld, hput, qput, hget, qget]
  · rw [hdead, hkills]
  · exact ⟨hatomic (hdead ▸ hd), hcount⟩
  · rw [hsum, hpg, qpg]
  · rw [qcount] at hq
    cases hq
  · rw [qperc] at hq
    cases hq
  · rw [hheld, hput, qput]
  · rw [hrel, hrl, qrl]

/-- The callback is deferred, and waits for all readers. -/
theorem RcInv.killDefer (h : RcInv s) (hpc : s.pc t = .killDefer) :
    RcInv (s.rcuDefer.setPc t .idle) := by
  refine h.switchStep hpc (q := .idle) rfl rfl rfl rfl rfl rfl (fun _ => rfl)
    ⟨rfl, rfl, rfl, rfl, rfl, rfl⟩ ⟨rfl, rfl, rfl, rfl, rfl, rfl⟩ rfl ?_ (fun W hW u hu => ?_) nofun
    (fun _ h0 => h0) (.inl rfl) (fun c hc => absurd hc (Nat.not_lt_zero _)) trivial
    (.inl ⟨rfl, rfl⟩)
  · simp [deferring, switching, Rc.setPc, Rc.rcuDefer, add_comm]
  rcases mem_append.1 hW with hW | hW
  · exact h.grace W hW u hu
  · rw [mem_singleton.1 hW]
    refine Finset.mem_filter.2 ⟨Finset.mem_univ u, ?_⟩
    cases hu' : s.pc u <;> rw [hu'] at hu <;> first | rfl | cases hu

/-- The grace period is over and the callback begins. -/
theorem RcInv.callback (h : RcInv s) (hpc : s.pc t = .idle) {k : ℕ}
    (hk : s.pending[k]? = some ∅) :
    RcInv { s.setPc t .cbLoad with pending := s.pending.eraseIdx k } := by
  have hmem : ∅ ∈ s.pending := mem_of_getElem? hk
  have hnone : ∀ u, (s.pc u).usesPercpu = false := by
    intro u
    rw [eq_false_iff]
    exact fun hu => absurd (h.grace ∅ hmem u hu) (Finset.notMem_empty u)
  have hlen : (s.pending.eraseIdx k).length + 1 = s.pending.length :=
    length_eraseIdx_add_one (List.getElem?_eq_some_iff.1 hk).1
  refine h.switchStep hpc (q := .cbLoad) rfl rfl rfl rfl rfl rfl (fun _ => rfl)
    ⟨rfl, rfl, rfl, rfl, rfl, rfl⟩ ⟨rfl, rfl, rfl, rfl, rfl, rfl⟩ rfl ?_ (fun W hW u hu => ?_)
    (fun _ => hnone) (fun _ h0 => h0) (.inl rfl) (fun c hc => absurd hc (Nat.not_lt_zero _)) trivial
    (.inl ⟨rfl, rfl⟩)
  · simp only [deferring, switching]
    omega
  · rw [hnone u] at hu
    cases hu

/-- The callback zeroes a counter that it has read. -/
theorem RcInv.cbZero (h : RcInv s) {i : Fin n} {value : ℤ} (hpc : s.pc t = .cbZero i sum value) :
    RcInv { s.setPc t (.cbSum (i + 1) (sum + value)) with
      counters := update s.counters i 0 } := by
  have hseen : s.counters i = value := by
    have := h.seen t
    rwa [hpc] at this
  have hzeroed : ∀ c : Fin n, c.val < i → s.counters c = 0 := fun c hc =>
    h.zeroed t c (.inl (by rw [hpc]; exact hc))
  refine h.switchStep hpc (q := .cbSum (i + 1) (sum + value)) rfl rfl rfl rfl rfl rfl
    (fun _ => rfl) ⟨rfl, rfl, rfl, rfl, rfl, rfl⟩ ⟨rfl, rfl, rfl, rfl, rfl, rfl⟩ ?_ rfl h.grace
    (fun hlt => absurd hlt (lt_irrefl 1)) (fun c h0 => ?_) (.inr rfl) (fun c hc => ?_) trivial
    (.inl ⟨rfl, rfl⟩)
  · change ∑ c, update s.counters i 0 c + (sum + value) = ∑ c, s.counters c + sum
    rw [sum_update, hseen]
    ring
  · change update s.counters i 0 c = 0
    by_cases hci : c = i
    · rw [hci, update_self]
    · rw [update_of_ne hci, h0]
  · change update s.counters i 0 c = 0
    by_cases hci : c = i
    · rw [hci, update_self]
    rw [update_of_ne hci]
    have hne : c.val ≠ i.val := fun e => hci (Fin.ext e)
    have hlt : c.val < i.val + 1 := hc
    exact hzeroed c (by omega)

/-- The counters are freed. -/
theorem RcInv.cbFree (h : RcInv s) (hpc : s.pc t = .cbFree sum) :
    RcInv { s.setPc t (.cbAdd sum) with
      ptr := { counters := false, dead := true, atomic := true } } := by
  have hdead : s.ptr.dead = true := by
    have hsw := le_total switching s.pc t
    rw [hpc] at hsw
    have hkills := h.kills
    cases hd : s.ptr.dead with
    | true => rfl
    | false =>
      rw [hd, toNat_false] at hkills
      simp only [switching] at hsw
      omega
  refine h.switchStep hpc (q := .cbAdd sum) rfl rfl rfl rfl rfl hdead.symm (fun h0 => ?_)
    ⟨rfl, rfl, rfl, rfl, rfl, rfl⟩ ⟨rfl, rfl, rfl, rfl, rfl, rfl⟩ rfl rfl h.grace
    (fun hlt => absurd hlt (lt_irrefl 1)) (fun _ h0 => h0) (.inl rfl)
    (fun c hc => h.zeroed t c (.inl ?_)) trivial (.inr Nat.one_pos)
  · rw [hdead] at h0
    cases h0
  · rw [hpc]
    exact hc

/-- The callback adds what it has summed and takes the bias away. -/
theorem RcInv.cbAdd (h : RcInv s) (hpc : s.pc t = .cbAdd sum) :
    RcInv { s.setPc t (if s.count + (sum - (percpuCountBias + 1)) = 0 then .release else .idle) with
      count := s.count + (sum - (percpuCountBias + 1))
      applied := s.applied + 1 } := by
  obtain ⟨q, hq⟩ : ∃ q, q = if s.count + (sum - (percpuCountBias + 1)) = 0 then (.release : Pc n)
      else .idle := ⟨_, rfl⟩
  rw [← hq]
  obtain ⟨qput, qget, qpg, qsw, qdef, qcount, qperc⟩ : q.putting = 0 ∧ q.getting = 0 ∧
      q.percpuGetting = 0 ∧ q.switching = 0 ∧ q.deferring = 0 ∧ q.usesCount = false ∧
      q.usesPercpu = false := by
    rw [hq]
    split_ifs <;> exact ⟨rfl, rfl, rfl, rfl, rfl, rfl, rfl⟩
  have qrel : q.releasing = if s.count + (sum - (percpuCountBias + 1)) = 0 then 1 else 0 := by
    rw [hq]
    split_ifs <;> rfl
  have tput := total_update putting s.pc t q
  have tget := total_update getting s.pc t q
  have trel := total_update releasing s.pc t q
  have tdef := total_update deferring s.pc t q
  have tsw := total_update switching s.pc t q
  have tsum := total_update summed s.pc t q
  rw [hpc, qput] at tput
  rw [hpc, qget] at tget
  rw [hpc, show (Pc.cbAdd sum : Pc n).releasing = 0 from rfl] at trel
  rw [hpc, qdef] at tdef
  rw [hpc, qsw] at tsw
  rw [hpc, (of_switching qsw).2.2] at tsum
  simp only [putting, getting, deferring, switching, summed, add_zero]
    at tput tget tdef tsw tsum
  have hle := h.kills_le
  have hsw' : total switching (update s.pc t q) = 0 := by omega
  have hzero : ∀ c, s.counters c = 0 := fun c => h.zeroed t c (.inl (by rw [hpc]; exact c.isLt))
  have hsum' : total summed (update s.pc t q) = 0 :=
    total_const_zero fun u => (of_switching (total_eq_zero.1 hsw' u)).2.2
  have hsum0 : ∑ c, s.counters c = 0 := Finset.sum_eq_zero fun c _ => hzero c
  have hquiet := h.quiet (by omega)
  have hcounted := h.counted (by omega)
  have hnot := h.not_due (.inl (by omega))
  obtain ⟨s', hs'⟩ : ∃ s', s' = { s.setPc t q with
      count := s.count + (sum - (percpuCountBias + 1))
      applied := s.applied + 1 } := ⟨_, rfl⟩
  have hpc' : s'.pc = update s.pc t q := by rw [hs']; rfl
  have happ : s'.applied = s.applied + 1 := by rw [hs']
  have hptr : s'.ptr = s.ptr := by rw [hs']; rfl
  have hcounters : s'.counters = s.counters := by rw [hs']; rfl
  have hpend : s'.pending = [] := by
    have : s.pending = [] := eq_nil_of_length_eq_zero (by omega)
    rw [hs']
    exact this
  have hrel : s'.released = s.released := by rw [hs']; rfl
  have hout : outstanding s' = outstanding s := by
    unfold outstanding
    rw [hpc', tput, show s'.held = s.held by rw [hs']; rfl]
  have hcount : s'.count = outstanding s := by
    unfold percpuTotal at hcounted
    rw [show s'.count = s.count + (sum - (percpuCountBias + 1)) by rw [hs']]
    linarith
  have hlast : s.count + (sum - (percpuCountBias + 1)) = outstanding s := by
    rw [← hcount, hs']
  rw [hlast] at qrel
  rw [← hs']
  constructor
  · rw [happ]
    exact fun h0 => absurd h0 (Nat.succ_ne_zero _)
  · intro _
    unfold percpuTotal
    rw [hcount, hout, hcounters, hpc', hsum', hsum0]
    simp
  · rw [hpc', hpend, happ, hptr, ← h.kills]
    have : s.pending.length = 0 := by omega
    rw [length_nil]
    omega
  · rw [hout, hpc', tget]
    exact h.bounded
  · rw [hptr]
    intro h0
    have hkills := h.kills
    rw [h0, toNat_false] at hkills
    omega
  · rw [happ]
    exact fun _ h0 => absurd h0 (Nat.succ_ne_zero _)
  · rw [hpc', hptr]
    refine (forall_update_iff s.pc fun _ p => p.usesCount = true → s.ptr.dead = true).2
      ⟨fun hu => ?_, fun u _ => h.shared u⟩
    rw [qcount] at hu
    cases hu
  · rw [hpend]
    exact fun W hW => absurd hW not_mem_nil
  · rw [hpc']
    exact fun _ => (forall_update_iff s.pc fun _ p => p.usesPercpu = false).2
      ⟨qperc, fun u _ => hquiet u⟩
  · rw [hcounters]
    exact fun _ c _ => hzero c
  · intro u
    rw [hpc']
    exact seen_of_switching (total_eq_zero.1 hsw' u) _
  · right
    omega
  · rw [hpc', hout, hrel]
    intro _ h0
    rw [if_pos (by omega)] at qrel
    omega
  · rw [hpc', hout, hrel]
    intro hcase
    rw [if_neg (by omega)] at qrel
    omega

end Charmos.PercpuRc
