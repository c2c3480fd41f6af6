import Charmos.Lib.Trace
import Charmos.Sync.PercpuRcSpec

/-!
# One release

In every run of a counter that began with per-CPU counters, `release` is called once, after a kill
and its grace period, when no reference is outstanding. It needs that no second kill sets the bits,
that `percpu_rc_getref` does not increment a shared counter of zero, and that fewer than `2 ^ 30`
references are outstanding or being got. Each of the first two fails in a short run, and so does a
counter that begins with `PERCPU_RC_INIT_ATOMIC`.
-/

namespace Charmos.PercpuRc

open AgentSum Option

variable {n : ℕ} {T : Type} [Fintype T] [DecidableEq T] {s : Rc n T} {t : T} {s' : Rc n T}

/-- What a step must keep to: there are fewer than `2 ^ 30` references, with those being got; only
the first kill sets the bits; and `percpu_rc_getref` does not increment a `count` of zero. -/
def rcSafe (s : Rc n T) : RcAct n T → Bool
  | .getref _ | .tryGetref _ => outstanding s + total Pc.getting s.pc + 1 < 2 ^ 30
  | .run t _ _ =>
    match s.pc t with
    | .killOr => !s.ptr.dead
    | .getCount => 0 < s.count
    | _ => true
  | _ => true

theorem RcInv.run (h : RcInv s) {cpu : Fin n} {fail : Bool} (hsafe : rcSafe s (.run t cpu fail)) :
    match rcRun s t cpu fail with
    | some s' => RcInv s'
    | none => True := by
  have hpercpu : percpuRcIsPercpu s.ptr = true → s.ptr.dead = false := by
    unfold percpuRcIsPercpu
    cases s.ptr.dead <;> simp
  have hshared : ¬ percpuRcIsPercpu s.ptr = true → s.ptr.dead = true := by
    intro h0
    cases hdead : s.ptr.dead with
    | true => rfl
    | false =>
      have := (h.alive hdead).1
      simp [percpuRcIsPercpu, hdead, this] at h0
  cases hpc : s.pc t <;> simp only [rcRun, hpc]
  case getLoad | tryLoad =>
    split_ifs with hptr
    · refine h.move hpc (by rintro ⟨⟩) (fun _ => .inr (hpercpu hptr)) nofun trivial fun hdead => ?_
      rw [hpercpu hptr] at hdead
      cases hdead
    · exact h.move hpc fun _ => hshared hptr
  case getPercpu =>
    exact h.getPercpu cpu (.inl hpc)
  case getCount =>
    have hpos : 0 < s.count := by
      simpa only [rcSafe, hpc, decide_eq_true_eq] using hsafe
    exact h.getCount hpos (.inl ⟨hpc, rfl⟩)
  case putLoad =>
    split_ifs with hptr
    · exact h.move hpc (by rintro ⟨⟩) fun _ => .inr (hpercpu hptr)
    · exact h.move hpc fun _ => hshared hptr
  case putPercpu =>
    exact h.putPercpu cpu hpc
  case putLeave | tryLeave =>
    have hdead := h.shared t (by rw [hpc]; rfl)
    exact (h.rcuReadUnlock (t := t) (by rw [hpc]; rfl)).move hpc fun _ => hdead
  case putDec =>
    exact h.putDec hpc
  case tryPercpu =>
    exact h.getPercpu cpu (.inr hpc)
  case tryRead =>
    have hdead := h.shared t (by rw [hpc]; rfl)
    exact h.move hpc fun _ => hdead
  case tryCas c =>
    have hdead := h.shared t (by rw [hpc]; rfl)
    split_ifs with hneg heq
    · exact h.move hpc
    · exact h.getCount (by omega) (.inr ⟨c, hpc, rfl⟩)
    · exact h.move hpc fun _ => hdead
  case unlock =>
    exact (h.rcuReadUnlock (t := t) (by rw [hpc]; rfl)).move hpc
  case killLoad =>
    split_ifs with hdead
    · exact h.move hpc
    · exact h.move hpc
  case killOr =>
    have hfirst : s.ptr.dead = false := by
      simpa only [rcSafe, hpc, Bool.not_eq_true_eq_eq_false] using hsafe
    exact h.killOr hpc hfirst
  case killDefer =>
    exact h.killDefer hpc
  case cbLoad =>
    -- the counters have not been freed yet, since no callback has got so far
    have hcounters : s.ptr.counters = true := by
      refine h.present.resolve_right fun hpos => ?_
      have hsw := le_total Pc.switching s.pc t
      rw [hpc] at hsw
      simp only [Pc.switching] at hsw
      have hle := h.kills_le
      have hadd : total Pc.adding s.pc = 0 := by
        refine total_eq_zero.2 fun u => ?_
        by_cases hu : u = t
        · rw [hu, hpc]
          rfl
        · refine (Pc.of_switching (Nat.eq_zero_of_not_pos fun hpos => hu ?_)).2.1
          exact eq_of_total_le_one (by omega) hpos (by rw [hpc]; exact Nat.one_pos)
      omega
    rw [hcounters]
    exact h.move hpc
  case cbSum i sum =>
    have hzeroed : ∀ c : Fin n, c.val < i → s.counters c = 0 := fun c hc =>
      h.zeroed t c (.inl (by rw [hpc]; exact hc))
    split_ifs with hi
    · exact h.move hpc (by rintro ⟨⟩) (by rintro ⟨⟩) hzeroed rfl
    · exact h.move hpc (by rintro ⟨⟩) (by rintro ⟨⟩) fun c _ => hzeroed c (by omega)
  case cbZero i sum value =>
    exact h.cbZero hpc
  case cbFree sum =>
    split_ifs with hreinit
    · exact h.move hpc (by rintro ⟨⟩) (by rintro ⟨⟩) fun c hc =>
        h.zeroed t c (.inl (by rw [hpc]; exact hc))
    · exact h.cbFree hpc
  case cbAdd sum =>
    exact h.cbAdd hpc
  case release =>
    exact h.release hpc

theorem RcInv.step {a : RcAct n T} (h : RcInv s) (hstep : rcStep s a = some s')
    (hsafe : rcSafe s a) : RcInv s' := by
  cases a with
  | getref t | tryGetref t =>
    simp only [rcStep] at hstep
    split_ifs at hstep with hpc
    obtain ⟨⟩ := hstep
    exact h.move hpc (by rintro ⟨⟩) (by rintro ⟨⟩) nofun trivial (fun _ => le_rfl)
      (.inr (of_decide_eq_true hsafe))
  | putref t =>
    simp only [rcStep] at hstep
    split_ifs at hstep with hpc
    obtain ⟨⟩ := hstep
    exact h.putref hpc.1 hpc.2
  | kill t =>
    simp only [rcStep] at hstep
    split_ifs at hstep with hpc
    obtain ⟨⟩ := hstep
    exact h.move hpc
  | callback t k =>
    simp only [rcStep] at hstep
    split_ifs at hstep with hpc
    obtain ⟨⟩ := hstep
    exact h.callback hpc.1 hpc.2
  | run t cpu fail =>
    have hrun := h.run hsafe
    rwa [show rcRun s t cpu fail = some s' from hstep] at hrun

omit [DecidableEq T] in
theorem RcInv.ok (h : RcInv s) : RcOk s := by
  have hdue : 0 < s.released + total Pc.releasing s.pc → 0 < s.applied ∧ outstanding s = 0 := by
    intro hpos
    by_contra hne
    have := h.not_due (by omega)
    omega
  refine ⟨fun hrel => ?_, h.due, ?_⟩
  · obtain ⟨happ, hout⟩ := hdue (by omega)
    refine ⟨?_, hout⟩
    have hkills := h.kills
    cases hdead : s.ptr.dead with
    | true => rfl
    | false =>
      rw [hdead, Bool.toNat_false] at hkills
      omega
  · by_contra hlt
    obtain ⟨happ, hout⟩ := hdue (by omega)
    have := h.due happ hout
    omega

/-- A run in which every step is safe. -/
def RcRun : Rc n T → Rc n T → Prop :=
  Relation.ReflTransGen fun s s' => ∃ a, rcStep s a = some s' ∧ rcSafe s a

theorem RcRun.inv {s : Rc n T} (hrun : RcRun s s') (h : RcInv s) : RcInv s' := by
  induction hrun with
  | refl => exact h
  | tail _ hstep ih =>
    obtain ⟨a, hstep, hsafe⟩ := hstep
    exact ih.step hstep hsafe

/-- A list of actions, one after the other. -/
def rcTrace (s : Rc n T) (acts : List (RcAct n T)) : Option (Rc n T) := acts.foldlM rcStep s

/-- A list of actions that are all safe. -/
def rcTraceSafe (s : Rc n T) (acts : List (RcAct n T)) : Option (Rc n T) :=
  acts.foldlM (fun s a => if rcSafe s a then rcStep s a else none) s

theorem rcTraceSafe_run {acts : List (RcAct n T)} {s : Rc n T} (h : rcTraceSafe s acts = some s') :
    RcRun s s' :=
  reflTransGen_of_trace h fun _ a _ hs => by
    obtain ⟨hsafe, hstep⟩ := ite_none_right_eq_some.mp hs
    exact ⟨a, hstep, hsafe⟩

/-- However the calls interleave, `release` is called once, after the kill and its grace period,
when no reference is outstanding any more. -/
theorem rcRun_ok {allowReinit : Bool} {s : Rc n T}
    (hrun : RcRun (percpuRcInit n T false allowReinit) s) : RcOk s :=
  (hrun.inv (RcInv.init allowReinit)).ok

/-- Thread `0` gets a reference on CPU `0`, thread `1` kills, and the reference is put on the shared
counter before the callback runs, which then calls `release`. -/
theorem rcRun_ok_onePut :
    ∃ s, RcRun (percpuRcInit 2 (Fin 2) false false) s ∧ s.released = 1 ∧ RcOk s := by
  have hobs : (rcTraceSafe (percpuRcInit 2 (Fin 2) false false)
      (.getref 0 :: List.replicate 3 (.run 0 0 false) ++ .kill 1 :: List.replicate 3
        (.run 1 0 false) ++ .putref 0 :: List.replicate 3 (.run 0 1 false) ++
        .callback 1 0 :: List.replicate 9 (.run 1 0 false))).map
      (·.released) = some 1 := by decide +kernel
  obtain ⟨s, hs, hobs⟩ := map_eq_some_iff.mp hobs
  have hrun := rcTraceSafe_run hs
  exact ⟨s, hrun, hobs, rcRun_ok hrun⟩

/-- With `PERCPU_RC_INIT_ATOMIC` the callback takes a bias away that was never added: the counter is
killed, no reference is outstanding, and `release` is never called. -/
theorem rcTrace_initAtomic :
    ∃ s, rcTrace (percpuRcInit 1 (Fin 1) true false)
        [.kill 0, .run 0 0 false, .run 0 0 false, .run 0 0 false, .callback 0 0, .run 0 0 false,
          .run 0 0 false] = some s ∧
      s.pc 0 = .idle ∧ s.applied = 1 ∧ outstanding s = 0 ∧ s.count = -percpuCountBias ∧
      s.released = 0 ∧ ¬ RcOk s := by
  have hobs : (rcTrace (percpuRcInit 1 (Fin 1) true false)
      [.kill 0, .run 0 0 false, .run 0 0 false, .run 0 0 false, .callback 0 0, .run 0 0 false,
        .run 0 0 false]).map (fun s => (s.pc 0, s.applied, outstanding s, s.count, s.released,
          total Pc.releasing s.pc)) =
      some (.idle, 1, 0, -percpuCountBias, 0, 0) := by
    decide +kernel
  obtain ⟨s, hs, hobs⟩ := map_eq_some_iff.mp hobs
  obtain ⟨hpc, happ, hout, hcount, hrel, hreling⟩ : s.pc 0 = .idle ∧ s.applied = 1 ∧
      outstanding s = 0 ∧ s.count = -percpuCountBias ∧ s.released = 0 ∧
      total Pc.releasing s.pc = 0 := by
    simpa only [Prod.mk.injEq] using hobs
  refine ⟨s, hs, hpc, happ, hout, hcount, hrel, fun hok => ?_⟩
  have := hok.once (by omega) hout
  omega

/-- Two kills both find the counter alive: the bias is taken away twice, and the last reference is
put without a call of `release`. -/
theorem rcTrace_twoKills :
    (rcTrace (percpuRcInit 1 (Fin 2) false false)
      [.getref 0, .run 0 0 false, .run 0 0 false, .run 0 0 false, .kill 0, .kill 1,
       .run 0 0 false, .run 1 0 false, .run 0 0 false, .run 1 0 false, .run 0 0 false,
       .run 1 0 false, .callback 0 0, .run 0 0 false, .run 0 0 false, .run 0 0 false,
       .run 0 0 false, .run 0 0 false, .run 0 0 false, .callback 1 0, .run 1 0 false,
       .run 1 0 false, .putref 0, .run 0 0 false, .run 0 0 false, .run 0 0 false]).map
      (fun s => (s.applied, outstanding s, s.released, total Pc.releasing s.pc)) =
        some (2, 0, 0, 0) := by
  decide +kernel

/-- `percpu_rc_getref` after the release brings `count` back to one, and the put to zero: `release`
is called again. -/
theorem rcTrace_getref_zero :
    (rcTrace (percpuRcInit 1 (Fin 1) false false)
      [.kill 0, .run 0 0 false, .run 0 0 false, .run 0 0 false, .callback 0 0, .run 0 0 false,
       .run 0 0 false, .run 0 0 false, .run 0 0 false, .run 0 0 false, .run 0 0 false,
       .run 0 0 false, .getref 0, .run 0 0 false, .run 0 0 false, .run 0 0 false, .putref 0,
       .run 0 0 false, .run 0 0 false, .run 0 0 false, .run 0 0 false]).map
      (·.released) = some 2 := by
  decide +kernel

end Charmos.PercpuRc
