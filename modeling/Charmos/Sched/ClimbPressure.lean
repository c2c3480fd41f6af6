import Charmos.Sched.ClimbHandles

/-!
# The pressure on a thread

A handle adds a part of what is left of the space of pressures, rounded down, and remembers how much
it added, so that it can be taken off again in any order. The pressure of a thread is therefore the
sum of what its handles added as long as a handle never adds nothing, which a check refuses, and
never more than what is left. `Fits` says when this is so; `climbRun_pressure_exceeds` has runs in
which it is not.
-/

namespace Charmos.Climb

open BitVec Math Option Relation Sys

variable {T H C : Type} {s s' : Sys T H C} {d : ThreadData H} {p : Fx}

/-- The bound of a kind. -/
def pressureMax : PressureKind → Fx
  | .direct => climbDirectPressureMax
  | .indirect => climbIndirectPressureMax

/-- The pressure of each thread is what its handles have added, and it stays within its bounds. -/
structure PressureOk (s : Sys T H C) : Prop where
  attached : ∀ t h, h ∈ (s.data t).handles ↔ (s.handle h).givenTo = some t
  nodup : ∀ t, (s.data t).handles.Nodup
  sum : ∀ t k, ((s.data t).pressure k).toNat =
    handleSum BitVec.toNat s.handle k (s.data t).handles
  le : ∀ t k, ((s.data t).pressure k).toNat ≤ (pressureMax k).toNat
  zero : ∀ t k, (s.data t).handles = [] → (s.data t).pressure k = 0#64

/-- The pressure `q` adds something and no more than what is left above `p`. -/
def Fits (q p : ℕ) : Prop :=
  2 ^ 32 ≤ q * (2 ^ 32 - p) ∧ q * (2 ^ 32 - p) < (2 ^ 32 - p + 1) * 2 ^ 32

/-- What a pressure is worth on a thread: indirect pressure is scaled by the direct one. -/
def scaled (d : ThreadData H) : PressureKind → ℕ → ℕ
  | .direct, p => p
  | .indirect, p =>
    p * max (2 ^ 32 - d.directPressure.toNat) climbIndirectMinScale.toNat / 2 ^ 32

/-! ### Arithmetic -/

theorem fits_iff (q p : ℕ) :
    Fits q p ↔ q * (2 ^ 32 - p) / 2 ^ 32 ≠ 0 ∧ q * (2 ^ 32 - p) / 2 ^ 32 ≤ 2 ^ 32 - p := by
  unfold Fits
  generalize q * (2 ^ 32 - p) = n
  generalize 2 ^ 32 - p = x
  omega

theorem toNat_fxOne : fxOne.toNat = 2 ^ 32 := by decide

theorem toNat_pressureMax (k : PressureKind) : (pressureMax k).toNat = 2 ^ 32 := by
  cases k <;> exact toNat_fxOne

theorem toNat_room (hp : p.toNat ≤ 2 ^ 32) : (fxSub fxOne p).toNat = 2 ^ 32 - p.toNat := by
  rw [fxSub, toNat_sub_of_le (le_def.mpr (hp.trans_eq toNat_fxOne.symm)), toNat_fxOne]

theorem toNat_climbAccumulate {delta : Fx} (hp : p.toNat ≤ 2 ^ 32) (hd : delta.toNat < 2 ^ 33) :
    (climbAccumulate p delta fxOne).toNat =
      p.toNat + delta.toNat * (2 ^ 32 - p.toNat) / 2 ^ 32 := by
  have hroom := toNat_room hp
  have hle : delta.toNat * (2 ^ 32 - p.toNat) / 2 ^ 32 ≤ delta.toNat := by
    refine Nat.div_le_of_le_mul ?_
    rw [mul_comm]
    exact Nat.mul_le_mul_right _ (Nat.sub_le _ _)
  have hmul : (fxMul delta (fxSub fxOne p)).toNat =
      delta.toNat * (2 ^ 32 - p.toNat) / 2 ^ 32 := by
    rw [toNat_fxMul (by omega) (by rw [hroom]; omega) (by rw [hroom]; omega), hroom]
  rw [climbAccumulate, fxAdd, toNat_add, hmul, Nat.mod_eq_of_lt (by omega)]

theorem toNat_climbPressureScaleIndirect (hp : p.toNat ≤ 2 ^ 32) :
    (climbPressureScaleIndirect p).toNat =
      max (2 ^ 32 - p.toNat) climbIndirectMinScale.toNat := by
  have hroom := toNat_room hp
  rw [climbPressureScaleIndirect, toNat_fxMax (by rw [hroom]; omega) (by decide), hroom]

theorem climbThreadTotalPressure_le (hd : d.directPressure.toNat ≤ 2 ^ 32)
    (hi : d.indirectPressure.toNat ≤ 2 ^ 32) : (climbThreadTotalPressure d).toNat ≤ 2 ^ 32 := by
  have hweight : climbIndirectWeight.toNat = 3650722202 := rfl
  have hle : d.indirectPressure.toNat * climbIndirectWeight.toNat / 2 ^ 32 ≤ 3650722202 := by
    rw [hweight]
    omega
  have hmul := toNat_fxMul (a := d.indirectPressure) (b := climbIndirectWeight) (by omega)
    (by decide) (by omega)
  have hadd : (fxAdd d.directPressure (fxMul d.indirectPressure climbIndirectWeight)).toNat <
      2 ^ 63 := by
    rw [fxAdd, toNat_add, hmul, Nat.mod_eq_of_lt (by omega)]
    omega
  have hmin := toNat_fxMin hadd (b := climbPressureMax) (by decide)
  have hone : climbPressureMax.toNat = 2 ^ 32 := toNat_fxOne
  rw [climbThreadTotalPressure, fxClamp, toNat_fxMax (by decide) (by omega), hmin]
  simp only [toNat_ofNat]
  omega

/-- No pressure that a handle can be given is more than twice the space. -/
theorem Origin.pressure_lt (h : PressureOk s) (origin : Origin T) :
    (origin.pressure s).toNat < 2 ^ 33 := by
  cases origin with
  | source src =>
    have := src.base_le
    exact this.trans_lt (by decide)
  | thread t =>
    have hd := (h.le t .direct).trans_eq (toNat_pressureMax _)
    have hi := (h.le t .indirect).trans_eq (toNat_pressureMax _)
    have htotal := climbThreadTotalPressure_le (d := s.data t) hd hi
    have hbase : climbPressureThreadBase.toNat = 214748365 := rfl
    change (fxAdd climbPressureThreadBase (climbThreadTotalPressure (s.data t))).toNat < _
    rw [fxAdd, toNat_add, hbase, Nat.mod_eq_of_lt (by omega)]
    omega

theorem toNat_scaledPressure (k : PressureKind) (hd : d.directPressure.toNat ≤ 2 ^ 32)
    (hp : p.toNat < 2 ^ 33) :
    (scaledPressure d k p).toNat = scaled d k p.toNat ∧ scaled d k p.toNat < 2 ^ 33 := by
  cases k with
  | direct => exact ⟨rfl, hp⟩
  | indirect =>
    have hscale := toNat_climbPressureScaleIndirect hd
    have hmin : climbIndirectMinScale.toNat = 429496730 := rfl
    have hle : p.toNat * (climbPressureScaleIndirect d.directPressure).toNat / 2 ^ 32 ≤
        p.toNat := by
      refine Nat.div_le_of_le_mul ?_
      rw [mul_comm, hscale]
      exact Nat.mul_le_mul_right _ (by omega)
    have hmul : (fxMul p (climbPressureScaleIndirect d.directPressure)).toNat =
        scaled d .indirect p.toNat := by
      rw [toNat_fxMul (by omega) (by omega) (by omega), hscale, scaled]
    refine ⟨hmul, ?_⟩
    rw [scaled, ← hscale]
    omega

/-- A handle raises the pressure by its part of what is left. -/
theorem toNat_raisedPressure (k : PressureKind) (hle : ∀ k, (d.pressure k).toNat ≤ 2 ^ 32)
    (hp : p.toNat < 2 ^ 33) :
    (raisedPressure d k p).toNat = (d.pressure k).toNat +
      scaled d k p.toNat * (2 ^ 32 - (d.pressure k).toNat) / 2 ^ 32 := by
  obtain ⟨hs, hlt⟩ := toNat_scaledPressure (d := d) k (hle .direct) hp
  rw [raisedPressure, toNat_climbAccumulate (hle k) (by rw [hs]; exact hlt), hs]

/-! ### The invariant -/

/-- The tree, the handles and the pressures. -/
structure PressureInv (s : Sys T H C) : Prop where
  tree : TreeInv s
  handle : HandleInv s
  sum : SumOk BitVec.toNat s
  le : ∀ t k, ((s.data t).pressure k).toNat ≤ 2 ^ 32

theorem PressureInv.ok (h : PressureInv s) : PressureOk s where
  attached := h.handle.attached
  nodup := h.handle.nodup
  sum := h.sum
  le t k := (h.le t k).trans_eq (toNat_pressureMax k).symm
  zero t k hnil := by
    have hsum := h.sum t k
    rw [hnil] at hsum
    exact eq_of_toNat_eq hsum

theorem PressureInv.congr (h : PressureInv s) (hsame : SamePressure s s') (htree : TreeInv s') :
    PressureInv s' :=
  ⟨htree, h.handle.congr hsame, h.sum.congr hsame, fun t k => hsame.pressure t k ▸ h.le t k⟩

theorem PressureInv.init (kind : H → PressureKind) (cpu : T → C) : PressureInv (init kind cpu) :=
  ⟨TreeInv.init kind cpu, HandleInv.init kind cpu, SumOk.init rfl kind cpu,
    fun _ k => by cases k <;> exact Nat.zero_le _⟩

variable [DecidableEq T] [DecidableEq H]

/-- A removal never fails. -/
theorem PressureInv.climbHandleRemove (h : PressureInv s) (x : H) :
    ∃ s', climbHandleRemove s x = .ok s' ∧ PressureInv s' := by
  rcases h.handle.remove_cases x with ⟨-, hs⟩ | ⟨t, ch, ht, hg, hl, ha, hs⟩
  · exact ⟨s, hs, h⟩
  obtain ⟨hhandles, -, -⟩ := removeHandle_frame (s.data t) x (s.handle x)
  -- the handle is worth no more than the pressure, so nothing wraps
  have hpart : ∀ k, ((removeHandle (s.data t) x (s.handle x)).pressure k).toNat +
      handlePart BitVec.toNat (s.handle x) k = ((s.data t).pressure k).toNat := by
    intro k
    have hword := removeHandle_pressure (s.data t) x (s.handle x) k
    have hsplit := h.sum.split h.handle ht k
    unfold handlePart at hword hsplit ⊢
    split
    · next hk =>
      rw [if_pos hk] at hword hsplit
      rw [← eq_sub_iff_add_eq] at hword
      rw [hword, toNat_sub_of_le (le_def.mpr (by rw [hsplit]; simp))]
      exact Nat.sub_add_cancel (by rw [hsplit]; simp)
    · next hk =>
      rw [if_neg hk, add_zero] at hword
      rw [hword, add_zero]
  refine ⟨_, hs, h.tree.removeHandle t x _ _, h.handle.detach ht hg hl ha hhandles,
    h.sum.detach h.handle ht hhandles hpart, fun u k => ?_⟩
  by_cases hut : u = t
  · subst hut
    have hle := h.le u k
    have hk := hpart k
    simp only [setHandle, setData, Function.update_self]
    omega
  · simpa [setHandle, setData, hut] using h.le u k

/-! ### Steps -/

variable [DecidableEq C]

/-- The handle adds something to the pressure of the thread, and no more than what is left. -/
def Act.Safe (s : Sys T H C) : Act T H C → Prop
  | .apply t _ self origin _ =>
    Fits (scaled (s.data t) (kindOf self) (origin.pressure s).toNat)
      ((s.data t).pressure (kindOf self)).toNat
  | _ => True

/-- A handle is applied. It is safe if and only if the step passes its checks and the pressures are
right after it. -/
theorem PressureInv.apply (h : PressureInv s) {t : T} {x : H} {self : Bool} {origin : Origin T}
    {pos : ℕ} (hallowed : (Act.apply t x self origin pos).Allowed s)
    (hpossible : climbStep s (.apply t x self origin pos) ≠ none) :
    ((Act.apply t x self origin pos).Safe s ↔
      ∃ s', climbStep s (.apply t x self origin pos) = some (.ok s') ∧ PressureOk s') ∧
    ((Act.apply t x self origin pos).Safe s →
      ∀ s', climbStep s (.apply t x self origin pos) = some (.ok s') → PressureInv s') := by
  simp only [Act.Safe, fits_iff]
  have hraised := toNat_raisedPressure (kindOf self) (h.le t) (Origin.pressure_lt h.ok origin)
  generalize scaled (s.data t) (kindOf self) (origin.pressure s).toNat *
    (2 ^ 32 - ((s.data t).pressure (kindOf self)).toNat) / 2 ^ 32 = add at hraised ⊢
  have hadd : (raisedPressure (s.data t) (kindOf self) (origin.pressure s) -
      (s.data t).pressure (kindOf self)).toNat = add := by
    rw [toNat_sub_of_le (le_def.mpr (by omega)), hraised, Nat.add_sub_cancel_left]
  rcases h.handle.apply_cases hallowed with ⟨hzero, herr⟩ | ⟨ch, hg, hl, ha, hkind, happ, hstep⟩
  · -- the part rounds to 0, and the check fails
    have hadd0 : add = 0 := by rw [← hadd, hzero]; rfl
    rw [herr]
    refine ⟨⟨fun hsafe => absurd hadd0 hsafe.1, ?_⟩, fun hsafe => absurd hadd0 hsafe.1⟩
    rintro ⟨s', hs', -⟩
    simp at hs'
  · have hch : ch.appliedPressureInternal.toNat = add := by rw [happ, hadd]
    have hne : add ≠ 0 := fun hc => ha (eq_of_toNat_eq (hch.trans hc))
    obtain ⟨hhandles, hflag, hperiods⟩ := appliedData_frame s t x self (origin.pressure s)
    have hpressure := appliedData_pressure s t x self (origin.pressure s)
    have htree : TreeInv
        ((s.setData t (appliedData s t x self (origin.pressure s))).setHandle x ch) :=
      (h.tree.setData t hflag (by rw [hperiods])).setHandle x ch
    have hold := h.le t (kindOf self)
    have hsum : SumOk BitVec.toNat
        ((s.setData t (appliedData s t x self (origin.pressure s))).setHandle x ch) := by
      refine h.sum.attach h.handle hallowed.1 hhandles fun k => ?_
      rw [hpressure, handlePart, hkind]
      split
      · next hk => rw [hraised, hch, hk]
      · rfl
    rw [hstep] at hpossible ⊢
    obtain ⟨s', hs', -⟩ := (htree.enterTree_cases t pos).of_ne_none hpossible
    obtain ⟨htree', hsame⟩ := htree.enterTree hs'
    have hnew : ∀ u k, ((s'.data u).pressure k) = if u = t then
        (appliedData s t x self (origin.pressure s)).pressure k else (s.data u).pressure k := by
      intro u k
      rw [hsame.pressure]
      by_cases hut : u = t
      · subst hut
        simp [setHandle, setData]
      · simp [setHandle, setData, hut]
    have hinv : add ≤ 2 ^ 32 - ((s.data t).pressure (kindOf self)).toNat → PressureInv s' := by
      intro hle
      refine ⟨htree', (h.handle.attach hallowed.1 hg hl ha hhandles).congr hsame,
        hsum.congr hsame, fun u k => ?_⟩
      rw [hnew]
      split
      · next hut =>
        rw [hpressure]
        split
        · omega
        · exact h.le t k
      · exact h.le u k
    rw [hs']
    refine ⟨⟨fun hsafe => ⟨s', rfl, (hinv hsafe.2).ok⟩, ?_⟩, fun hsafe s'' hs'' => ?_⟩
    · rintro ⟨s'', hs'', hok⟩
      obtain rfl := Except.ok.inj (some.inj hs'')
      have hle := (hok.le t (kindOf self)).trans_eq (toNat_pressureMax _)
      rw [hnew, if_pos rfl, hpressure, if_pos rfl, hraised] at hle
      exact ⟨hne, by omega⟩
    · obtain rfl := Except.ok.inj (some.inj hs'')
      exact hinv hsafe.2

/-- A step that always keeps the invariant. -/
theorem PressureInv.iff_of_step {act : Act T H C} (hsafe : act.Safe s)
    (hstep : climbStep s act = some (.ok s')) (h' : PressureInv s') :
    (act.Safe s ↔ ∃ s', climbStep s act = some (.ok s') ∧ PressureOk s') ∧
      (act.Safe s → ∀ s', climbStep s act = some (.ok s') → PressureInv s') := by
  refine ⟨⟨fun _ => ⟨s', hstep, h'.ok⟩, fun _ => hsafe⟩, fun _ s'' hs'' => ?_⟩
  rw [hstep] at hs''
  obtain rfl := Except.ok.inj (some.inj hs'')
  exact h'

theorem PressureInv.step (h : PressureInv s) (act : Act T H C) (hallowed : act.Allowed s)
    (hpossible : climbStep s act ≠ none) :
    (act.Safe s ↔ ∃ s', climbStep s act = some (.ok s') ∧ PressureOk s') ∧
      (act.Safe s → ∀ s', climbStep s act = some (.ok s') → PressureInv s') := by
  cases act with
  | apply t x self origin pos => exact h.apply hallowed hpossible
  | remove x =>
    obtain ⟨s', hs', h'⟩ := h.climbHandleRemove x
    exact PressureInv.iff_of_step trivial (congrArg some hs') h'
  | threadRemove t =>
    obtain ⟨htree, hsame⟩ := h.tree.climbThreadRemove t
    exact PressureInv.iff_of_step trivial rfl (h.congr hsame htree)
  | migrate t new pos =>
    obtain ⟨s', hs', -⟩ := (h.tree.migrate_cases t new pos).of_ne_none hpossible
    obtain ⟨htree, hsame⟩ := h.tree.migrate hs'
    exact PressureInv.iff_of_step trivial hs' (h.congr hsame htree)
  | period c =>
    obtain ⟨s', hs', htree, hsame⟩ := h.tree.climbPerPeriodHook c
    exact PressureInv.iff_of_step trivial (congrArg some hs') (h.congr hsame htree)

/-! ### Runs -/

/-- A step that the callers may take. -/
def AllowedStep (s s' : Sys T H C) : Prop :=
  ∃ act, act.Allowed s ∧ climbStep s act = some (.ok s')

/-- A step that they may take and that is safe. -/
def SafeStep (s s' : Sys T H C) : Prop :=
  ∃ act, act.Allowed s ∧ act.Safe s ∧ climbStep s act = some (.ok s')

theorem PressureInv.reachable {kind : H → PressureKind} {cpu : T → C}
    (hs : ReflTransGen SafeStep (Sys.init kind cpu) s) : PressureInv s := by
  induction hs with
  | refl => exact PressureInv.init kind cpu
  | tail _ hstep ih =>
    obtain ⟨act, hallowed, hsafe, hact⟩ := hstep
    exact (ih.step act hallowed (by simp [hact])).2 hsafe _ hact

/-- In every run of safe steps, the pressures of each thread are the sums of what its handles have
added, they stay within their bounds, and they are 0 without handles. From every state of such a
run, a step passes its checks and keeps this if and only if it is safe. -/
theorem climbRun_pressure_iff {kind : H → PressureKind} {cpu : T → C} {s : Sys T H C}
    (hs : ReflTransGen SafeStep (init kind cpu) s) :
    PressureOk s ∧ ∀ act : Act T H C, act.Allowed s → climbStep s act ≠ none →
      (act.Safe s ↔ ∃ s', climbStep s act = some (.ok s') ∧ PressureOk s') := by
  have h := PressureInv.reachable hs
  exact ⟨h.ok, fun act hallowed hpossible => (h.step act hallowed hpossible).1⟩

/-- The source of threads that wait for a device. -/
def ioSource : Source := ⟨climbPressureIoBase, by decide, by decide⟩

instance (s : Sys T H C) : (act : Act T H C) → Decidable (act.Allowed s)
  | .apply _ h self _ _ =>
    inferInstanceAs (Decidable ((s.handle h).givenTo = none ∧ (s.handle h).kind = kindOf self))
  | .remove _ | .threadRemove _ | .migrate _ _ _ | .period _ => isTrue trivial

instance (s : Sys T H C) : (act : Act T H C) → Decidable (act.Safe s)
  | .apply _ _ _ _ _ => inferInstanceAs (Decidable (_ ∧ _))
  | .remove _ | .threadRemove _ | .migrate _ _ _ | .period _ => isTrue trivial

section

variable (P : Sys T H C → Act T H C → Prop) [∀ s act, Decidable (P s act)]

/-- The state after a list of actions, if all of them meet a condition and pass the checks. -/
def trace (s : Sys T H C) : List (Act T H C) → Option (Sys T H C)
  | [] => some s
  | act :: acts =>
    if P s act then
      match climbStep s act with
      | some (.ok s') => trace s' acts
      | _ => none
    else none

theorem trace_reachable {acts : List (Act T H C)} (h : trace P s acts = some s') :
    ReflTransGen (fun s s' => ∃ act, P s act ∧ climbStep s act = some (.ok s')) s s' := by
  induction acts generalizing s with
  | nil =>
    obtain ⟨⟩ := h
    exact .refl
  | cons act acts ih =>
    obtain ⟨hallowed, h⟩ := Option.ite_none_right_eq_some.mp h
    split at h
    · next s₁ hstep => exact (ih h).head ⟨act, hallowed, hstep⟩
    · cases h

end

/-- Handles that the thread 0 applies to itself, all with the pressure of a device. -/
def directHandles (n : ℕ) : List (Act ℕ ℕ Unit) :=
  (List.range n).map fun i => .apply 0 i true (.source ioSource) 0

/-- The handles below 100 are direct. -/
def twoThreads : Sys ℕ ℕ Unit :=
  init (fun h => if h < 100 then .direct else .indirect) fun _ => ()

/-- A thread applies two handles to itself and one to the thread that it waits for, and then takes
the first one off. It may apply another one. -/
theorem climbRun_pressure_iff_handles : ∃ s s' : Sys ℕ ℕ Unit,
    ReflTransGen SafeStep (init (fun h => if h < 100 then .direct else .indirect) fun _ => ()) s ∧
    ((s.data 0).handles, (s.data 1).handles) = ([1], [100]) ∧
    (s.data 1).indirectPressure ≠ 0#64 ∧ PressureOk s ∧
    climbStep s (.apply 0 2 true (.source ioSource) 0) = some (.ok s') ∧ PressureOk s' := by
  have hend : (trace (fun s act => act.Allowed s ∧ act.Safe s) twoThreads
      [.apply 0 0 true (.source ioSource) 0, .apply 0 1 true (.source ioSource) 0,
        .apply 1 100 false (.thread 0) 0, .remove 0]).map
      (fun s => (((s.data 0).handles, (s.data 1).handles),
        decide ((s.data 1).indirectPressure ≠ 0#64),
        decide ((Act.apply 0 2 true (.source ioSource) 0).Allowed s),
        decide ((Act.apply 0 2 true (.source ioSource) 0).Safe s),
        (climbStep s (.apply 0 2 true (.source ioSource) 0)).isSome)) =
      some (([1], [100]), true, true, true, true) := by
    decide +kernel
  obtain ⟨s, hs, hobs⟩ := map_eq_some_iff.mp hend
  simp only [Prod.mk.injEq, decide_eq_true_eq] at hobs
  obtain ⟨hhandles, hindirect, hallowed, hsafe, hpossible⟩ := hobs
  have hrun : ReflTransGen SafeStep twoThreads s :=
    (trace_reachable _ hs).lift id
      fun _ _ ⟨act, ⟨ha, hsafe⟩, hstep⟩ => ⟨act, ha, hsafe, hstep⟩
  obtain ⟨hok, hiff⟩ := climbRun_pressure_iff hrun
  obtain ⟨s', hstep, hok'⟩ :=
    (hiff _ hallowed (Option.isSome_iff_ne_none.mp hpossible)).mp hsafe
  exact ⟨s, s', hrun, Prod.ext hhandles.1 hhandles.2, hindirect, hok, hstep, hok'⟩

/-- A thread applies fourteen handles to itself and then waits for another one: the handle that it
applies to the other thread raises its pressure above the bound. And a thread that applies 95
handles to itself is so close to the bound that the next one adds nothing, and a check fails. -/
theorem climbRun_pressure_exceeds :
    (∃ s, ReflTransGen AllowedStep twoThreads s ∧
      climbIndirectPressureMax.toNat < (s.data 1).indirectPressure.toNat) ∧
    ∃ s act, ReflTransGen AllowedStep twoThreads s ∧ act.Allowed s ∧
      climbStep s act = some (.error .noPressure) := by
  constructor
  · have hend : (trace (fun s act => act.Allowed s) twoThreads
        (directHandles 14 ++ [.apply 1 100 false (.thread 0) 0])).map
        (fun s => decide (climbIndirectPressureMax.toNat < (s.data 1).indirectPressure.toNat)) =
        some true := by
      decide +kernel
    obtain ⟨s, hs, hlt⟩ := map_eq_some_iff.mp hend
    exact ⟨s, trace_reachable _ hs, of_decide_eq_true hlt⟩
  · have hend : (trace (fun s act => act.Allowed s) twoThreads (directHandles 95)).map (fun s =>
        (decide ((Act.apply 0 95 true (.source ioSource) 0).Allowed s),
          (climbStep s (.apply 0 95 true (.source ioSource) 0)).map fun r =>
            match r with | .error fault => some fault | .ok _ => none)) =
        some (true, some (some .noPressure)) := by
      decide +kernel
    obtain ⟨s, hs, hlast⟩ := map_eq_some_iff.mp hend
    obtain ⟨hallowed, hstep⟩ := Prod.mk.inj hlast
    obtain ⟨r, hr, hfault⟩ := map_eq_some_iff.mp hstep
    refine ⟨s, _, trace_reachable _ hs, of_decide_eq_true hallowed, ?_⟩
    cases r with
    | error fault =>
      obtain ⟨⟩ := hfault
      exact hr
    | ok s' => cases hfault

end Charmos.Climb
