import Charmos.Sched.ClimbSpec

/-!
# The handles of the CLIMB framework

A handle is attached to one thread at most, and it is linked and has added pressure exactly while it
is attached. What a handle has added is taken off again when it is removed, so that the pressures of
a thread are the sums of what its handles have added, as words; the sums are taken in any group or
in the natural numbers, to which the pressures are mapped. This holds in every run in which handles
are applied only while they are not attached.
-/

namespace Charmos.Climb

open Function List Math Sys

variable {T H C : Type} {s : Sys T H C} {x : H} {M : Type*} {t : T} {self : Bool}

/-- The pressure of a kind. -/
def ThreadData.pressure (d : ThreadData H) : PressureKind → Fx
  | .direct => d.directPressure
  | .indirect => d.indirectPressure

def ThreadData.setPressure (d : ThreadData H) : PressureKind → Fx → ThreadData H
  | .direct, p => { d with directPressure := p }
  | .indirect, p => { d with indirectPressure := p }

/-- The kind of handle that a thread applies to itself, and to others. -/
def kindOf (self : Bool) : PressureKind :=
  if self then .direct else .indirect

/-- The pressure that a handle brings, scaled for the thread. -/
def scaledPressure (d : ThreadData H) : PressureKind → Fx → Fx
  | .direct, p => p
  | .indirect, p => fxMul p (climbPressureScaleIndirect d.directPressure)

/-- The pressure of a kind after a handle. -/
def raisedPressure (d : ThreadData H) (k : PressureKind) (p : Fx) : Fx :=
  climbAccumulate (d.pressure k) (scaledPressure d k p) fxOne

/-- A handle of the right kind raises the pressure, unless it adds nothing. -/
theorem applyHandlePressures_eq (d : ThreadData H) (ch : Handle T) (hk : ch.kind = kindOf self) :
    applyHandlePressures d ch self =
      if raisedPressure d (kindOf self) ch.pressure - d.pressure (kindOf self) = 0#64 then
        .error .noPressure
      else .ok (d.setPressure (kindOf self) (raisedPressure d (kindOf self) ch.pressure),
        { ch with appliedPressureInternal :=
            raisedPressure d (kindOf self) ch.pressure - d.pressure (kindOf self) }) := by
  cases self with
  | true =>
    have hk : ch.kind = .direct := hk
    rw [applyHandlePressures, if_pos rfl, if_neg (not_not.mpr hk)]
    rfl
  | false =>
    have hk : ch.kind = .indirect := hk
    rw [applyHandlePressures, if_neg Bool.false_ne_true, if_neg (not_not.mpr hk)]
    rfl

/-! ### Sums over handles -/

section

variable {M : Type*} [AddCommMonoid M] {handle : H → Handle T} {l : List H}

/-- What the handles of a kind have added. -/
def handleSum (f : Fx → M) (handle : H → Handle T) (k : PressureKind) (l : List H) : M :=
  ((l.filter fun h => (handle h).kind = k).map fun h => f (handle h).appliedPressureInternal).sum

/-- The part of one handle. -/
def handlePart (f : Fx → M) (ch : Handle T) (k : PressureKind) : M :=
  if ch.kind = k then f ch.appliedPressureInternal else 0

theorem handleSum_perm (f : Fx → M) (k : PressureKind) {l' : List H} (h : l.Perm l') :
    handleSum f handle k l = handleSum f handle k l' :=
  ((h.filter _).map _).sum_eq

theorem handleSum_cons (f : Fx → M) (handle : H → Handle T) (k : PressureKind) (x : H)
    (l : List H) :
    handleSum f handle k (x :: l) = handlePart f (handle x) k + handleSum f handle k l := by
  unfold handleSum handlePart
  by_cases hk : (handle x).kind = k
  · simp [hk]
  · simp [hk]

/-- Only the members of a list count for its sum. -/
theorem handleSum_update [DecidableEq H] (f : Fx → M) {x : H} {ch : Handle T} {k : PressureKind}
    (hx : x ∉ l) : handleSum f (update handle x ch) k l = handleSum f handle k l := by
  induction l with
  | nil => rfl
  | cons y l ih =>
    obtain ⟨hy, hl⟩ := not_or.mp fun hc => hx (mem_cons.mpr hc)
    rw [handleSum_cons, handleSum_cons, ih hl, update_of_ne (Ne.symm hy)]

/-- The pressures are what the handles have added. -/
def SumOk (f : Fx → M) (s : Sys T H C) : Prop :=
  ∀ t k, f ((s.data t).pressure k) = handleSum f s.handle k (s.data t).handles

end

/-! ### The invariant -/

/-- Handles are linked, and have added pressure, exactly while they are attached. -/
structure HandleInv (s : Sys T H C) : Prop where
  attached : ∀ t h, h ∈ (s.data t).handles ↔ (s.handle h).givenTo = some t
  nodup : ∀ t, (s.data t).handles.Nodup
  linked : ∀ h, (s.handle h).linked = true ↔ (s.handle h).givenTo ≠ none
  applied : ∀ h, (s.handle h).appliedPressureInternal ≠ 0#64 ↔ (s.handle h).givenTo ≠ none

theorem HandleInv.init (kind : H → PressureKind) (cpu : T → C) :
    HandleInv (Sys.init kind cpu) where
  attached := by simp [Sys.init]
  nodup _ := nodup_nil
  linked := by simp [Sys.init]
  applied := by simp [Sys.init]

theorem SumOk.init [AddCommMonoid M] {f : Fx → M} (hf : f 0#64 = 0) (kind : H → PressureKind)
    (cpu : T → C) : SumOk f (Sys.init kind cpu) := by
  intro t k
  cases k <;> exact hf

theorem SamePressure.pressure {s' : Sys T H C} (h : SamePressure s s') (t : T) (k : PressureKind) :
    (s'.data t).pressure k = (s.data t).pressure k := by
  cases k with
  | direct => exact h.direct t
  | indirect => exact h.indirect t

theorem HandleInv.congr {s' : Sys T H C} (h : HandleInv s) (hsame : SamePressure s s') :
    HandleInv s' where
  attached t x := by rw [hsame.handles, hsame.handle, h.attached]
  nodup t := by rw [hsame.handles]; exact h.nodup t
  linked := by rw [hsame.handle]; exact h.linked
  applied := by rw [hsame.handle]; exact h.applied

theorem SumOk.congr [AddCommMonoid M] {f : Fx → M} {s' : Sys T H C} (h : SumOk f s)
    (hsame : SamePressure s s') : SumOk f s' := by
  intro t k
  rw [hsame.pressure, hsame.handles, hsame.handle, h]

theorem HandleInv.notMem (h : HandleInv s) (hx : (s.handle x).givenTo = none) (t : T) :
    x ∉ (s.data t).handles := by
  intro hin
  rw [h.attached, hx] at hin
  cases hin

theorem HandleInv.notMem_of_ne (h : HandleInv s) {u : T} (hx : (s.handle x).givenTo = some t)
    (hut : u ≠ t) : x ∉ (s.data u).handles := by
  intro hin
  rw [h.attached, hx] at hin
  exact hut (Option.some.inj hin).symm

/-- The sum of a thread is the part of a handle and the rest. -/
theorem SumOk.split [DecidableEq H] [AddCommMonoid M] {f : Fx → M} (h : SumOk f s)
    (hinv : HandleInv s) (hx : (s.handle x).givenTo = some t) (k : PressureKind) :
    f ((s.data t).pressure k) =
      handlePart f (s.handle x) k + handleSum f s.handle k ((s.data t).handles.erase x) := by
  rw [h, handleSum_perm f k (perm_cons_erase ((hinv.attached t x).mpr hx)), handleSum_cons]

theorem TreeInv.setHandle [DecidableEq H] (h : TreeInv s) (x : H) (ch : Handle T) :
    TreeInv (s.setHandle x ch) :=
  ⟨h.mem, h.nodup, h.periods⟩

theorem removeHandle_frame [DecidableEq H] (d : ThreadData H) (x : H) (ch : Handle T) :
    (removeHandle d x ch).handles = d.handles.erase x ∧
      (removeHandle d x ch).onClimbTree = d.onClimbTree ∧
      (removeHandle d x ch).pressurePeriods =
        (if d.handles.erase x = [] ∧ d.onClimbTree then -1 else d.pressurePeriods) ∧
      (removeHandle d x ch).boostEwma = d.boostEwma := by
  have hrange :
      -2 ^ 31 ≤ (if d.handles.erase x = [] ∧ d.onClimbTree then -1 else d.pressurePeriods) ∧
      (if d.handles.erase x = [] ∧ d.onClimbTree then -1 else d.pressurePeriods) < 2 ^ 31 := by
    have := d.isInt32
    split <;> omega
  unfold removeHandle
  cases ch.kind <;> exact ⟨rfl, rfl, d.setPeriods_eq hrange, rfl⟩

/-- The words of the pressures after a removal. -/
theorem removeHandle_pressure [DecidableEq H] (d : ThreadData H) (x : H) (ch : Handle T)
    (k : PressureKind) : (removeHandle d x ch).pressure k + handlePart id ch k = d.pressure k := by
  unfold handlePart removeHandle
  cases ch.kind <;> cases k <;> simp [ThreadData.pressure, ThreadData.setPeriods]

/-- What an applied handle does to the data of the thread. -/
def appliedData (s : Sys T H C) (t : T) (x : H) (self : Bool) (p : Fx) : ThreadData H :=
  ((s.data t).pushBack x).setPressure (kindOf self) (raisedPressure (s.data t) (kindOf self) p)

theorem appliedData_frame (s : Sys T H C) (t : T) (x : H) (self : Bool) (p : Fx) :
    (appliedData s t x self p).handles = (s.data t).handles ++ [x] ∧
      (appliedData s t x self p).onClimbTree = (s.data t).onClimbTree ∧
      (appliedData s t x self p).pressurePeriods = (s.data t).pressurePeriods := by
  cases self <;> exact ⟨rfl, rfl, rfl⟩

theorem appliedData_pressure (s : Sys T H C) (t : T) (x : H) (self : Bool) (p : Fx)
    (k : PressureKind) : (appliedData s t x self p).pressure k =
      if kindOf self = k then raisedPressure (s.data t) (kindOf self) p
      else (s.data t).pressure k := by
  cases self <;> cases k <;> rfl

variable [DecidableEq T] [DecidableEq H] {d : ThreadData H} {ch : Handle T}

/-- One handle changes, in the list of one thread. -/
theorem HandleInv.change (h : HandleInv s) (hnodup : d.handles.Nodup)
    (hd : ∀ y, y ≠ x → (y ∈ d.handles ↔ y ∈ (s.data t).handles))
    (hx : x ∈ d.handles ↔ ch.givenTo = some t)
    (hother : ∀ u, u ≠ t → x ∉ (s.data u).handles ∧ ch.givenTo ≠ some u)
    (hl : ch.linked = true ↔ ch.givenTo ≠ none)
    (ha : ch.appliedPressureInternal ≠ 0#64 ↔ ch.givenTo ≠ none) :
    HandleInv ((s.setData t d).setHandle x ch) := by
  refine ⟨fun u y => ?_, ?_, ?_, ?_⟩
  · by_cases hut : u = t
    · subst hut
      by_cases hy : y = x
      · subst hy
        simpa [setHandle, setData] using hx
      · simp [setHandle, setData, hy, hd y hy, h.attached]
    · by_cases hy : y = x
      · subst hy
        simp [setHandle, setData, hut, hother u hut]
      · simp [setHandle, setData, hut, hy, h.attached]
  · exact (forall_update_iff s.data fun _ e => e.handles.Nodup).mpr ⟨hnodup, fun u _ => h.nodup u⟩
  · exact (forall_update_iff s.handle fun _ c => c.linked = true ↔ c.givenTo ≠ none).mpr
      ⟨hl, fun y _ => h.linked y⟩
  · exact (forall_update_iff s.handle fun _ c => c.appliedPressureInternal ≠ 0#64 ↔
      c.givenTo ≠ none).mpr ⟨ha, fun y _ => h.applied y⟩

/-- A handle is attached to a thread. -/
theorem HandleInv.attach (h : HandleInv s) (hx : (s.handle x).givenTo = none)
    (hg : ch.givenTo = some t) (hl : ch.linked = true) (ha : ch.appliedPressureInternal ≠ 0#64)
    (hh : d.handles = (s.data t).handles ++ [x]) : HandleInv ((s.setData t d).setHandle x ch) := by
  refine h.change ?_ (fun y hy => by simp [hh, hy]) (by simp [hh, hg])
    (fun u hu => ⟨h.notMem hx u, by simp [hg, Ne.symm hu]⟩) (by simp [hl, hg]) (by simp [ha, hg])
  rw [hh]
  exact (h.nodup t).append (nodup_singleton x) (by simpa using h.notMem hx t)

/-- The handle raises the pressure of its kind by what it remembers. -/
theorem SumOk.attach [AddCommMonoid M] {f : Fx → M} (h : SumOk f s) (hinv : HandleInv s)
    (hx : (s.handle x).givenTo = none) (hh : d.handles = (s.data t).handles ++ [x])
    (hp : ∀ k, f (d.pressure k) = f ((s.data t).pressure k) + handlePart f ch k) :
    SumOk f ((s.setData t d).setHandle x ch) := by
  intro u k
  by_cases hut : u = t
  · subst hut
    simp only [setHandle, setData, update_self, hh]
    rw [handleSum_perm f k (perm_append_singleton x _), handleSum_cons,
      handleSum_update f (hinv.notMem hx u), update_self, hp, h, add_comm]
  · simp only [setHandle, setData, update_of_ne hut]
    rw [handleSum_update f (hinv.notMem hx u), h]

/-- A handle is taken off. -/
theorem HandleInv.detach (h : HandleInv s) (hx : (s.handle x).givenTo = some t)
    (hg : ch.givenTo = none) (hl : ch.linked = false) (ha : ch.appliedPressureInternal = 0#64)
    (hh : d.handles = (s.data t).handles.erase x) : HandleInv ((s.setData t d).setHandle x ch) := by
  refine h.change (hh ▸ (h.nodup t).erase x) (fun y hy => by rw [hh, mem_erase_of_ne hy]) ?_
    (fun u hu => ⟨h.notMem_of_ne hx hu, by simp [hg]⟩) (by simp [hl, hg]) (by simp [ha, hg])
  simpa [hh, hg] using (h.nodup t).not_mem_erase

/-- With the handle goes what it remembers. -/
theorem SumOk.detach [AddCancelCommMonoid M] {f : Fx → M} (h : SumOk f s) (hinv : HandleInv s)
    (hx : (s.handle x).givenTo = some t) (hh : d.handles = (s.data t).handles.erase x)
    (hp : ∀ k, f (d.pressure k) + handlePart f (s.handle x) k = f ((s.data t).pressure k)) :
    SumOk f ((s.setData t d).setHandle x ch) := by
  intro u k
  by_cases hut : u = t
  · subst hut
    have hsplit := h.split hinv hx k
    rw [← hp k, add_comm] at hsplit
    simp only [setHandle, setData, update_self, hh]
    rw [handleSum_update f (hinv.nodup u).not_mem_erase]
    exact add_left_cancel hsplit
  · simp only [setHandle, setData, update_of_ne hut]
    rw [handleSum_update f (hinv.notMem_of_ne hx hut), h]

/-! ### Steps -/

/-- A removal has nothing to do, or the handle is taken off the thread that has it. -/
theorem HandleInv.remove_cases (h : HandleInv s) (x : H) :
    ((s.handle x).givenTo = none ∧ climbHandleRemove s x = .ok s) ∨
    ∃ t ch, (s.handle x).givenTo = some t ∧ ch.givenTo = none ∧ ch.linked = false ∧
      ch.appliedPressureInternal = 0#64 ∧
      climbHandleRemove s x =
        .ok ((s.setData t (removeHandle (s.data t) x (s.handle x))).setHandle x ch) := by
  unfold climbHandleRemove
  by_cases hzero : (s.handle x).appliedPressureInternal = 0#64
  · have hnone : (s.handle x).givenTo = none := by
      by_contra hne
      exact (h.applied x).mpr hne hzero
    have hunlinked : ¬ (s.handle x).linked = true := fun hl => (h.linked x).mp hl hnone
    rw [if_pos hzero, if_neg hunlinked]
    exact .inl ⟨hnone, rfl⟩
  · rw [if_neg hzero]
    obtain ⟨t, ht⟩ := Option.ne_none_iff_exists'.mp ((h.applied x).mp hzero)
    simp only [ht]
    exact .inr ⟨t, _, rfl, rfl, rfl, rfl, rfl⟩

/-- The tree after a removal: the thread keeps its place. -/
theorem TreeInv.removeHandle (h : TreeInv s) (t : T) (x : H) (ch ch' : Handle T) :
    TreeInv ((s.setData t (removeHandle (s.data t) x ch)).setHandle x ch') := by
  obtain ⟨-, hflag, hperiods, -⟩ := removeHandle_frame (s.data t) x ch
  refine (h.setData t hflag ?_).setHandle x _
  rw [hperiods]
  split
  · next hc =>
    have hp := (h.periods t).mp hc.2
    simp [hp]
  · exact Iff.rfl

variable [DecidableEq C]

/-- A handle is applied only while it is not attached, and it has the kind that goes with who
applies it. -/
def Act.Allowed (s : Sys T H C) : Act T H C → Prop
  | .apply _ h self _ _ => (s.handle h).givenTo = none ∧ (s.handle h).kind = kindOf self
  | _ => True

/-- What `climb_handle_apply` comes to before the tree: a failed check, or a raised pressure. -/
theorem HandleInv.apply_cases (h : HandleInv s) {origin : Origin T} {pos : ℕ}
    (hallowed : (Act.apply t x self origin pos).Allowed s) :
    (raisedPressure (s.data t) (kindOf self) (origin.pressure s) -
        (s.data t).pressure (kindOf self) = 0#64 ∧
      climbStep s (.apply t x self origin pos) = some (.error .noPressure)) ∨
    ∃ ch, ch.givenTo = some t ∧ ch.linked = true ∧ ch.appliedPressureInternal ≠ 0#64 ∧
      ch.kind = kindOf self ∧
      ch.appliedPressureInternal = raisedPressure (s.data t) (kindOf self) (origin.pressure s) -
        (s.data t).pressure (kindOf self) ∧
      climbStep s (.apply t x self origin pos) =
        enterTree ((s.setData t (appliedData s t x self (origin.pressure s))).setHandle x ch)
          t pos := by
  obtain ⟨hnone, hkind⟩ := hallowed
  have hunlinked : (s.handle x).linked = false := by
    by_contra hl
    exact (h.linked x).mp (by simpa using hl) hnone
  have heq := applyHandlePressures_eq ((s.data t).pushBack x)
    ((s.handle x).setPressure (origin.pressure s)).link hkind
  have hold : ((s.data t).pushBack x).pressure (kindOf self) =
      (s.data t).pressure (kindOf self) := by
    cases self <;> rfl
  have hraised : raisedPressure ((s.data t).pushBack x) (kindOf self)
      ((s.handle x).setPressure (origin.pressure s)).link.pressure =
      raisedPressure (s.data t) (kindOf self) (origin.pressure s) := by
    cases self <;> rfl
  rw [hold, hraised] at heq
  have hsys : ∀ (c c' : Handle T) (d : ThreadData H),
      ((s.setHandle x c).setData t d).setHandle x c' = (s.setData t d).setHandle x c' := by
    intro c c' d
    simp [setHandle, setData]
  have hself : (s.setHandle x ((s.handle x).setPressure (origin.pressure s))).handle x =
      (s.handle x).setPressure (origin.pressure s) := update_self ..
  have hlinked : ¬ ((s.handle x).setPressure (origin.pressure s)).linked = true := by
    simpa [Handle.setPressure] using hunlinked
  have hdata : (s.setHandle x ((s.handle x).setPressure (origin.pressure s))).data t =
      s.data t := rfl
  rw [climbStep, climbHandleApply, hself, if_neg hlinked, hdata, heq]
  by_cases hz : raisedPressure (s.data t) (kindOf self) (origin.pressure s) -
      (s.data t).pressure (kindOf self) = 0#64
  · exact .inl ⟨hz, by rw [if_pos hz]⟩
  rw [if_neg hz]
  refine .inr ⟨Handle.giveTo { ((s.handle x).setPressure (origin.pressure s)).link with
    appliedPressureInternal := raisedPressure (s.data t) (kindOf self) (origin.pressure s) -
      (s.data t).pressure (kindOf self) } t, rfl, rfl, hz, hkind, rfl, ?_⟩
  exact congrArg (enterTree · t pos) (hsys _ _ _)

end Charmos.Climb
