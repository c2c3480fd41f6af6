import Charmos.Sched.ClimbTree
import Charmos.Sched.ClimbPressure

/-!
# Runs of the CLIMB framework: order and budget

In a run each tree has exactly the threads of its CPU whose flag is set. It is sorted as long as
each step leaves the thread whose key it changes between its neighbours, and the boosts after a
period stay within the budget as long as the period finds no boost on a thread that it gives none.
Both conditions are exact, and fail in short runs (`climbRun_tree_unsorted`). The periods of a
thread are counted in 32 bits, and no count may wrap.

## Main definitions

* `TreeOk`, `BoostOk` : the trees in every state, and the boosts after a period.
* `OrderInv` : what holds in every run in which no count wraps.
* `Act.TreeSafe`, `Act.NoWrap` : the conditions of a step.

## Main results

* `OrderInv.step` : what one step does.
* `climbRun_tree_iff` : what holds in every run, and which steps keep it.
* `climbRun_tree_unsorted` : runs in which the conditions fail.
-/

namespace Charmos.Climb

open Except Function List Math Option Relation Sys

variable {T H C : Type} {s s' : Sys T H C} {t : T}

/-- The trees have the threads that they should have, in the order of their keys. -/
structure TreeOk (s : Sys T H C) : Prop where
  sorted : Sorted s
  mem : ∀ c t, t ∈ s.tree c ↔ (s.data t).onClimbTree = true ∧ s.cpu t = c
  nodup : ∀ c, (s.tree c).Nodup

/-- There was a budget left for the thread. -/
def HasShare (s : Sys T H C) (c : C) (t : T) : Prop :=
  ∃ l₁ l₂, s.tree c = l₁ ++ t :: l₂ ∧ wantedSum s.data l₂ < s.budget c

/-- The boosts on a CPU after a period. -/
structure BoostOk (s : Sys T H C) (c : C) : Prop where
  sum_le : ((s.tree c).map fun t => (s.data t).effectiveBoost).sum ≤ s.budget c
  zero : ∀ t, s.cpu t = c → ¬ HasShare s c t → (s.data t).effectiveBoost = 0

/-- What holds in every run in which no count of periods wraps: the trees and handles, and that a
thread that decays has no handles. -/
structure OrderInv (s : Sys T H C) : Prop where
  tree : TreeInv s
  handle : HandleInv s
  sum : SumOk id s
  decay : ∀ t, (s.data t).pressurePeriods < 0 → (s.data t).handles = []
  boosts : BoostsBounded s
  budget : ∀ c, 0 ≤ s.budget c

theorem OrderInv.init (kind : H → PressureKind) (cpu : T → C) : OrderInv (init kind cpu) where
  tree := TreeInv.init kind cpu
  handle := HandleInv.init kind cpu
  sum := SumOk.init rfl kind cpu
  decay _ _ := rfl
  boosts _ := Nat.zero_le _
  budget _ := le_rfl

/-- A thread that decays is under no pressure. -/
theorem OrderInv.pressure_eq_zero (h : OrderInv s) (ht : (s.data t).pressurePeriods < 0)
    (k : PressureKind) : (s.data t).pressure k = 0#64 := by
  have hsum := h.sum t k
  rw [h.decay t ht] at hsum
  exact hsum

theorem OrderInv.congr (h : OrderInv s) (hsame : SamePressure s s') (htree : TreeInv s')
    (hperiods : ∀ t, (s'.data t).pressurePeriods < 0 → (s.data t).pressurePeriods < 0)
    (hboosts : BoostsBounded s') (hbudget : ∀ c, 0 ≤ s'.budget c) : OrderInv s' where
  tree := htree
  handle := h.handle.congr hsame
  sum := h.sum.congr hsame
  decay t ht := by
    rw [hsame.handles]
    exact h.decay t (hperiods t ht)
  boosts := hboosts
  budget := hbudget

theorem periodData_pressurePeriods_neg {d : ThreadData H} {n : ℕ}
    (hwrap : d.pressurePeriods ≠ 2 ^ 31 - 1) (h : (periodData d n).1.pressurePeriods < 0) :
    d.pressurePeriods ≤ 0 := by
  by_contra hpos
  have hp : 0 < d.pressurePeriods := not_le.mp hpos
  have hrange := d.isInt32
  have hstored : (periodData d n).1.pressurePeriods = d.pressurePeriods + 1 := by
    unfold periodData advance
    rw [if_pos (show 0 < (updateFields d).pressurePeriods from hp)]
    exact (updateFields d).setPeriods_eq (p := d.pressurePeriods + 1) (by omega)
  omega

theorem OrderInv.treeOk (h : OrderInv s) : TreeOk s ↔ Sorted s :=
  ⟨TreeOk.sorted, fun hs => ⟨hs, h.tree.mem, h.tree.nodup⟩⟩

variable [DecidableEq T] [DecidableEq H] [DecidableEq C] {pos : ℕ} {x : H} {c : C}

omit [DecidableEq H] [DecidableEq C] in
theorem BoostsBounded.setData {d : ThreadData H} (h : BoostsBounded s)
    (hd : d.boostEwma = (s.data t).boostEwma) : BoostsBounded (s.setData t d) :=
  (forall_update_iff s.data fun _ e => e.boostEwma.toNat ≤ 20 * 2 ^ 32).mpr
    ⟨hd ▸ h t, fun u _ => h u⟩

/-! ### Steps -/

/-- The condition of a step. A thread that is under pressure, or that loses a handle, must still be
between its neighbours in the tree with its new key; a period must keep the order of the threads
that have decayed, and must not find a boost on a thread that gets no share of its budget. -/
def Act.TreeSafe (s : Sys T H C) : Act T H C → Prop
  | .apply t x self origin _ =>
    0 < (s.data t).pressurePeriods →
      rbtPositionValid (s.setData t (appliedData s t x self (origin.pressure s))).key
        (s.tree (s.cpu t)) t = true
  | .remove x =>
    ∀ t, (s.handle x).givenTo = some t → t ∈ s.tree (s.cpu t) →
      rbtPositionValid (s.setData t (removeHandle (s.data t) x (s.handle x))).key
        (s.tree (s.cpu t)) t = true
  | .period c =>
    OrderKept s c ∧ ∀ t, s.cpu t = c → ¬ GetsShare s c t → (s.data t).effectiveBoost = 0
  | _ => True

/-- A period finds no count of periods at the maximum of an `int32_t`. -/
def Act.NoWrap (s : Sys T H C) : Act T H C → Prop
  | .period c => ∀ t ∈ s.tree c, (s.data t).pressurePeriods ≠ 2 ^ 31 - 1
  | _ => True

theorem OrderInv.apply (h : OrderInv s) {self : Bool} {origin : Origin T}
    (hallowed : (Act.apply t x self origin pos).Allowed s)
    (hstep : climbStep s (.apply t x self origin pos) = some (.ok s')) :
    OrderInv s' ∧ (Sorted s → ((Act.apply t x self origin pos).TreeSafe s ↔ Sorted s')) := by
  rcases h.handle.apply_cases hallowed with ⟨-, herr⟩ | ⟨ch, hg, hl, ha, hkind, happ, heq⟩
  · rw [herr] at hstep
    simp at hstep
  obtain ⟨hhandles, hflag, hperiods⟩ := appliedData_frame s t x self (origin.pressure s)
  have hpressure := appliedData_pressure s t x self (origin.pressure s)
  have hewma : (appliedData s t x self (origin.pressure s)).boostEwma =
      (s.data t).boostEwma := by
    cases self <;> rfl
  have htree : TreeInv
      ((s.setData t (appliedData s t x self (origin.pressure s))).setHandle x ch) :=
    (h.tree.setData t hflag (by rw [hperiods])).setHandle x ch
  have hsum : SumOk id
      ((s.setData t (appliedData s t x self (origin.pressure s))).setHandle x ch) := by
    refine h.sum.attach h.handle hallowed.1 hhandles fun k => ?_
    rw [hpressure, handlePart, hkind]
    split
    · next hk => simp [happ, hk]
    · simp
  rw [heq] at hstep
  have hdata : ∀ u, u ≠ t →
      ((s.setData t (appliedData s t x self (origin.pressure s))).setHandle x ch).data u =
        s.data u :=
    fun u hu => update_of_ne hu _ _
  have hself :
      ((s.setData t (appliedData s t x self (origin.pressure s))).setHandle x ch).data t =
        appliedData s t x self (origin.pressure s) :=
    update_self ..
  obtain ⟨hpos, hboost, hothers, hbudget⟩ := enterTree_data htree hstep
  rw [hself] at hboost
  constructor
  · obtain ⟨htree', hsame⟩ := htree.enterTree hstep
    refine ⟨htree', (h.handle.attach hallowed.1 hg hl ha hhandles).congr hsame,
      hsum.congr hsame, fun u hu => ?_, fun u => ?_, fun c => ?_⟩
    · have hut : u ≠ t := by
        rintro rfl
        omega
      rw [hothers u hut, hdata u hut] at hu ⊢
      exact h.decay u hu
    · by_cases hut : u = t
      · rw [hut, hboost, hewma]
        exact h.boosts t
      · rw [hothers u hut, hdata u hut]
        exact h.boosts u
    · rw [hbudget]
      exact h.budget c
  · intro hsorted
    have hrest := hsorted.erase h.tree t (appliedData s t x self (origin.pressure s))
    have := enterTree_sorted_iff htree hrest hstep
    rw [hself, hperiods] at this
    exact this.symm

omit [DecidableEq C] in
theorem OrderInv.remove (h : OrderInv s) (hstep : climbHandleRemove s x = .ok s') :
    OrderInv s' ∧ (Sorted s → ((Act.remove x).TreeSafe s ↔ Sorted s')) := by
  rcases h.handle.remove_cases x with ⟨hnone, hs⟩ | ⟨t, ch, ht, hg, hl, ha, hs⟩
  · obtain rfl := ok.inj (hs.symm.trans hstep)
    refine ⟨h, fun hsorted => ⟨fun _ => hsorted, fun _ t ht => ?_⟩⟩
    rw [hnone] at ht
    cases ht
  obtain rfl := ok.inj (hs.symm.trans hstep)
  obtain ⟨hhandles, -, hperiods, hewma⟩ := removeHandle_frame (s.data t) x (s.handle x)
  refine ⟨⟨h.tree.removeHandle t x _ _, h.handle.detach ht hg hl ha hhandles,
    h.sum.detach h.handle ht hhandles (removeHandle_pressure _ _ _), ?_, h.boosts.setData hewma,
    h.budget⟩, fun hsorted => ?_⟩
  · refine (forall_update_iff s.data fun _ e => e.pressurePeriods < 0 → e.handles = []).mpr
      ⟨fun hu => ?_, fun u _ => h.decay u⟩
    rw [hhandles]
    rw [hperiods] at hu
    split at hu
    · next hc => exact hc.1
    · rw [h.decay t hu, erase_nil]
  · refine Iff.trans ⟨fun hsafe => hsafe t ht, fun hvalid u hu => ?_⟩
      (hsorted.setData_iff h.tree t (removeHandle (s.data t) x (s.handle x))).symm
    obtain rfl := some.inj (ht.symm.trans hu)
    exact hvalid

section

omit [DecidableEq H]

theorem OrderInv.threadRemove (h : OrderInv s) (t : T) : OrderInv (climbThreadRemove s t) := by
  obtain ⟨htree, hsame⟩ := h.tree.climbThreadRemove t
  unfold climbThreadRemove at htree hsame ⊢
  split at htree
  · next hin =>
    rw [if_pos hin] at hsame ⊢
    refine h.congr hsame htree ?_ (h.boosts.setData rfl) h.budget
    exact (forall_update_iff s.data fun u e =>
      e.pressurePeriods < 0 → (s.data u).pressurePeriods < 0).mpr
      ⟨fun hc => absurd hc (lt_irrefl 0), fun _ _ hu => hu⟩
  · next hout =>
    rw [if_neg hout]
    exact h

theorem OrderInv.migrate (h : OrderInv s) {new : C} (hstep : migrate s t new pos = some (.ok s')) :
    OrderInv s' := by
  obtain ⟨htree, hsame⟩ := h.tree.migrate hstep
  have hframe : s'.data = s.data ∧ s'.budget = s.budget := by
    rcases (h.tree.migrate_cases t new pos).of_eq hstep with rfl | ⟨-, rfl⟩ | ⟨-, -, l, -, rfl⟩ <;>
      exact ⟨rfl, rfl⟩
  refine h.congr hsame htree (fun u hu => ?_) (fun u => ?_) fun c => ?_
  · rwa [hframe.1] at hu
  · rw [hframe.1]
    exact h.boosts u
  · rw [hframe.2]
    exact h.budget c

end

omit [DecidableEq T] [DecidableEq H] in
/-- After a period a thread has a share if and only if it gets one. -/
theorem PeriodStep.hasShare_iff (h : PeriodStep s s' c) (t : T) :
    HasShare s' c t ↔ GetsShare s c t := by
  have hsub := staying_sublist s.data (s.tree c) 0
  unfold HasShare GetsShare
  rw [h.tree, h.budget, update_self, update_self]
  refine exists_congr fun l₁ => exists_congr fun l₂ => and_congr_right fun hl => ?_
  have hsum : wantedSum s'.data l₂ = (l₂.map (nextWanted s)).sum := by
    refine congrArg List.sum (map_congr_left fun u hu => ?_)
    have hin : u ∈ s.tree c := hsub.subset (by rw [hl]; simp [hu])
    obtain ⟨k₁, k₂, hk⟩ := append_of_mem hin
    rw [h.data k₁ u k₂ hk]
    exact (periodData_wantedBoost _ _).1
  rw [hsum]

theorem OrderInv.period (h : OrderInv s) (hwrap : (Act.period c : Act T H C).NoWrap s)
    (hstep : climbPerPeriodHook s c = .ok s') :
    OrderInv s' ∧ (Sorted s → ((Act.period c).TreeSafe s ↔ Sorted s' ∧ BoostOk s' c)) := by
  by_cases hnil : s.tree c = []
  · rw [climbPerPeriodHook, if_pos hnil] at hstep
    obtain ⟨⟩ := hstep
    have hshare : ∀ t, ¬ HasShare s c t ∧ ¬ GetsShare s c t := by
      intro t
      constructor
      · rintro ⟨l₁, l₂, hl, -⟩
        simp [hnil] at hl
      · rintro ⟨l₁, l₂, hl, -⟩
        simp [hnil, staying] at hl
    refine ⟨h, fun hsorted => ⟨fun hsafe => ⟨hsorted, ?_, fun t ht _ => ?_⟩, fun hok => ⟨?_, ?_⟩⟩⟩
    · rw [hnil]
      exact h.budget c
    · exact hsafe.2 t ht (hshare t).2
    · intro l₁ t l₂ hl
      simp [hnil] at hl
    · exact fun t ht _ => hok.2.zero t ht (hshare t).1
  · obtain ⟨s'', hs'', htree, hsame⟩ := h.tree.climbPerPeriodHook c
    obtain rfl := ok.inj (hs''.symm.trans hstep)
    have hperiod := periodStep h.tree h.boosts hnil hstep
    have hdata : ∀ t ∈ s.tree c, ∃ n e,
        s''.data t = { (periodData (s.data t) n).1 with effectiveBoost := e } := by
      intro t ht
      obtain ⟨l₁, l₂, hl⟩ := append_of_mem ht
      exact ⟨_, _, hperiod.data l₁ t l₂ hl⟩
    constructor
    · refine h.congr hsame htree (fun t ht => ?_) (fun t => ?_) fun c' => ?_
      · by_cases hin : t ∈ s.tree c
        · obtain ⟨n, e, hn⟩ := hdata t hin
          rw [hn] at ht
          have hle := periodData_pressurePeriods_neg (hwrap t hin) ht
          have hne := (h.tree.periods t).mp ((h.tree.mem c t).mp hin).1
          omega
        · rwa [hperiod.other t hin] at ht
      · by_cases hin : t ∈ s.tree c
        · obtain ⟨n, e, hn⟩ := hdata t hin
          rw [hn]
          rw [(periodData_wantedBoost _ n).2.2]
          exact updateFields_boostEwma_le (h.boosts t)
        · rw [hperiod.other t hin]
          exact h.boosts t
      · rw [hperiod.budget]
        by_cases hc : c' = c
        · subst hc
          rw [update_self]
          exact (periodBudget_pos s c').le
        · rw [update_of_ne hc]
          exact h.budget c'
    · intro hsorted
      refine and_congr
        (hperiod.sorted_iff hsorted h.tree (fun t ht => h.pressure_eq_zero ht) hwrap).symm ?_
      have hbudget : s''.budget c = periodBudget s c := by
        rw [hperiod.budget, update_self]
      refine ⟨fun hzero => ⟨hbudget ▸ hperiod.sum_le hzero, fun t ht hshare => ?_⟩,
        fun hok t ht hshare => ?_⟩
      · rw [hperiod.hasShare_iff] at hshare
        rw [hperiod.cpu] at ht
        rw [hperiod.unreached t hshare]
        exact hzero t ht hshare
      · rw [← hperiod.unreached t hshare]
        exact hok.zero t (hperiod.cpu ▸ ht) fun hc => hshare ((hperiod.hasShare_iff t).mp hc)

/-- A step keeps the invariant if no count wraps. From sorted trees it then meets its condition if
and only if the trees are sorted after it and the boosts of a period are right. -/
theorem OrderInv.step (h : OrderInv s) {act : Act T H C} (hallowed : act.Allowed s)
    (hwrap : act.NoWrap s) (hstep : climbStep s act = some (.ok s')) :
    OrderInv s' ∧ (Sorted s →
      (act.TreeSafe s ↔ Sorted s' ∧ ∀ c, act = .period c → BoostOk s' c)) := by
  cases act with
  | apply t x self origin pos =>
    obtain ⟨h', hiff⟩ := h.apply hallowed hstep
    exact ⟨h', fun hs => (hiff hs).trans (by simp)⟩
  | remove x =>
    obtain ⟨h', hiff⟩ := h.remove (some.inj hstep)
    exact ⟨h', fun hs => (hiff hs).trans (by simp)⟩
  | threadRemove t =>
    obtain rfl := ok.inj (some.inj hstep)
    exact ⟨h.threadRemove t, fun hs =>
      ⟨fun _ => ⟨hs.climbThreadRemove h.tree t, by simp⟩, fun _ => trivial⟩⟩
  | migrate t new pos =>
    exact ⟨h.migrate hstep, fun hs => ⟨fun _ => ⟨hs.migrate h.tree hstep, by simp⟩,
      fun _ => trivial⟩⟩
  | period c =>
    obtain ⟨h', hiff⟩ := h.period hwrap (some.inj hstep)
    exact ⟨h', fun hs => (hiff hs).trans (by simp)⟩

/-! ### Runs -/

/-- A step that the callers may take and that meets its conditions. -/
def TreeSafeStep (s s' : Sys T H C) : Prop :=
  ∃ act, act.Allowed s ∧ act.NoWrap s ∧ act.TreeSafe s ∧ climbStep s act = some (.ok s')

theorem OrderInv.reachable {kind : H → PressureKind} {cpu : T → C}
    (hs : ReflTransGen TreeSafeStep (Sys.init kind cpu) s) : OrderInv s ∧ Sorted s := by
  induction hs with
  | refl => exact ⟨OrderInv.init kind cpu, fun _ => List.Pairwise.nil⟩
  | tail _ hstep ih =>
    obtain ⟨act, hallowed, hwrap, hsafe, hact⟩ := hstep
    obtain ⟨h', hiff⟩ := ih.1.step hallowed hwrap hact
    exact ⟨h', ((hiff ih.2).mp hsafe).1⟩

/-- In every run of steps that meet their conditions, each tree has exactly the threads of its CPU
whose flag is set, in the order of their keys. From every state of such a run, a step in which no
count wraps keeps this, and leaves boosts within the budget behind if it is a period, if and only if
it meets its condition. -/
theorem climbRun_tree_iff {kind : H → PressureKind} {cpu : T → C} {s : Sys T H C}
    (hs : ReflTransGen TreeSafeStep (init kind cpu) s) :
    TreeOk s ∧ ∀ (act : Act T H C) (s' : Sys T H C), act.Allowed s → act.NoWrap s →
      climbStep s act = some (.ok s') →
      (act.TreeSafe s ↔ TreeOk s' ∧ ∀ c, act = .period c → BoostOk s' c) := by
  obtain ⟨h, hsorted⟩ := OrderInv.reachable hs
  refine ⟨h.treeOk.mpr hsorted, fun act s' hallowed hwrap hstep => ?_⟩
  obtain ⟨h', hiff⟩ := h.step hallowed hwrap hstep
  rw [h'.treeOk]
  exact hiff hsorted

/-- The source of threads that wait for a lock. -/
def lockSource : Source := ⟨climbPressureLockBase, by decide, by decide⟩

/-- The action applies a handle, and the thread stays between its neighbours. -/
def Act.Placed (s : Sys T H C) : Act T H C → Prop
  | .apply t x self origin pos =>
    (Act.apply t x self origin pos).Allowed s ∧ (0 < (s.data t).pressurePeriods →
      rbtPositionValid (s.setData t (appliedData s t x self (origin.pressure s))).key
        (s.tree (s.cpu t)) t = true)
  | _ => False

instance (s : Sys T H C) : (act : Act T H C) → Decidable (act.Placed s)
  | .apply _ _ _ _ _ => inferInstanceAs (Decidable (_ ∧ (_ → _)))
  | .remove _ | .threadRemove _ | .migrate _ _ _ | .period _ => isFalse id

/-- Two threads apply handles to themselves, and the one behind applies another one. A period gives
it a boost. -/
theorem climbRun_tree_iff_two : ∃ s s' : Sys (Fin 2) (Fin 3) Unit,
    ReflTransGen TreeSafeStep (init (fun _ => .direct) fun _ => ()) s ∧
    climbStep s (.period ()) = some (.ok s') ∧ s'.tree () = [1, 0] ∧
    ((s'.data 1).effectiveBoost, (s'.data 0).effectiveBoost) = (0, 1) ∧
    TreeOk s' ∧ BoostOk s' () := by
  have hend : (trace Act.Placed (init (fun _ => .direct) fun _ => () : Sys (Fin 2) (Fin 3) Unit)
      [.apply 0 0 true (.source ioSource) 0, .apply 1 1 true (.source lockSource) 0,
        .apply 0 2 true (.source ioSource) 0]).map
        (fun s => (s.tree (),
          decide (∀ t, (s.data t).effectiveBoost = 0 ∧ (s.data t).pressurePeriods = 1),
          (climbPerPeriodHook s ()).toOption.map fun s' =>
            (s'.tree (), (s'.data 1).effectiveBoost, (s'.data 0).effectiveBoost))) =
      some ([1, 0], true, some ([1, 0], 0, 1)) := by
    decide +kernel
  obtain ⟨s, hs, hobs⟩ := map_eq_some_iff.mp hend
  simp only [Prod.mk.injEq, decide_eq_true_eq] at hobs
  obtain ⟨htree, hdata, hperiod⟩ := hobs
  have hrun : ReflTransGen TreeSafeStep (init (fun _ => .direct) fun _ => ()) s := by
    refine (trace_reachable _ hs).lift id fun s₁ s₂ hstep => ?_
    obtain ⟨act, hplaced, hact⟩ := hstep
    cases act with
    | apply t x self origin pos => exact ⟨_, hplaced.1, trivial, hplaced.2, hact⟩
    | remove _ | threadRemove _ | migrate _ _ _ | period _ => exact hplaced.elim
  have hwrap : (Act.period ()).NoWrap s := by
    intro t _
    rw [(hdata t).2]
    decide
  have hsafe : (Act.period ()).TreeSafe s := by
    refine ⟨fun l₁ t l₂ hl _ hfull => ?_, fun t _ _ => (hdata t).1⟩
    -- fewer threads are in the tree than a period may drop
    have hlen := congrArg List.length hl
    have hcount : l₁.countP (fun u => due (s.data u)) ≤ l₁.length := countP_le_length
    simp [htree, climbDropBatch] at hlen hfull
    omega
  cases hhook : climbPerPeriodHook s () with
  | error fault =>
    rw [hhook] at hperiod
    cases hperiod
  | ok s' =>
    rw [hhook] at hperiod
    obtain ⟨htree', hboosts⟩ := Prod.mk.inj (some.inj hperiod)
    have hstep : climbStep s (.period ()) = some (.ok s') := congrArg some hhook
    obtain ⟨htreeOk, hboost⟩ := ((climbRun_tree_iff hrun).2
      (.period ()) s' trivial hwrap hstep).mp hsafe
    exact ⟨s, s', hrun, hstep, htree', hboosts, htreeOk, hboost () rfl⟩

/-- The thread 1 has less pressure than the thread 0 and is before it in the tree. It stays there
when another handle gives it more pressure. And a thread that has had a boost takes off its handle:
it decays for some periods, and the last one drops it from the tree and leaves its boost. -/
theorem climbRun_tree_unsorted :
    (∃ s, ReflTransGen AllowedStep twoThreads s ∧ ¬ TreeOk s) ∧
    ∃ s s', ReflTransGen AllowedStep twoThreads s ∧
      climbStep s (.period ()) = some (.ok s') ∧ ¬ BoostOk s' () := by
  constructor
  · have hend : (trace (fun s act => act.Allowed s) twoThreads
        [.apply 0 0 true (.source ioSource) 0, .apply 1 1 true (.source lockSource) 0,
          .apply 1 2 true (.source ioSource) 0]).map
        (fun s => (s.tree (), decide (s.key 1 ≤ s.key 0))) = some ([1, 0], false) := by
      decide +kernel
    obtain ⟨s, hs, hobs⟩ := map_eq_some_iff.mp hend
    obtain ⟨htree, hkey⟩ := Prod.mk.inj hobs
    refine ⟨s, trace_reachable _ hs, fun hok => ?_⟩
    have hsorted := hok.sorted ()
    rw [htree] at hsorted
    exact of_decide_eq_false hkey ((pairwise_cons.mp hsorted).1 0 mem_cons_self)
  · have hend : (trace (fun s act => act.Allowed s) twoThreads
        ([.apply 0 0 true (.source ioSource) 0, .period (), .remove 0] ++
          List.replicate 5 (.period ()))).map
        (fun s => (climbPerPeriodHook s ()).toOption.map fun s' =>
          (s'.tree (), (s'.data 0).effectiveBoost)) = some (some ([], 1)) := by
      decide +kernel
    obtain ⟨s, hs, hobs⟩ := map_eq_some_iff.mp hend
    cases hhook : climbPerPeriodHook s () with
    | error fault =>
      rw [hhook] at hobs
      cases hobs
    | ok s' =>
      rw [hhook] at hobs
      obtain ⟨htree, hboost⟩ := Prod.mk.inj (some.inj hobs)
      refine ⟨s, s', trace_reachable _ hs, congrArg some hhook,
        fun hok => ?_⟩
      have hzero := hok.zero 0 rfl fun ⟨l₁, l₂, hl, _⟩ => by simp [htree] at hl
      rw [hboost] at hzero
      cases hzero

end Charmos.Climb
