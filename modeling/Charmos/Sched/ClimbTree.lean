import Charmos.Sched.ClimbPeriod
import Charmos.Lib.SortedBy

/-!
# The order of the CLIMB tree and the budget of a period

A handle changes the key of a thread while the thread is in the tree, and only a thread that was
decaying gets a new place. So the tree stays sorted as long as each such change leaves the thread
between its neighbours. A period moves all active threads up by one period and all decaying threads
down by one, which keeps the order, except for threads that should have left the tree and are left
there because too many have left it already.

A period gives boosts to the threads from the largest key on until the budget is used up. It does
not touch the boost of a thread that it does not reach, or that has left the tree.
-/

namespace Charmos.Climb

open Except Function List Math Option Sys

variable {T H C : Type} {pos : ℕ} {t : T} {d : ThreadData H} {key : T → ℤ} {l : List T}

/-! ### Keys -/

theorem fxClamp_nonneg (x hi : Fx) : 0 ≤ (fxClamp x 0#64 hi).toInt := by
  unfold fxClamp fxMax
  split
  · next hlt =>
    have := BitVec.slt_iff_toInt_lt.mp hlt
    exact le_of_lt (by simpa using this)
  · simp

theorem climbThreadTotalPressure_nonneg (d : ThreadData H) :
    0 ≤ (climbThreadTotalPressure d).toInt :=
  fxClamp_nonneg _ _

/-- The key of a thread without pressure. -/
theorem climbKey_eq (h : ∀ k, d.pressure k = 0#64) : climbKey d = d.pressurePeriods * 2 ^ 31 := by
  have hd : d.directPressure = 0#64 := h .direct
  have hi : d.indirectPressure = 0#64 := h .indirect
  have htotal : climbThreadTotalPressure d = 0#64 := by
    rw [climbThreadTotalPressure, hd, hi]
    decide
  rw [climbKey, htotal]
  simp

theorem climbKey_ge (h : 0 < d.pressurePeriods) : 2 ^ 31 ≤ climbKey d := by
  have := climbThreadTotalPressure_nonneg d
  unfold climbKey
  omega

/-! ### Places -/

theorem rbtInsert_sorted {l' : List T} (hl : SortedBy key l) (h : rbtInsert key l pos t = some l') :
    SortedBy key l' := by
  unfold rbtInsert at h
  split at h
  · next hfits =>
    obtain ⟨⟩ := h
    refine sortedBy_middle_iff.mpr ⟨by rwa [take_append_drop], fun x hx => ?_, fun x hx => ?_⟩
    · have := hfits.1
      rw [mem_def.mp hx] at this
      simpa using this
    · have := hfits.2
      rw [mem_def.mp hx] at this
      exact le_of_lt (by simpa using this)
  · cases h

variable [DecidableEq T] {s s' : Sys T H C} {new : C}

/-- The check of `rbt_reinsert` is right when the rest of the tree is sorted. -/
theorem rbtPositionValid_iff (hnodup : l.Nodup) (ht : t ∈ l) (hrest : SortedBy key (l.erase t)) :
    rbtPositionValid key l t = true ↔ SortedBy key l := by
  obtain ⟨l₁, l₂, rfl⟩ := append_of_mem ht
  have hnot : t ∉ l₁ := fun hin => (disjoint_of_nodup_append hnodup) hin mem_cons_self
  have hne : ∀ x ∈ l₁, decide (x ≠ t) = true :=
    fun x hx => decide_eq_true fun hc : x = t => hnot (hc ▸ hx)
  have htake : (l₁ ++ t :: l₂).takeWhile (· ≠ t) = l₁ := by
    rw [takeWhile_append_of_pos hne]
    simp
  have hdrop : (l₁ ++ t :: l₂).dropWhile (· ≠ t) = t :: l₂ := by
    rw [dropWhile_append_of_pos hne]
    simp
  rw [erase_append_right _ hnot, erase_cons_head] at hrest
  rw [sortedBy_middle_iff, and_iff_right hrest]
  unfold rbtPositionValid
  rw [htake, hdrop, decide_eq_true_iff]
  refine and_congr ?_ ?_
  · cases l₁.getLast? <;> simp
  · cases l₂ <;> simp

theorem rbtReinsert_sorted {l' : List T} (hnodup : l.Nodup) (ht : t ∈ l)
    (hrest : SortedBy key (l.erase t)) (h : rbtReinsert key l pos t = some l') :
    SortedBy key l' := by
  unfold rbtReinsert at h
  split at h
  · next hvalid =>
    obtain ⟨⟩ := h
    exact (rbtPositionValid_iff hnodup ht hrest).mp hvalid
  · exact rbtInsert_sorted hrest h

/-! ### One key changes -/

/-- All trees are sorted by the keys of their threads. -/
def Sorted (s : Sys T H C) : Prop :=
  ∀ c, SortedBy s.key (s.tree c)

theorem key_setData_of_ne (s : Sys T H C) {u : T} (d : ThreadData H) (hu : u ≠ t) :
    (s.setData t d).key u = s.key u := by
  simp [key, setData, hu]

omit [DecidableEq T] in
theorem key_setTree [DecidableEq C] (s : Sys T H C) (c : C) (l : List T) :
    (s.setTree c l).key = s.key :=
  rfl

/-- Without the thread, the trees are sorted as before. -/
theorem Sorted.erase (h : Sorted s) (htree : TreeInv s) (t : T) (d : ThreadData H) (c : C) :
    SortedBy (s.setData t d).key ((s.tree c).erase t) := by
  refine (sortedBy_congr fun u hu => ?_).mpr ((h c).sublist erase_sublist)
  exact key_setData_of_ne s d fun hc => (htree.nodup c).not_mem_erase (hc ▸ hu)

/-- A change of the key of one thread keeps the order if and only if the thread is still between its
neighbours, if it has any. -/
theorem Sorted.setData_iff (h : Sorted s) (htree : TreeInv s) (t : T) (d : ThreadData H) :
    Sorted (s.setData t d) ↔
      (t ∈ s.tree (s.cpu t) → rbtPositionValid (s.setData t d).key (s.tree (s.cpu t)) t = true) :=
      by
  constructor
  · intro hsorted ht
    exact (rbtPositionValid_iff (htree.nodup _) ht (h.erase htree t d _)).mpr (hsorted _)
  intro hvalid c
  by_cases ht : t ∈ s.tree c
  · obtain rfl := ((htree.mem c t).mp ht).2
    exact (rbtPositionValid_iff (htree.nodup _) ht (h.erase htree t d _)).mp (hvalid ht)
  · refine (sortedBy_congr fun u hu => ?_).mpr (h c)
    exact key_setData_of_ne s d fun hc => ht (hc ▸ hu)

/-- The periods of a thread after the last part of `apply_handle`, and the data of the others. -/
theorem enterTree_data [DecidableEq C] (htree : TreeInv s) (h : enterTree s t pos = some (.ok s')) :
    0 < (s'.data t).pressurePeriods ∧ (s'.data t).boostEwma = (s.data t).boostEwma ∧
      (∀ u, u ≠ t → s'.data u = s.data u) ∧ s'.budget = s.budget := by
  rcases (htree.enterTree_cases t pos).of_eq h with ⟨-, -, l, -, rfl⟩ | ⟨-, -, l, -, rfl⟩ |
    ⟨hpos, -, rfl⟩
  · refine ⟨?_, ?_, fun u hu => ?_, rfl⟩ <;> simp [setData, setTree, ThreadData.setPeriods, *]
  · refine ⟨?_, ?_, fun u hu => ?_, rfl⟩ <;> simp [setData, setTree, ThreadData.setPeriods, *]
  · exact ⟨hpos, rfl, fun _ _ => rfl, rfl⟩

/-- After the last part of `apply_handle` the trees are sorted, if those without the thread were; a
thread that was under pressure before must still be between its neighbours. -/
theorem enterTree_sorted_iff [DecidableEq C] (htree : TreeInv s)
    (hrest : ∀ c, SortedBy s.key ((s.tree c).erase t)) (h : enterTree s t pos = some (.ok s')) :
    Sorted s' ↔ (0 < (s.data t).pressurePeriods →
      rbtPositionValid s.key (s.tree (s.cpu t)) t = true) := by
  have hother : ∀ c, c ≠ s.cpu t → t ∉ s.tree c :=
    fun c hc hin => hc ((htree.mem c t).mp hin).2.symm
  -- the keys of the others do not change
  have hsorted : ∀ (d : ThreadData H) c, SortedBy (s.setData t d).key ((s.tree c).erase t) := by
    intro d c
    refine (sortedBy_congr fun u hu => key_setData_of_ne s d ?_).mpr (hrest c)
    exact fun hc => (htree.nodup c).not_mem_erase (hc ▸ hu)
  have hfar : ∀ (d : ThreadData H) c, c ≠ s.cpu t → SortedBy (s.setData t d).key (s.tree c) := by
    intro d c hc
    have := hsorted d c
    rwa [erase_of_not_mem (hother c hc)] at this
  rcases (htree.enterTree_cases t pos).of_eq h with ⟨hzero, hoff, l, hl, rfl⟩ |
    ⟨hneg, hmem, l, hl, rfl⟩ | ⟨hpos, hmem, rfl⟩
  · refine ⟨fun _ hc => by omega, fun _ c => ?_⟩
    have hkey : ((s.setTree (s.cpu t) l).setData t
        { (s.data t).setPeriods 1 with onClimbTree := true }).key =
        (s.setData t ((s.data t).setPeriods 1)).key := by
      funext u
      by_cases hu : u = t
      · subst hu
        simp [key, setData, climbKey, climbThreadTotalPressure]
      · simp [key, setData, setTree, hu]
    rw [hkey]
    have hnot : t ∉ s.tree (s.cpu t) := by
      intro hin
      have := ((htree.mem _ t).mp hin).1
      simp [hoff] at this
    by_cases hc : c = s.cpu t
    · subst hc
      have hall := hsorted ((s.data t).setPeriods 1) (s.cpu t)
      rw [erase_of_not_mem hnot] at hall
      simpa [setData, setTree] using rbtInsert_sorted hall hl
    · simpa [setData, setTree, hc] using hfar ((s.data t).setPeriods 1) c hc
  · refine ⟨fun _ hc => by omega, fun _ c => ?_⟩
    by_cases hc : c = s.cpu t
    · subst hc
      have := rbtReinsert_sorted (htree.nodup _) hmem (hsorted _ _) hl
      rw [key_setTree]
      simpa [setTree] using this
    · have := hfar ((s.data t).setPeriods 1) c hc
      rw [key_setTree]
      simpa [setTree, setData, hc] using this
  · rw [rbtPositionValid_iff (htree.nodup _) hmem (hrest _)]
    refine ⟨fun hs _ => hs _, fun hs c => ?_⟩
    by_cases hc : c = s'.cpu t
    · subst hc
      exact hs hpos
    · have := hrest c
      rwa [erase_of_not_mem (hother c hc)] at this

/-! ### The other steps -/

theorem Sorted.climbThreadRemove [DecidableEq C] (h : Sorted s) (htree : TreeInv s) (t : T) :
    Sorted (climbThreadRemove s t) := by
  unfold Climb.climbThreadRemove
  split
  · have hkey : ∀ l d, ((s.setTree (s.cpu t) l).setData t d).key = (s.setData t d).key :=
      fun _ _ => rfl
    intro c
    by_cases hc : c = s.cpu t
    · subst hc
      have := h.erase htree t { (s.data t).setPeriods 0 with onClimbTree := false } (s.cpu t)
      rw [hkey]
      simpa [setData, setTree] using this
    · have hout : t ∉ s.tree c := fun hin => hc ((htree.mem c t).mp hin).2.symm
      have := h.erase htree t { (s.data t).setPeriods 0 with onClimbTree := false } c
      rw [erase_of_not_mem hout] at this
      rw [hkey]
      simpa [setData, setTree, hc] using this
  · exact h

theorem Sorted.migrate [DecidableEq C] (h : Sorted s) (htree : TreeInv s)
    (hs' : migrate s t new pos = some (.ok s')) : Sorted s' := by
  rcases (htree.migrate_cases t new pos).of_eq hs' with rfl | ⟨-, rfl⟩ | ⟨-, -, l, hl, rfl⟩
  · exact h
  · exact h
  intro c
  change SortedBy s.key (update (update s.tree (s.cpu t) ((s.tree (s.cpu t)).erase t)) new l c)
  by_cases hnew : c = new
  · subst hnew
    rw [update_self]
    exact rbtInsert_sorted (h c) hl
  rw [update_of_ne hnew]
  by_cases hc : c = s.cpu t
  · subst hc
    rw [update_self]
    exact (h _).sublist erase_sublist
  · rw [update_of_ne hc]
    exact h c

/-! ### Periods -/

/-- How far a period moves the key of a thread that stays. -/
def periodShift (d : ThreadData H) : ℤ :=
  if 0 < d.pressurePeriods then 2 ^ 31 else if due d then 0 else -2 ^ 31

section

omit [DecidableEq T]

theorem climbKey_periodData {n : ℕ} (h : (periodData d n).2 = false)
    (hwrap : d.pressurePeriods ≠ 2 ^ 31 - 1) :
    climbKey (periodData d n).1 = climbKey d + periodShift d := by
  have hrange := d.isInt32
  have hp : (updateFields d).pressurePeriods = d.pressurePeriods := rfl
  have htotal : climbThreadTotalPressure (periodData d n).1 = climbThreadTotalPressure d := by
    obtain ⟨-, hd, hi⟩ := periodData_pressure d n
    rw [climbThreadTotalPressure, climbThreadTotalPressure, hd, hi]
  rw [climbKey, climbKey, htotal]
  rw [periodData_dropped] at h
  unfold periodData advance periodShift
  rw [hp]
  by_cases hpos : 0 < d.pressurePeriods
  · simp only [if_pos hpos]
    rw [ThreadData.setPeriods_eq _ (by omega)]
    ring
  have hdue : due d = true ↔
      d.pressurePeriods < -climbMaxDecayPeriods ∨ (updateFields d).wantedBoost = 0 := by
    simp [due, not_lt.mp hpos]
  rw [if_neg hpos, if_neg hpos]
  by_cases hd : due d = true
  · have hn : n = climbDropBatch := by simpa [hd] using h
    rw [if_pos (hdue.mp hd), if_pos hn, if_pos hd, hp, Int.add_zero]
  · have hlow : ¬d.pressurePeriods < -20 := fun hc => hd (hdue.mpr (.inl hc))
    rw [if_neg (fun hc => hd (hdue.mpr hc)), if_neg hd, ThreadData.setPeriods_eq _ (by omega)]
    ring

/-- The keys of two threads after a period, if they were in order before it: they are in order
unless the first one has stopped to decay and the other one has not, at the same number of
periods. -/
theorem climbKey_shift_le_iff {e : ThreadData H}
    (hd : d.pressurePeriods < 0 → ∀ k, d.pressure k = 0#64)
    (he : e.pressurePeriods < 0 → ∀ k, e.pressure k = 0#64) (hd0 : d.pressurePeriods ≠ 0)
    (he0 : e.pressurePeriods ≠ 0) (hle : climbKey d ≤ climbKey e) :
    climbKey d + periodShift d ≤ climbKey e + periodShift e ↔
      (due d = true → e.pressurePeriods < 0 → due e = false →
        e.pressurePeriods ≠ d.pressurePeriods) := by
  have hdown : ∀ {f : ThreadData H}, f.pressurePeriods < 0 →
      periodShift f = if due f then 0 else -2 ^ 31 :=
    fun hf => if_neg (by omega)
  have hup : ∀ {f : ThreadData H}, 0 < f.pressurePeriods → periodShift f = 2 ^ 31 :=
    fun hf => if_pos hf
  rcases lt_or_gt_of_ne hd0 with hdneg | hdpos
  · have hkd := climbKey_eq (hd hdneg)
    rw [hdown hdneg]
    rcases lt_or_gt_of_ne he0 with heneg | hepos
    · have hke := climbKey_eq (he heneg)
      rw [hdown heneg]
      constructor
      · intro h hdue _ hnot
        rw [if_pos hdue, if_neg (by simp [hnot])] at h
        omega
      intro h
      by_cases hdue : due d = true
      · by_cases hdue' : due e = true
        · rw [if_pos hdue, if_pos hdue']
          omega
        · have := h hdue heneg (by simpa using hdue')
          omega
      · rw [if_neg hdue]
        split <;> omega
    · rw [hup hepos]
      refine ⟨fun _ _ hc => by omega, fun _ => ?_⟩
      split <;> omega
  · have hkd := climbKey_ge hdpos
    rcases lt_or_gt_of_ne he0 with heneg | hepos
    · have hke := climbKey_eq (he heneg)
      omega
    · rw [hup hdpos, hup hepos]
      exact ⟨fun _ _ hc => by omega, fun _ => by omega⟩

end

/-- A thread that should leave the tree and has to wait keeps its key while others decay. It must
not have as many periods as one of those behind it. -/
def OrderKept (s : Sys T H C) (c : C) : Prop :=
  ∀ l₁ t l₂, s.tree c = l₁ ++ t :: l₂ → due (s.data t) = true →
    climbDropBatch ≤ l₁.countP (fun u => due (s.data u)) →
    ∀ u ∈ l₂, (s.data u).pressurePeriods < 0 → due (s.data u) = false →
      (s.data u).pressurePeriods ≠ (s.data t).pressurePeriods

omit [DecidableEq T] in
/-- The trees after a period. -/
theorem PeriodStep.sorted_iff [DecidableEq C] {c : C} (h : PeriodStep s s' c) (hsorted : Sorted s)
    (htree : TreeInv s)
    (hdecay : ∀ t, (s.data t).pressurePeriods < 0 → ∀ k, (s.data t).pressure k = 0#64)
    (hwrap : ∀ t ∈ s.tree c, (s.data t).pressurePeriods ≠ 2 ^ 31 - 1) :
    Sorted s' ↔ OrderKept s c := by
  have hkey : ∀ l₁ t l₂, s.tree c = l₁ ++ t :: l₂ → t ∈ staying s.data 0 (s.tree c) →
      s'.key t = s.key t + periodShift (s.data t) := by
    intro l₁ t l₂ hl hin
    rw [key, h.data l₁ t l₂ hl]
    exact climbKey_periodData ((h.kept l₁ t l₂ hl).mp hin) (hwrap t (by rw [hl]; simp))
  have hkept : ∀ l₁ t l₂, s.tree c = l₁ ++ t :: l₂ → (t ∈ staying s.data 0 (s.tree c) ↔
      (due (s.data t) = true → climbDropBatch ≤ l₁.countP fun u => due (s.data u))) := by
    intro l₁ t l₂ hl
    rw [h.kept l₁ t l₂ hl, periodData_dropped, droppedBefore, Bool.and_eq_false_iff,
      decide_eq_false_iff_not]
    cases due (s.data t) <;> simp
  have hother : ∀ c', c' ≠ c → SortedBy s'.key (s'.tree c') := by
    intro c' hc
    rw [h.tree, update_of_ne hc]
    refine (sortedBy_congr fun t ht => ?_).mpr (hsorted c')
    have hout : t ∉ s.tree c :=
      fun hin => hc (((htree.mem c' t).mp ht).2.symm.trans ((htree.mem c t).mp hin).2)
    rw [key, h.other t hout, key]
  have hself : Sorted s' ↔ SortedBy s'.key (staying s.data 0 (s.tree c)) := by
    refine ⟨fun hs => ?_, fun hs c' => ?_⟩
    · have := hs c
      rwa [h.tree, update_self] at this
    by_cases hc : c' = c
    · subst hc
      rwa [h.tree, update_self]
    · exact hother c' hc
  rw [hself, sortedBy_sublist_iff (staying_sublist _ _ _) (htree.nodup c)]
  -- the keys of a pair before and after the period
  have hpair : ∀ l₁ t l₂, s.tree c = l₁ ++ t :: l₂ → ∀ u ∈ l₂,
      t ∈ staying s.data 0 (s.tree c) → u ∈ staying s.data 0 (s.tree c) →
      (s'.key t ≤ s'.key u ↔ (due (s.data t) = true → (s.data u).pressurePeriods < 0 →
        due (s.data u) = false → (s.data u).pressurePeriods ≠ (s.data t).pressurePeriods)) := by
    intro l₁ t l₂ hl u hu ht hu'
    obtain ⟨k₁, k₂, hk⟩ := append_of_mem hu
    have hsplit : s.tree c = (l₁ ++ t :: k₁) ++ u :: k₂ := by rw [hl, hk]; simp
    have hon : ∀ v ∈ s.tree c, (s.data v).pressurePeriods ≠ 0 :=
      fun v hv => (htree.periods v).mp ((htree.mem c v).mp hv).1
    rw [hkey l₁ t l₂ hl ht, hkey _ u k₂ hsplit hu']
    refine climbKey_shift_le_iff (hdecay t) (hdecay u) (hon t (by rw [hl]; simp))
      (hon u (by rw [hsplit]; simp)) ?_
    have := hsorted c
    rw [hl] at this
    exact (pairwise_cons.mp (pairwise_append.mp this).2.1).1 u hu
  constructor
  · intro hs l₁ t l₂ hl hdue hfull u hu hneg hnot
    have ht := (hkept l₁ t l₂ hl).mpr fun _ => hfull
    obtain ⟨k₁, k₂, hk⟩ := append_of_mem hu
    have hsplit : s.tree c = (l₁ ++ t :: k₁) ++ u :: k₂ := by rw [hl, hk]; simp
    have hu' := (hkept _ u k₂ hsplit).mpr fun hc => by simp [hnot] at hc
    exact (hpair l₁ t l₂ hl u hu ht hu').mp (hs l₁ t l₂ hl u hu ht hu') hdue hneg hnot
  · intro hs l₁ t l₂ hl u hu ht hu'
    rw [hpair l₁ t l₂ hl u hu ht hu']
    exact fun hdue => hs l₁ t l₂ hl hdue ((hkept l₁ t l₂ hl).mp ht hdue) u hu

end Charmos.Climb
