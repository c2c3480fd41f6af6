import Charmos.Sched.ClimbHandles

/-!
# A period of the CLIMB framework

A period updates the threads of a tree, drops those that have decayed and shares out a budget of
boosts, from the largest key on. `PeriodStep` says what becomes of every thread: which ones stay,
what the budget is, and that a boost changes only as long as there is a budget left.
-/

namespace Charmos.Climb

open Function List Math

variable {T H C : Type} {l : List T} {d : ThreadData H} {data : T → ThreadData H}

/-! ### Wanted boosts -/

/-- The moving average of the boost stays within the levels. -/
theorem toNat_climbEwma_le {val target : Fx} (hval : val.toNat ≤ 20 * 2 ^ 32)
    (htarget : target.toNat ≤ 20 * 2 ^ 32) : (climbEwma val target).toNat ≤ 20 * 2 ^ 32 := by
  have halpha : climbBoostEwmaAlpha.toNat = 3221225472 := rfl
  have hrest : (fxSub fxOne climbBoostEwmaAlpha).toNat = 1073741824 := by decide
  have h₁ := toNat_fxMul (a := climbBoostEwmaAlpha) (b := val) (by decide) (by omega)
    (by rw [halpha]; omega)
  have h₂ := toNat_fxMul (a := fxSub fxOne climbBoostEwmaAlpha) (b := target) (by omega) (by omega)
    (by rw [hrest]; omega)
  rw [climbEwma, fxAdd, BitVec.toNat_add, h₁, h₂, halpha, hrest, Nat.mod_eq_of_lt (by omega)]
  omega

theorem toNat_boostTarget_le (p : Fx) :
    (fxFromInt (BitVec.ofInt 64 (climbPressureToBoostTarget p))).toNat ≤ 20 * 2 ^ 32 := by
  have hnonneg : 0 ≤ climbPressureToBoostTarget p := le_max_left _ _
  have hle : climbPressureToBoostTarget p ≤ 20 := max_le (by decide) (min_le_right _ _)
  obtain ⟨n, hn⟩ := Int.eq_ofNat_of_zero_le hnonneg
  have hword : (BitVec.ofInt 64 (n : ℤ)).toNat = n := by
    rw [BitVec.ofInt_natCast, BitVec.toNat_ofNat, Nat.mod_eq_of_lt (by omega)]
  rw [hn, fxFromInt, BitVec.toNat_shiftLeft, hword, Nat.shiftLeft_eq, Nat.mod_eq_of_lt (by omega)]
  omega

theorem updateFields_boostEwma_le (h : d.boostEwma.toNat ≤ 20 * 2 ^ 32) :
    (updateFields d).boostEwma.toNat ≤ 20 * 2 ^ 32 :=
  toNat_climbEwma_le h (toNat_boostTarget_le _)

theorem fxToInt_nonneg {x : Fx} (hx : x.toNat < 2 ^ 63) : 0 ≤ fxToInt x := by
  rw [fxToInt, BitVec.toInt_sshiftRight, BitVec.toInt_eq_toNat_of_lt (by omega),
    Int.shiftRight_eq_div_pow]
  exact Int.ediv_nonneg (Int.natCast_nonneg _) (by positivity)

theorem updateFields_wantedBoost_nonneg (h : d.boostEwma.toNat ≤ 20 * 2 ^ 32) :
    0 ≤ (updateFields d).wantedBoost :=
  fxToInt_nonneg ((updateFields_boostEwma_le h).trans_lt (by decide))

/-! ### The budget -/

/-- The boosts wanted by some threads. -/
def wantedSum (data : T → ThreadData H) (l : List T) : ℤ :=
  (l.map fun t => (data t).wantedBoost).sum

theorem wantedSum_cons (data : T → ThreadData H) (t : T) (l : List T) :
    wantedSum data (t :: l) = (data t).wantedBoost + wantedSum data l := by
  simp [wantedSum]

theorem wantedSum_congr {data' : T → ThreadData H}
    (h : ∀ t ∈ l, (data' t).wantedBoost = (data t).wantedBoost) :
    wantedSum data' l = wantedSum data l :=
  congrArg List.sum (map_congr_left h)

theorem wantedSum_nonneg (h : ∀ t ∈ l, 0 ≤ (data t).wantedBoost) : 0 ≤ wantedSum data l := by
  refine sum_nonneg fun x hx => ?_
  obtain ⟨t, ht, rfl⟩ := mem_map.mp hx
  exact h t ht

variable [DecidableEq T]

theorem climbApplyBudget_cons_pos (data : T → ThreadData H) (u : T) (l : List T) {b : ℤ}
    (hb : 0 < b) : climbApplyBudget data (u :: l) b =
      climbApplyBudget (update data u
        { data u with effectiveBoost := min (data u).wantedBoost b }) l
        (b - min (data u).wantedBoost b) := by
  rw [climbApplyBudget, if_neg (not_le.mpr hb)]

theorem wantedBoost_update (data : T → ThreadData H) (u : T) (e : ℤ) (t : T) :
    (update data u { data u with effectiveBoost := e } t).wantedBoost =
      (data t).wantedBoost := by
  by_cases ht : t = u
  · subst ht
    simp
  · simp [ht]

/-- A thread keeps its boost if what the ones before it want is all of the budget. -/
theorem climbApplyBudget_unreached : ∀ {data : T → ThreadData H} {b : ℤ} {t : T},
    (∀ u ∈ l, 0 ≤ (data u).wantedBoost) →
    (∀ l₁ l₂, l = l₁ ++ t :: l₂ → b ≤ wantedSum data l₁) → climbApplyBudget data l b t = data t :=
    by
  induction l with
  | nil => exact fun _ _ => rfl
  | cons u l ih =>
    intro data b t hnonneg hbefore
    by_cases hb : 0 < b
    · have hne : t ≠ u := by
        rintro rfl
        have := hbefore [] l rfl
        simp only [wantedSum, map_nil, sum_nil] at this
        omega
      rw [climbApplyBudget_cons_pos data u l hb, ih ?_ ?_, update_of_ne hne]
      · intro v hv
        rw [wantedBoost_update]
        exact hnonneg v (mem_cons_of_mem u hv)
      intro l₁ l₂ hl
      have hsum := hbefore (u :: l₁) l₂ (by rw [hl]; rfl)
      have hpos : 0 ≤ wantedSum data l₁ := wantedSum_nonneg fun v hv =>
        hnonneg v (mem_cons_of_mem u (hl ▸ mem_append_left _ hv))
      rw [wantedSum_cons] at hsum
      rw [wantedSum_congr fun v _ => wantedBoost_update data u _ v]
      omega
    · rw [climbApplyBudget, if_pos (by omega)]

/-- The boosts stay within the budget if the threads that it does not reach had none. -/
theorem climbApplyBudget_sum_le : ∀ (data : T → ThreadData H) (b : ℤ), l.Nodup →
    (∀ u ∈ l, 0 ≤ (data u).wantedBoost) → 0 ≤ b →
    (∀ l₁ t l₂, l = l₁ ++ t :: l₂ → b ≤ wantedSum data l₁ → (data t).effectiveBoost = 0) →
    (l.map fun t => (climbApplyBudget data l b t).effectiveBoost).sum ≤ b := by
  induction l with
  | nil => exact fun _ _ _ _ hb _ => by simpa using hb
  | cons u l ih =>
    intro data b hnodup hnonneg hb hzero
    obtain ⟨hu, hl⟩ := nodup_cons.mp hnodup
    have hnonneg' : ∀ v ∈ l, 0 ≤ (data v).wantedBoost :=
      fun v hv => hnonneg v (mem_cons_of_mem u hv)
    by_cases hpos : 0 < b
    · rw [climbApplyBudget_cons_pos data u l hpos, map_cons, sum_cons]
      generalize hg : min (data u).wantedBoost b = granted
      have hself : (climbApplyBudget
          (update data u { data u with effectiveBoost := granted }) l (b - granted)
          u).effectiveBoost = granted := by
        rw [climbApplyBudget_unreached]
        · simp
        · intro v hv
          rw [wantedBoost_update]
          exact hnonneg' v hv
        · intro l₁ l₂ hsplit
          exact absurd (by rw [hsplit]; simp) hu
      have hrest := ih (update data u { data u with effectiveBoost := granted })
        (b - granted) hl ?_ (by omega) ?_
      · omega
      · intro v hv
        rw [wantedBoost_update]
        exact hnonneg' v hv
      intro l₁ t l₂ hsplit hle
      rw [wantedSum_congr fun v _ => wantedBoost_update data u _ v] at hle
      have hne : t ≠ u := fun hc => hu (by rw [hsplit, ← hc]; simp)
      rw [update_of_ne hne]
      refine hzero (u :: l₁) t l₂ (by rw [hsplit]; rfl) ?_
      have : 0 ≤ wantedSum data l₁ := wantedSum_nonneg fun v hv =>
        hnonneg' v (hsplit ▸ mem_append_left _ hv)
      rw [wantedSum_cons]
      omega
    · have hnone : ∀ t ∈ u :: l, (data t).effectiveBoost = 0 := by
        intro t ht
        obtain ⟨l₁, l₂, hsplit⟩ := append_of_mem ht
        refine hzero l₁ t l₂ hsplit ?_
        have : 0 ≤ wantedSum data l₁ := wantedSum_nonneg fun v hv =>
          hnonneg v (hsplit ▸ mem_append_left _ hv)
        omega
      rw [climbApplyBudget, if_pos (by omega),
        map_congr_left (g := fun _ => (0 : ℤ)) fun t ht => hnone t ht]
      simpa using hb

/-! ### A whole period -/

/-- The boost that a thread wants in a period. -/
def nextWanted (s : Sys T H C) (t : T) : ℤ :=
  (updateFields (s.data t)).wantedBoost

/-- The threads that stay on a tree with a larger key want less than the budget. -/
def GetsShare (s : Sys T H C) (c : C) (t : T) : Prop :=
  ∃ l₁ l₂, staying s.data 0 (s.tree c) = l₁ ++ t :: l₂ ∧
    (l₂.map (nextWanted s)).sum < periodBudget s c

omit [DecidableEq T] in
theorem periodBudget_pos (s : Sys T H C) (c : C) : 0 < periodBudget s c :=
  lt_of_lt_of_le (by decide) (le_max_left _ _)

/-- What a period on a tree that is not empty does. -/
structure PeriodStep [DecidableEq C] (s s' : Sys T H C) (c : C) : Prop where
  tree : s'.tree = Function.update s.tree c (staying s.data 0 (s.tree c))
  cpu : s'.cpu = s.cpu
  budget : s'.budget = Function.update s.budget c (periodBudget s c)
  other : ∀ t, t ∉ s.tree c → s'.data t = s.data t
  data : ∀ l₁ t l₂, s.tree c = l₁ ++ t :: l₂ →
    s'.data t = { (periodData (s.data t) (droppedBefore s.data 0 l₁)).1 with
      effectiveBoost := (s'.data t).effectiveBoost }
  kept : ∀ l₁ t l₂, s.tree c = l₁ ++ t :: l₂ →
    (t ∈ staying s.data 0 (s.tree c) ↔
      (periodData (s.data t) (droppedBefore s.data 0 l₁)).2 = false)
  unreached : ∀ t, ¬ GetsShare s c t → (s'.data t).effectiveBoost = (s.data t).effectiveBoost
  sum_le : (∀ t, s.cpu t = c → ¬ GetsShare s c t → (s.data t).effectiveBoost = 0) →
    ((s'.tree c).map fun t => (s'.data t).effectiveBoost).sum ≤ periodBudget s c

omit [DecidableEq T] in
theorem periodData_wantedBoost (d : ThreadData H) (n : ℕ) :
    (periodData d n).1.wantedBoost = (updateFields d).wantedBoost ∧
      (periodData d n).1.effectiveBoost = d.effectiveBoost ∧
      (periodData d n).1.boostEwma = (updateFields d).boostEwma := by
  unfold periodData advance
  split
  · exact ⟨rfl, rfl, rfl⟩
  · split
    · split <;> exact ⟨rfl, rfl, rfl⟩
    · exact ⟨rfl, rfl, rfl⟩

/-- The moving averages of the boosts are within the levels. -/
def BoostsBounded (s : Sys T H C) : Prop :=
  ∀ t, (s.data t).boostEwma.toNat ≤ 20 * 2 ^ 32

theorem periodStep [DecidableEq C] {s s' : Sys T H C} (h : TreeInv s) (hboost : BoostsBounded s)
    {c : C} (hne : s.tree c ≠ []) (hs' : climbPerPeriodHook s c = .ok s') : PeriodStep s s' c := by
  obtain ⟨data, hok, hother, hdata⟩ := climbPerPeriodHook_ok (h.nodup c) hne
  obtain rfl := Except.ok.inj (hok.symm.trans hs')
  have hsplit : ∀ t ∈ s.tree c, ∃ n, data t = (periodData (s.data t) n).1 := by
    intro t ht
    obtain ⟨l₁, l₂, hl⟩ := append_of_mem ht
    exact ⟨_, hdata l₁ t l₂ hl⟩
  have hwanted : ∀ t ∈ s.tree c, (data t).wantedBoost = nextWanted s t := by
    intro t ht
    obtain ⟨n, hn⟩ := hsplit t ht
    rw [hn]
    exact (periodData_wantedBoost _ n).1
  have heffective : ∀ t, (data t).effectiveBoost = (s.data t).effectiveBoost := by
    intro t
    by_cases ht : t ∈ s.tree c
    · obtain ⟨n, hn⟩ := hsplit t ht
      rw [hn]
      exact (periodData_wantedBoost _ n).2.1
    · rw [hother t ht]
  have hsub := staying_sublist s.data (s.tree c) 0
  have hnonneg : ∀ t ∈ (staying s.data 0 (s.tree c)).reverse, 0 ≤ (data t).wantedBoost := by
    intro t ht
    rw [hwanted t (hsub.subset (mem_reverse.mp ht))]
    exact updateFields_wantedBoost_nonneg (hboost t)
  -- the loop meets the threads that stay in the reverse order
  have hbefore : ∀ l₁ t l₂, (staying s.data 0 (s.tree c)).reverse = l₁ ++ t :: l₂ →
      staying s.data 0 (s.tree c) = l₂.reverse ++ t :: l₁.reverse ∧
        wantedSum data l₁ = (l₁.reverse.map (nextWanted s)).sum := by
    intro l₁ t l₂ hl
    have hstay : staying s.data 0 (s.tree c) = l₂.reverse ++ t :: l₁.reverse := by
      rw [← reverse_reverse (staying _ _ _), hl]
      simp
    refine ⟨hstay, ?_⟩
    rw [map_reverse, sum_reverse, wantedSum]
    refine congrArg List.sum (map_congr_left fun u hu => hwanted u (hsub.subset ?_))
    rw [hstay]
    simp [hu]
  have hfar : ∀ t, ¬ GetsShare s c t → ∀ l₁ l₂, (staying s.data 0 (s.tree c)).reverse = l₁ ++ t ::
      l₂ → periodBudget s c ≤ wantedSum data l₁ := by
    intro t hshare l₁ l₂ hl
    obtain ⟨hstay, hsum⟩ := hbefore l₁ t l₂ hl
    by_contra hlt
    exact hshare ⟨_, _, hstay, by rw [← hsum]; exact not_le.mp hlt⟩
  refine ⟨rfl, rfl, rfl, fun t ht => ?_, fun l₁ t l₂ hl => ?_, fun l₁ t l₂ hl => ?_, fun t ht => ?_,
    fun hzero => ?_⟩
  · have hout : t ∉ (staying s.data 0 (s.tree c)).reverse :=
      fun hin => ht (hsub.subset (mem_reverse.mp hin))
    refine (climbApplyBudget_unreached hnonneg fun l₁ l₂ hl => ?_).trans (hother t ht)
    exact absurd (by rw [hl]; simp) hout
  · rw [← hdata l₁ t l₂ hl]
    exact climbApplyBudget_eq _ _ _ t
  · have hnodup := h.nodup c
    rw [hl] at hnodup ⊢
    exact mem_staying_iff (Nat.zero_le _) hnodup
  · have := climbApplyBudget_unreached hnonneg (hfar t ht)
    simp only [this, heffective]
  simp only [Sys.setTree, update_self]
  rw [← sum_reverse, ← map_reverse]
  refine climbApplyBudget_sum_le _ _ ?_ hnonneg (periodBudget_pos s c).le ?_
  · rw [nodup_reverse]
    exact hsub.nodup (h.nodup c)
  intro l₁ t l₂ hl hle
  obtain ⟨hstay, hsum⟩ := hbefore l₁ t l₂ hl
  have ht : t ∈ s.tree c := hsub.subset (by rw [hstay]; simp)
  rw [heffective]
  refine hzero t ((h.mem c t).mp ht).2 ?_
  rintro ⟨k₁, k₂, hk, hlt⟩
  have hnodup : (l₂.reverse ++ t :: l₁.reverse).Nodup := hstay ▸ hsub.nodup (h.nodup c)
  have hnot : t ∉ l₂.reverse ++ l₁.reverse := (nodup_cons.mp (nodup_middle.mp hnodup)).1
  obtain ⟨-, -, rfl⟩ := (append_cons_inj_of_notMem
    (fun hin => hnot (mem_append_left _ hin))
    fun hin => hnot (mem_append_right _ hin)).mp (hstay.symm.trans hk)
  omega

end Charmos.Climb
