import Charmos.Sched.Climb

/-!
# The tree of the CLIMB framework

Whatever the keys are, the tree of a CPU has exactly the threads of this CPU whose flag is set, each
once, and these are the threads that have periods. Every operation keeps this, so none of the checks
that compare the flag with the tree can fail.
-/

namespace Charmos.Climb

open Function List Math

variable {T H C : Type} {s : Sys T H C} {d : ThreadData H} {l : List T} {t : T} {key : T → ℤ}
  {pos : ℕ} {data : T → ThreadData H}

/-- The trees, the flags and the periods fit together. -/
structure TreeInv (s : Sys T H C) : Prop where
  mem : ∀ c t, t ∈ s.tree c ↔ (s.data t).onClimbTree = true ∧ s.cpu t = c
  nodup : ∀ c, (s.tree c).Nodup
  periods : ∀ t, (s.data t).onClimbTree = true ↔ (s.data t).pressurePeriods ≠ 0

theorem TreeInv.init (kind : H → PressureKind) (cpu : T → C) : TreeInv (Sys.init kind cpu) where
  mem _ _ := by simp [Sys.init]
  nodup _ := nodup_nil
  periods _ := by simp [Sys.init]

/-- The invariant reads the flags, the periods, the CPUs and the trees only. -/
theorem TreeInv.congr {s' : Sys T H C} (h : TreeInv s)
    (hflag : ∀ t, (s'.data t).onClimbTree = (s.data t).onClimbTree)
    (hperiods : ∀ t, (s'.data t).pressurePeriods = 0 ↔ (s.data t).pressurePeriods = 0)
    (hcpu : s'.cpu = s.cpu) (hmem : ∀ c t, t ∈ s'.tree c ↔ t ∈ s.tree c)
    (hnodup : ∀ c, (s'.tree c).Nodup) : TreeInv s' where
  mem c t := by rw [hmem, h.mem, hflag, hcpu]
  nodup := hnodup
  periods t := by rw [hflag, h.periods, Ne, Ne, hperiods]

/-! ### Places in the tree -/

theorem rbtInsert_perm {l' : List T} (h : rbtInsert key l pos t = some l') : l'.Perm (t :: l) := by
  unfold rbtInsert at h
  split at h
  · obtain ⟨⟩ := h
    refine perm_middle.trans ?_
    rw [take_append_drop]
  · cases h

/-- The handles and the pressures are the same. -/
structure SamePressure (s s' : Sys T H C) : Prop where
  handle : s'.handle = s.handle
  handles : ∀ t, (s'.data t).handles = (s.data t).handles
  direct : ∀ t, (s'.data t).directPressure = (s.data t).directPressure
  indirect : ∀ t, (s'.data t).indirectPressure = (s.data t).indirectPressure

theorem SamePressure.refl (s : Sys T H C) : SamePressure s s :=
  ⟨rfl, fun _ => rfl, fun _ => rfl, fun _ => rfl⟩

theorem SamePressure.trans {s₁ s₂ s₃ : Sys T H C} (h : SamePressure s₁ s₂)
    (h' : SamePressure s₂ s₃) : SamePressure s₁ s₃ :=
  ⟨h'.handle.trans h.handle, fun t => (h'.handles t).trans (h.handles t),
    fun t => (h'.direct t).trans (h.direct t), fun t => (h'.indirect t).trans (h.indirect t)⟩

/-- The step is not possible, or it passes its checks and ends in a state with `P`. -/
def Passes (P : Sys T H C → Prop) : Option (Except Fault (Sys T H C)) → Prop
  | none => True
  | some (.error _) => False
  | some (.ok s') => P s'

theorem Passes.of_eq {P : Sys T H C → Prop} {o : Option (Except Fault (Sys T H C))} {s' : Sys T H C}
    (h : Passes P o) (ho : o = some (.ok s')) : P s' := by
  rw [ho] at h
  exact h

theorem Passes.of_ne_none {P : Sys T H C → Prop} {o : Option (Except Fault (Sys T H C))}
    (h : Passes P o) (ho : o ≠ none) : ∃ s', o = some (.ok s') ∧ P s' := by
  rcases o with - | fault | s'
  · exact absurd rfl ho
  · exact h.elim
  · exact ⟨s', rfl, h⟩

/-- A step that is possible at a place of the tree only. -/
theorem passes_map {o : Option (List T)} {f : List T → Sys T H C} {P : Sys T H C → Prop}
    (h : ∀ l, o = some l → P (f l)) : Passes P (o.map fun l => .ok (f l)) := by
  cases o with
  | none => trivial
  | some l => exact h l rfl

/-! ### A thread in a period -/

/-- What a period does with a thread, when `n` threads were dropped before it. -/
def periodData (d : ThreadData H) (n : ℕ) : ThreadData H × Bool :=
  advance (updateFields d) n

/-- The thread is to leave the tree in this period. -/
def due (d : ThreadData H) : Bool :=
  d.pressurePeriods ≤ 0 ∧
    (d.pressurePeriods < -climbMaxDecayPeriods ∨ (updateFields d).wantedBoost = 0)

/-- A thread that is to leave does so, unless too many have done so before. -/
theorem periodData_dropped (d : ThreadData H) (n : ℕ) :
    (periodData d n).2 = (due d && decide (n ≠ climbDropBatch)) := by
  have hp : (updateFields d).pressurePeriods = d.pressurePeriods := rfl
  unfold periodData advance due
  rw [hp]
  by_cases hpos : 0 < d.pressurePeriods
  · simp [hpos, not_le.mpr hpos]
  rw [if_neg hpos]
  by_cases hdue : d.pressurePeriods < -climbMaxDecayPeriods ∨ (updateFields d).wantedBoost = 0
  · rw [if_pos hdue]
    by_cases hn : n = climbDropBatch
    · simp [hn]
    · simp [hn, hdue, not_lt.mp hpos]
  · simp [hdue]

/-- A thread on the tree stays there with periods, or is dropped without. -/
theorem periodData_flags (hon : d.onClimbTree = true) (hp : d.pressurePeriods ≠ 0) (n : ℕ) :
    ((periodData d n).1.onClimbTree = true ↔ (periodData d n).2 = false) ∧
      ((periodData d n).1.pressurePeriods ≠ 0 ↔ (periodData d n).2 = false) := by
  have hp' : (updateFields d).pressurePeriods ≠ 0 := hp
  have hon' : (updateFields d).onClimbTree = true := hon
  have hrange := (updateFields d).isInt32
  unfold periodData advance
  split
  · have hne := (updateFields d).setPeriods_ne_zero
      (p := (updateFields d).pressurePeriods + 1) (by omega) (by omega)
    exact ⟨by simp [hon'], by simp [hne]⟩
  split
  · split
    · exact ⟨by simp [hon'], by simp [hp']⟩
    · simp
  · next hstay =>
    have hlow : -20 ≤ (updateFields d).pressurePeriods := not_lt.mp (not_or.mp hstay).1
    have hne := (updateFields d).setPeriods_ne_zero
      (p := (updateFields d).pressurePeriods - 1) (by omega) (by omega)
    exact ⟨by simp [hon'], by simp [hne]⟩

theorem periodData_pressure (d : ThreadData H) (n : ℕ) :
    (periodData d n).1.handles = d.handles ∧
      (periodData d n).1.directPressure = d.directPressure ∧
      (periodData d n).1.indirectPressure = d.indirectPressure := by
  unfold periodData advance
  split
  · exact ⟨rfl, rfl, rfl⟩
  · split
    · split <;> exact ⟨rfl, rfl, rfl⟩
    · exact ⟨rfl, rfl, rfl⟩

/-- How many threads were dropped before a thread, if the others before it are `l`. -/
def droppedBefore (data : T → ThreadData H) (dropped : ℕ) (l : List T) : ℕ :=
  min climbDropBatch (dropped + l.countP fun t => due (data t))

/-- The threads that a period leaves on a tree, when `n` threads were dropped before. -/
def staying (data : T → ThreadData H) : ℕ → List T → List T
  | _, [] => []
  | n, t :: l =>
    if due (data t) = true ∧ n < climbDropBatch then staying data (n + 1) l
    else t :: staying data n l

theorem staying_sublist (data : T → ThreadData H) (l : List T) :
    ∀ n, (staying data n l).Sublist l := by
  induction l with
  | nil => exact fun _ => List.Sublist.refl _
  | cons t l ih =>
    intro n
    rw [staying]
    split
    · exact (ih _).cons t
    · exact (ih _).cons_cons t

theorem staying_congr {data' : T → ThreadData H} (h : ∀ t ∈ l, data' t = data t) :
    ∀ n, staying data' n l = staying data n l := by
  induction l with
  | nil => exact fun _ => rfl
  | cons t l ih =>
    intro n
    have hl := ih fun u hu => h u (mem_cons_of_mem t hu)
    rw [staying, staying, h t mem_cons_self, hl, hl]

/-- The moving averages of the pressures, after a period has updated them. -/
def ewmaSum (data : T → ThreadData H) (l : List T) : Fx :=
  (l.map fun t => (updateFields (data t)).pressureEwma).sum

theorem ewmaSum_cons (data : T → ThreadData H) (t : T) (l : List T) :
    ewmaSum data (t :: l) = (updateFields (data t)).pressureEwma + ewmaSum data l :=
  sum_cons

/-- The budget of a period. -/
def periodBudget (s : Sys T H C) (c : C) : ℤ :=
  climbBudgetFromSummary ⟨ewmaSum s.data (s.tree c), (s.tree c).length, 0, s.data, []⟩

theorem periodData_dropped_iff {n : ℕ} (hn : n ≤ climbDropBatch) :
    (periodData d n).2 = true ↔ due d = true ∧ n < climbDropBatch := by
  rw [periodData_dropped, Bool.and_eq_true, decide_eq_true_iff]
  exact and_congr_right fun _ => by omega

/-- The first thread counts for the ones after it if it is dropped. -/
theorem droppedBefore_cons {n : ℕ} (hn : n ≤ climbDropBatch) (t : T) (l : List T) :
    droppedBefore data n (t :: l) =
      droppedBefore data (if (periodData (data t) n).2 then n + 1 else n) l := by
  unfold droppedBefore
  rw [countP_cons]
  simp only [periodData_dropped_iff hn]
  by_cases hd : due (data t) = true
  · by_cases hlt : n < climbDropBatch
    · simp only [hd, hlt, and_self, if_true]
      omega
    · simp only [hd, hlt, and_false, if_true, if_false]
      omega
  · simp [hd]

/-- The threads that stay are those that the loop does not drop. -/
theorem mem_staying_iff {l₂ : List T} : ∀ {l₁ : List T} {n : ℕ}, n ≤ climbDropBatch →
    (l₁ ++ t :: l₂).Nodup → (t ∈ staying data n (l₁ ++ t :: l₂) ↔
      (periodData (data t) (droppedBefore data n l₁)).2 = false) := by
  intro l₁
  induction l₁ with
  | nil =>
    intro n hn hnodup
    have hzero : droppedBefore data n [] = n := by simpa [droppedBefore] using hn
    have hout : t ∉ staying data (n + 1) l₂ := fun hin =>
      (nodup_cons.mp hnodup).1 ((staying_sublist data l₂ _).subset hin)
    rw [hzero, nil_append, staying, ← Bool.not_eq_true, periodData_dropped_iff hn]
    split
    · next hdue => simp [hdue, hout]
    · next hdue => simp [hdue]
  | cons u l₁ ih =>
    intro n hn hnodup
    obtain ⟨hu, hl⟩ := nodup_cons.mp hnodup
    have hne : t ≠ u := fun hc => hu (by simp [hc])
    rw [droppedBefore_cons hn, cons_append, staying]
    simp only [periodData_dropped_iff hn]
    split
    · next hdue => exact ih hdue.2 hl
    · simpa [hne] using ih hn hl

variable [DecidableEq T]

theorem rbtReinsert_perm {l' : List T} (ht : t ∈ l) (h : rbtReinsert key l pos t = some l') :
    l'.Perm l := by
  unfold rbtReinsert at h
  split at h
  · obtain ⟨⟩ := h
    exact List.Perm.refl _
  · exact (rbtInsert_perm h).trans (perm_cons_erase ht).symm

/-! ### Operations -/

/-- Other data of a thread, with the same flag and periods that are 0 when they were. -/
theorem TreeInv.setData (h : TreeInv s) (t : T) (hd : d.onClimbTree = (s.data t).onClimbTree)
    (hp : d.pressurePeriods = 0 ↔ (s.data t).pressurePeriods = 0) : TreeInv (s.setData t d) := by
  refine h.congr ?_ ?_ rfl (fun _ _ => Iff.rfl) h.nodup
  · exact (forall_update_iff s.data fun u e => e.onClimbTree = (s.data u).onClimbTree).mpr
      ⟨hd, fun _ _ => rfl⟩
  · exact (forall_update_iff s.data fun u e => e.pressurePeriods = 0 ↔
      (s.data u).pressurePeriods = 0).mpr ⟨hp, fun _ _ => Iff.rfl⟩

theorem SamePressure.setData (s : Sys T H C) (t : T) (hh : d.handles = (s.data t).handles)
    (hd : d.directPressure = (s.data t).directPressure)
    (hi : d.indirectPressure = (s.data t).indirectPressure) : SamePressure s (s.setData t d) := by
  refine ⟨rfl, ?_, ?_, ?_⟩
  · exact (forall_update_iff s.data fun u e => e.handles = (s.data u).handles).mpr
      ⟨hh, fun _ _ => rfl⟩
  · exact (forall_update_iff s.data fun u e => e.directPressure = (s.data u).directPressure).mpr
      ⟨hd, fun _ _ => rfl⟩
  · exact (forall_update_iff s.data fun u e =>
      e.indirectPressure = (s.data u).indirectPressure).mpr ⟨hi, fun _ _ => rfl⟩

/-- Boosts are the only thing that the budget changes. -/
theorem climbApplyBudget_eq (l : List T) : ∀ (data : T → ThreadData H) (remaining : ℤ) (t : T),
    climbApplyBudget data l remaining t =
      { data t with effectiveBoost := (climbApplyBudget data l remaining t).effectiveBoost } := by
  induction l with
  | nil => exact fun _ _ _ => rfl
  | cons u l ih =>
    intro data remaining t
    unfold climbApplyBudget
    split
    · rfl
    have h := ih (update data u
      { data u with effectiveBoost := min (data u).wantedBoost remaining })
      (remaining - min (data u).wantedBoost remaining) t
    by_cases ht : t = u
    · subst ht
      rw [update_self] at h
      exact h
    · rw [update_of_ne ht] at h
      exact h

/-- The loop of a period: the tree and the summary, and the data of the threads. -/
theorem summarizeAndAdvance_spec (l : List T) : ∀ (r : Summary T H), l.Nodup →
    r.dropped ≤ climbDropBatch →
    (summarizeAndAdvance r l).tree = r.tree ++ staying r.data r.dropped l ∧
    (summarizeAndAdvance r l).nthreads = r.nthreads + l.length ∧
    (summarizeAndAdvance r l).totalPressureEwma = r.totalPressureEwma + ewmaSum r.data l ∧
    (∀ t, t ∉ l → (summarizeAndAdvance r l).data t = r.data t) ∧
    ∀ l₁ t l₂, l = l₁ ++ t :: l₂ → (summarizeAndAdvance r l).data t =
      (periodData (r.data t) (droppedBefore r.data r.dropped l₁)).1 := by
  induction l with
  | nil =>
    refine fun r _ _ => ⟨(append_nil _).symm, rfl, (BitVec.add_zero _).symm, fun _ _ => rfl, ?_⟩
    intro l₁ t l₂ hsplit
    simp at hsplit
  | cons u l ih =>
    intro r hnodup hle
    obtain ⟨hu, hl⟩ := nodup_cons.mp hnodup
    let a := periodData (r.data u) r.dropped
    let r₁ : Summary T H :=
      { totalPressureEwma := r.totalPressureEwma + (updateFields (r.data u)).pressureEwma
        nthreads := r.nthreads + 1
        dropped := if a.2 then r.dropped + 1 else r.dropped
        data := update r.data u a.1
        tree := if a.2 then r.tree else r.tree ++ [u] }
    have hdrop : a.2 = true ↔ due (r.data u) = true ∧ r.dropped < climbDropBatch :=
      periodData_dropped_iff hle
    have hle₁ : r₁.dropped ≤ climbDropBatch := by
      simp only [r₁]
      split
      · next hd => exact (hdrop.mp hd).2
      · exact hle
    have hlater : ∀ t ∈ l, r₁.data t = r.data t :=
      fun t ht => update_of_ne (fun hc : t = u => hu (hc ▸ ht)) _ _
    obtain ⟨htree, hcount, hewma, hother, hdata⟩ := ih r₁ hl hle₁
    refine ⟨htree.trans ?_, hcount.trans ?_, hewma.trans ?_, fun t ht => ?_, ?_⟩
    · rw [staying_congr hlater, staying]
      simp only [r₁, ← hdrop]
      split <;> simp
    · simp only [r₁, length_cons]
      omega
    · rw [ewmaSum_cons, ← BitVec.add_assoc]
      exact congrArg _ (congrArg List.sum (map_congr_left fun t ht => by rw [hlater t ht]))
    · obtain ⟨hne, hnot⟩ := not_or.mp (fun hc => ht (mem_cons.mpr hc))
      exact (hother t hnot).trans (update_of_ne hne _ _)
    intro l₁ t l₂ hsplit
    cases l₁ with
    | nil =>
      obtain ⟨rfl, -⟩ := List.cons.inj hsplit
      have hzero : droppedBefore r.data r.dropped [] = r.dropped := by
        simpa [droppedBefore] using hle
      rw [hzero]
      exact (hother u hu).trans (update_self ..)
    | cons v l₁ =>
      obtain ⟨rfl, rfl⟩ := List.cons.inj hsplit
      have hcount : l₁.countP (fun t => due (r₁.data t)) = l₁.countP fun t => due (r.data t) :=
        countP_congr fun x hx => by rw [hlater x (mem_append_left _ hx)]
      rw [droppedBefore_cons hle]
      refine (hdata l₁ t l₂ rfl).trans ?_
      rw [hlater t (by simp), droppedBefore, hcount]
      rfl

variable [DecidableEq C]

/-- One thread changes, on the tree of its CPU. -/
theorem TreeInv.change (h : TreeInv s) (hnodup : l.Nodup)
    (hl : ∀ u, u ≠ t → (u ∈ l ↔ u ∈ s.tree (s.cpu t))) (ht : t ∈ l ↔ d.onClimbTree = true)
    (hp : d.onClimbTree = true ↔ d.pressurePeriods ≠ 0) :
    TreeInv ((s.setTree (s.cpu t) l).setData t d) := by
  refine ⟨fun c u => ?_, ?_, ?_⟩
  · by_cases hu : u = t
    · subst hu
      by_cases hc : c = s.cpu u
      · subst hc
        simp [Sys.setData, Sys.setTree, ht]
      · simp [Sys.setData, Sys.setTree, hc, h.mem, Ne.symm hc]
    · by_cases hc : c = s.cpu t
      · subst hc
        simp [Sys.setData, Sys.setTree, hu, hl u hu, h.mem]
      · simp [Sys.setData, Sys.setTree, hc, hu, h.mem]
  · exact (forall_update_iff s.tree fun _ l => l.Nodup).mpr ⟨hnodup, fun c _ => h.nodup c⟩
  · exact (forall_update_iff s.data fun _ e => e.onClimbTree = true ↔
      e.pressurePeriods ≠ 0).mpr ⟨hp, fun u _ => h.periods u⟩

/-- The thread is put on the tree of its CPU. -/
theorem TreeInv.enter (h : TreeInv s) (ht : (s.data t).onClimbTree = false)
    (hl : l.Perm (t :: s.tree (s.cpu t))) (hd : d.onClimbTree = true) (hp : d.pressurePeriods ≠ 0) :
    TreeInv ((s.setTree (s.cpu t) l).setData t d) := by
  have hfree : t ∉ s.tree (s.cpu t) := by simp [h.mem, ht]
  refine h.change (hl.nodup_iff.mpr (nodup_cons.mpr ⟨hfree, h.nodup _⟩)) (fun u hu => ?_) ?_ ?_
  · simp [hl.mem_iff, hu]
  · simp [hl.mem_iff, hd]
  · simp [hd, hp]

/-- The thread leaves the tree of its CPU. -/
theorem TreeInv.leave (h : TreeInv s) (t : T) (hd : d.onClimbTree = false)
    (hp : d.pressurePeriods = 0) :
    TreeInv ((s.setTree (s.cpu t) ((s.tree (s.cpu t)).erase t)).setData t d) := by
  refine h.change ((h.nodup _).erase t) (fun u hu => mem_erase_of_ne hu) ?_ ?_
  · simp [(h.nodup _).mem_erase_iff, hd]
  · simp [hd, hp]

omit [DecidableEq C] in
/-- A thread that is on no tree can be on any CPU. -/
theorem TreeInv.setCpu (h : TreeInv s) (ht : (s.data t).onClimbTree = false) (c : C) :
    TreeInv { s with cpu := update s.cpu t c } := by
  refine ⟨fun c' u => ?_, h.nodup, h.periods⟩
  by_cases hu : u = t
  · subst hu
    simp [h.mem, ht]
  · simp [h.mem, hu]

section

omit [DecidableEq T]

theorem TreeInv.setTree (h : TreeInv s) (c : C) (hl : l.Perm (s.tree c)) :
    TreeInv (s.setTree c l) := by
  refine h.congr (fun _ => rfl) (fun _ => Iff.rfl) rfl ?_ ?_
  · exact (forall_update_iff s.tree fun c l => ∀ u, u ∈ l ↔ u ∈ s.tree c).mpr
      ⟨fun _ => hl.mem_iff, fun _ _ _ => Iff.rfl⟩
  · exact (forall_update_iff s.tree fun _ l => l.Nodup).mpr
      ⟨hl.nodup_iff.mpr (h.nodup c), fun c _ => h.nodup c⟩

theorem SamePressure.setTree (s : Sys T H C) (c : C) (l : List T) :
    SamePressure s (s.setTree c l) :=
  ⟨rfl, fun _ => rfl, fun _ => rfl, fun _ => rfl⟩

end

/-- The last part of `apply_handle` passes its check: the thread is put on the tree, it gets a new
place there, or nothing happens. -/
theorem TreeInv.enterTree_cases (h : TreeInv s) (t : T) (pos : ℕ) :
    Passes (fun s' =>
      ((s.data t).pressurePeriods = 0 ∧ (s.data t).onClimbTree = false ∧ ∃ l,
        rbtInsert (s.setData t ((s.data t).setPeriods 1)).key (s.tree (s.cpu t)) pos
          t = some l ∧
        s' = (s.setTree (s.cpu t) l).setData t
          { (s.data t).setPeriods 1 with onClimbTree := true }) ∨
      ((s.data t).pressurePeriods < 0 ∧ t ∈ s.tree (s.cpu t) ∧ ∃ l,
        rbtReinsert (s.setData t ((s.data t).setPeriods 1)).key (s.tree (s.cpu t)) pos
          t = some l ∧
        s' = (s.setData t ((s.data t).setPeriods 1)).setTree (s.cpu t) l) ∨
      (0 < (s.data t).pressurePeriods ∧ t ∈ s.tree (s.cpu t) ∧ s' = s)) (enterTree s t pos) := by
  unfold enterTree
  by_cases hzero : (s.data t).pressurePeriods = 0
  · have hoff : (s.data t).onClimbTree = false := by
      by_contra hon
      exact (h.periods t).mp (by simpa using hon) hzero
    rw [if_pos hzero, if_neg (by simp [hoff])]
    refine passes_map fun l hl => .inl ⟨hzero, hoff, l, hl, ?_⟩
    simp [Sys.setData, Sys.setTree]
  · have hon : (s.data t).onClimbTree = true := (h.periods t).mpr hzero
    have hmem : t ∈ s.tree (s.cpu t) := (h.mem _ t).mpr ⟨hon, rfl⟩
    rw [if_neg hzero, if_pos hon]
    split
    · next hneg => exact passes_map fun l hl => .inr (.inl ⟨hneg, hmem, l, hl, rfl⟩)
    · exact .inr (.inr ⟨by omega, hmem, rfl⟩)

theorem TreeInv.enterTree {s' : Sys T H C} (h : TreeInv s)
    (hs' : enterTree s t pos = some (.ok s')) : TreeInv s' ∧ SamePressure s s' := by
  rcases (h.enterTree_cases t pos).of_eq hs' with ⟨-, hoff, l, hl, rfl⟩ | ⟨hneg, hmem, l, hl, rfl⟩ |
    ⟨-, -, rfl⟩
  · refine ⟨h.enter hoff (rbtInsert_perm hl) rfl one_ne_zero, ?_⟩
    refine (SamePressure.setTree s (s.cpu t) l).trans ?_
    exact SamePressure.setData (s.setTree (s.cpu t) l) t rfl rfl rfl
  · have hdata : TreeInv (s.setData t ((s.data t).setPeriods 1)) :=
      h.setData t rfl (by simp [hneg.ne])
    refine ⟨hdata.setTree _ (rbtReinsert_perm hmem hl), ?_⟩
    refine SamePressure.trans ?_ (SamePressure.setTree _ _ _)
    exact SamePressure.setData s t rfl rfl rfl
  · exact ⟨h, SamePressure.refl _⟩

theorem TreeInv.climbThreadRemove (h : TreeInv s) (t : T) :
    TreeInv (climbThreadRemove s t) ∧ SamePressure s (climbThreadRemove s t) := by
  unfold Climb.climbThreadRemove
  split
  · refine ⟨h.leave t rfl rfl, ?_⟩
    refine (SamePressure.setTree s (s.cpu t) ((s.tree (s.cpu t)).erase t)).trans ?_
    exact SamePressure.setData (s.setTree (s.cpu t) ((s.tree (s.cpu t)).erase t)) t rfl rfl rfl
  · exact ⟨h, SamePressure.refl s⟩

/-- The thread moves to the tree of another CPU. -/
theorem TreeInv.move (h : TreeInv s) (ht : t ∈ s.tree (s.cpu t)) {c : C} (hc : s.cpu t ≠ c)
    (hl : l.Perm (t :: s.tree c)) :
    TreeInv { (s.setTree (s.cpu t) ((s.tree (s.cpu t)).erase t)).setTree c l with
      cpu := update s.cpu t c } := by
  have hon : (s.data t).onClimbTree = true := ((h.mem _ t).mp ht).1
  let d : ThreadData H := { (s.data t).setPeriods 0 with onClimbTree := false }
  have hout := (h.leave t (d := d) rfl rfl).setCpu (t := t) (by simp [Sys.setData, d]) c
  have hin := hout.enter (t := t) (l := l) (d := s.data t) (by simp [Sys.setData, d])
    (by simpa [Sys.setData, Sys.setTree, Ne.symm hc] using hl) hon ((h.periods t).mp hon)
  simpa [Sys.setData, Sys.setTree] using hin

/-- A migration passes its checks: nothing happens, a thread that is on no tree gets its new CPU, or
the thread moves to the tree there. -/
theorem TreeInv.migrate_cases (h : TreeInv s) (t : T) (new : C) (pos : ℕ) :
    Passes (fun s' => s' = s ∨ ((s.data t).onClimbTree = false ∧ s' =
      { s with cpu := update s.cpu t new }) ∨
      t ∈ s.tree (s.cpu t) ∧ s.cpu t ≠ new ∧ ∃ l, rbtInsert s.key (s.tree new) pos t = some l ∧
        s' = { (s.setTree (s.cpu t) ((s.tree (s.cpu t)).erase t)).setTree new l with
          cpu := update s.cpu t new }) (migrate s t new pos) := by
  unfold migrate
  dsimp only
  split
  · exact .inl rfl
  next hne =>
  split
  · next hout =>
    have hoff : (s.data t).onClimbTree = false := by
      by_contra hon
      exact hout ((h.mem _ t).mpr ⟨by simpa using hon, rfl⟩)
    have hzero : (s.data t).pressurePeriods = 0 := by
      by_contra hp
      simp [(h.periods t).mpr hp] at hoff
    rw [if_neg (by simp [hoff]), if_neg (not_not.mpr hzero)]
    exact .inr (.inl ⟨hoff, rfl⟩)
  · next hin => exact passes_map fun l hl => .inr (.inr ⟨not_not.mp hin, hne, l, hl, rfl⟩)

theorem TreeInv.migrate {s' : Sys T H C} (h : TreeInv s) {new : C}
    (hs' : migrate s t new pos = some (.ok s')) : TreeInv s' ∧ SamePressure s s' := by
  rcases (h.migrate_cases t new pos).of_eq hs' with rfl | ⟨hoff, rfl⟩ | ⟨hin, hne, l, hl, rfl⟩
  · exact ⟨h, SamePressure.refl _⟩
  · exact ⟨h.setCpu hoff new, rfl, fun _ => rfl, fun _ => rfl, fun _ => rfl⟩
  · exact ⟨h.move hin hne (rbtInsert_perm hl), rfl, fun _ => rfl, fun _ => rfl, fun _ => rfl⟩

/-! ### Periods -/

/-- A period on a tree that is not empty: the threads get their new data and then their boosts. -/
theorem climbPerPeriodHook_ok {c : C} (hnodup : (s.tree c).Nodup) (hne : s.tree c ≠ []) :
    ∃ data : T → ThreadData H,
      climbPerPeriodHook s c = .ok { s.setTree c (staying s.data 0 (s.tree c)) with
        data := climbApplyBudget data (staying s.data 0 (s.tree c)).reverse (periodBudget s c)
        budget := update s.budget c (periodBudget s c) } ∧
      (∀ t, t ∉ s.tree c → data t = s.data t) ∧
      ∀ l₁ t l₂, s.tree c = l₁ ++ t :: l₂ →
        data t = (periodData (s.data t) (droppedBefore s.data 0 l₁)).1 := by
  obtain ⟨htree, hcount, hewma, hother, hdata⟩ :=
    summarizeAndAdvance_spec (s.tree c) ⟨0#64, 0, 0, s.data, []⟩ hnodup (Nat.zero_le _)
  have hpos : (s.tree c).length ≠ 0 := fun hc => hne (length_eq_zero_iff.mp hc)
  refine ⟨_, ?_, hother, hdata⟩
  rw [climbPerPeriodHook, if_neg hne]
  rw [if_neg (by rw [hcount]; simpa using hpos)]
  generalize summarizeAndAdvance ⟨0#64, 0, 0, s.data, []⟩ (s.tree c) = r at *
  have hbudget : climbBudgetFromSummary r = periodBudget s c := by
    simp only [climbBudgetFromSummary, periodBudget, hewma, hcount, BitVec.zero_add, zero_add]
  rw [hbudget, htree, nil_append]

theorem TreeInv.climbPerPeriodHook (h : TreeInv s) (c : C) :
    ∃ s', climbPerPeriodHook s c = .ok s' ∧ TreeInv s' ∧ SamePressure s s' := by
  by_cases hne : s.tree c = []
  · exact ⟨s, if_pos hne, h, SamePressure.refl s⟩
  obtain ⟨data, hok, hother, hdata⟩ := climbPerPeriodHook_ok (h.nodup c) hne
  have hboost := climbApplyBudget_eq (staying s.data 0 (s.tree c)).reverse data (periodBudget s c)
  generalize climbApplyBudget data (staying s.data 0 (s.tree c)).reverse (periodBudget s c) = data'
    at hok hboost
  have hsub := staying_sublist s.data (s.tree c) 0
  have hmem : ∀ t ∈ s.tree c, ∃ n, data t = (periodData (s.data t) n).1 ∧
      (t ∈ staying s.data 0 (s.tree c) ↔ (periodData (s.data t) n).2 = false) := by
    intro t ht
    obtain ⟨l₁, l₂, hsplit⟩ := append_of_mem ht
    have hnodup := h.nodup c
    refine ⟨_, hdata l₁ t l₂ hsplit, ?_⟩
    rw [hsplit] at hnodup ⊢
    exact mem_staying_iff (Nat.zero_le _) hnodup
  have hflags : ∀ t ∈ s.tree c,
      ((data t).onClimbTree = true ↔ t ∈ staying s.data 0 (s.tree c)) ∧
        ((data t).pressurePeriods ≠ 0 ↔ t ∈ staying s.data 0 (s.tree c)) := by
    intro t ht
    have hon := ((h.mem c t).mp ht).1
    obtain ⟨n, hn, hk⟩ := hmem t ht
    rw [hn, hk]
    exact periodData_flags hon ((h.periods t).mp hon) n
  have hsame : ∀ t, (data t).handles = (s.data t).handles ∧
      (data t).directPressure = (s.data t).directPressure ∧
      (data t).indirectPressure = (s.data t).indirectPressure := by
    intro t
    by_cases ht : t ∈ s.tree c
    · obtain ⟨n, hn, -⟩ := hmem t ht
      rw [hn]
      exact periodData_pressure (s.data t) n
    · rw [hother t ht]
      exact ⟨rfl, rfl, rfl⟩
  refine ⟨_, hok, ⟨fun c' t => ?_, fun c' => ?_, fun t => ?_⟩, rfl, fun t => ?_, fun t => ?_,
    fun t => ?_⟩
  · have hflag : (data' t).onClimbTree = (data t).onClimbTree := by rw [hboost]
    change t ∈ update s.tree c _ c' ↔ (data' t).onClimbTree = true ∧ s.cpu t = c'
    rw [hflag]
    by_cases hc : c' = c
    · subst hc
      rw [update_self]
      by_cases ht : t ∈ s.tree c'
      · rw [(hflags t ht).1, and_iff_left ((h.mem c' t).mp ht).2]
      · rw [hother t ht, ← h.mem]
        exact ⟨fun hin => hsub.subset hin, fun hin => absurd hin ht⟩
    · rw [update_of_ne hc]
      by_cases ht : t ∈ s.tree c
      · have hcpu : s.cpu t ≠ c' := fun hc' => hc (hc'.symm.trans ((h.mem c t).mp ht).2)
        simp [h.mem, hcpu]
      · rw [hother t ht, h.mem]
  · by_cases hc : c' = c
    · subst hc
      simpa [Sys.setTree] using hsub.nodup (h.nodup c')
    · simpa [Sys.setTree, hc] using h.nodup c'
  · change (data' t).onClimbTree = true ↔ (data' t).pressurePeriods ≠ 0
    rw [hboost]
    by_cases ht : t ∈ s.tree c
    · exact (hflags t ht).1.trans (hflags t ht).2.symm
    · simp only [hother t ht]
      exact h.periods t
  · change (data' t).handles = _
    rw [hboost]
    exact (hsame t).1
  · change (data' t).directPressure = _
    rw [hboost]
    exact (hsame t).2.1
  · change (data' t).indirectPressure = _
    rw [hboost]
    exact (hsame t).2.2

end Charmos.Climb
