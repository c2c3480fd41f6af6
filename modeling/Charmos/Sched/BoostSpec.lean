import Charmos.Sched.Boost

/-!
# What each operation does to the boost state

The invariant has a part for each of the two kinds of boost, which says that the state kept with the
CPUs agrees with what the threads have recorded, and a part for each thread, which says where it is
registered as a reader and which CPU its scheduler field names. The hook is described once: it takes
the state of a thread from one CPU to another, if it is found at the first.
-/

namespace Charmos.Boost

open Boost Function List Option

variable {C T : Type}

/-! ### Counts -/

theorem percpuIncIds_apply (ids : List ℕ) (counts : ℕ → ℕ)
    (hroom : ∀ id ∈ ids, counts id + ids.count id ≤ 255) (id : ℕ) :
    percpuIncIds counts ids id = counts id + ids.count id := by
  induction ids generalizing counts with
  | nil => rfl
  | cons a ids ih =>
    simp only [count_cons, beq_iff_eq] at hroom ⊢
    have hstep : ∀ i, update counts a ((counts a + 1) % 256) i =
        counts i + if a = i then 1 else 0 := by
      have ha := hroom a mem_cons_self
      rw [if_pos rfl] at ha
      intro i
      by_cases hi : a = i
      · subst hi
        rw [update_self, if_pos rfl]
        omega
      · rw [update_of_ne (Ne.symm hi), if_neg hi, add_zero]
    refine (ih (update counts a ((counts a + 1) % 256)) fun i hmem => ?_).trans ?_
    · have hi := hroom i (mem_cons_of_mem a hmem)
      rw [hstep]
      omega
    · rw [hstep]
      omega

/-- The counts that are increased are bytes. -/
theorem percpuIncIds_lt (ids : List ℕ) (counts : ℕ → ℕ) {id : ℕ} (h : id ∈ ids) :
    percpuIncIds counts ids id < 256 := by
  induction ids using reverseRecOn with
  | nil => exact absurd h not_mem_nil
  | append_singleton ids a ih =>
    rw [percpuIncIds, foldl_concat]
    by_cases ha : id = a
    · subst ha
      rw [update_self]
      exact Nat.mod_lt _ (by decide)
    · rw [update_of_ne ha]
      exact ih (by simpa [ha] using h)

theorem percpuDecIds_eq (ids : List ℕ) (counts : ℕ → ℕ) (hle : ∀ id, ids.count id ≤ counts id) :
    percpuDecIds counts ids = some fun id => counts id - ids.count id := by
  induction ids generalizing counts with
  | nil => rfl
  | cons a ids ih =>
    simp only [count_cons, beq_iff_eq] at hle ⊢
    have ha : counts a ≠ 0 := by
      have h := hle a
      rw [if_pos rfl] at h
      omega
    have hstep : ∀ i, update counts a (counts a - 1) i =
        counts i - if a = i then 1 else 0 := by
      intro i
      by_cases hi : a = i
      · subst hi
        rw [update_self, if_pos rfl]
      · rw [update_of_ne (Ne.symm hi), if_neg hi, Nat.sub_zero]
    have h := ih (update counts a (counts a - 1)) fun i => by
      have hi := hle i
      rw [hstep i]
      omega
    unfold percpuDecIds at h ⊢
    simp only [foldlM_cons, if_neg ha, bind_eq_bind, bind_some]
    rw [h]
    congr 1
    funext i
    rw [hstep i]
    omega

/-! ### Reading the updates -/

section Fields

variable [DecidableEq T] (s : BoostSys C T) (t : T) (x : BoostThread C) {u : T}

@[simp] theorem setThread_threads_self : (setThread s t x).threads t = x :=
  update_self ..

@[simp] theorem setThread_climbThreads : (setThread s t x).climbThreads = s.climbThreads := rfl

@[simp] theorem setThread_rqBucketCounts :
    (setThread s t x).rqBucketCounts = s.rqBucketCounts := rfl

@[simp] theorem setThread_panicked : (setThread s t x).panicked = s.panicked := rfl

theorem setThread_threads_of_ne (hu : u ≠ t) : (setThread s t x).threads u = s.threads u :=
  update_of_ne hu ..

/-- A part of the record that has not changed. -/
theorem setThread_read {β : Type} (f : BoostThread C → β) (hf : f x = f (s.threads t)) (u : T) :
    f ((setThread s t x).threads u) = f (s.threads u) := by
  by_cases hu : u = t
  · subst hu
    rwa [setThread_threads_self]
  · rw [setThread_threads_of_ne s t x hu]

variable [DecidableEq C] (c : C) (b : Bool)

@[simp] theorem setClimb_threads : (setClimb s c t b).threads = s.threads := rfl

theorem setClimb_self (c' : C) :
    (setClimb s c t b).climbThreads c' t = if c' = c then b else s.climbThreads c' t := by
  by_cases hc : c' = c
  · subst hc
    simp [setClimb]
  · simp [setClimb, hc]

theorem setClimb_of_ne (hu : u ≠ t) (c' : C) :
    (setClimb s c t b).climbThreads c' u = s.climbThreads c' u := by
  by_cases hc : c' = c
  · subst hc
    simp [setClimb, hu]
  · simp [setClimb, hc]

end Fields

/-! ### The invariant -/

/-- The thread is in the tree of this CPU if it says that it is in one, and in no other tree. -/
def ClimbAt (s : BoostSys C T) (t : T) (c : C) : Prop :=
  ∀ c', s.climbThreads c' t = true ↔ (s.threads t).onClimbTree = true ∧ c' = c

/-- The reader lists and the counts agree with what the threads have recorded. -/
structure ReadersOk (cfg : BoostConfig C T) (s : BoostSys C T) : Prop where
  mem : ∀ c t, t ∈ s.readers c ↔ (s.threads t).mapNode = some c
  nodup : ∀ c, (s.readers c).Nodup
  counts : ∀ c id, s.rqBucketCounts c id =
    ((s.readers c).map fun t =>
      (readerIds cfg.coarseFactor (s.threads t).wroost).count id).sum

/-- Where a thread that holds read locks is registered. -/
def readerHome (x : BoostThread C) : Option C :=
  if x.wroost.readNestingDepth = 0 then none
  else
    match x.place with
    | .on _ .running => none
    | .on c _ => some c
    | .queued c => some c
    | .off => some x.scheduler

/-- The scheduler field names the CPU that the thread is with, or the one it is to migrate to. A
target that `schedule` has read is another CPU. -/
def SchedulerKnown (x : BoostThread C) : Prop :=
  match x.place with
  | .on c (.going (some d)) => c ≠ d
  | .on c _ => x.scheduler ≠ c → x.migrateTo = some x.scheduler
  | .queued c => x.scheduler ≠ c → x.migrateTo = some x.scheduler
  | .off => True

/-- The state and the flag, by where the thread is. -/
def StateOk (x : BoostThread C) : Prop :=
  match x.place with
  | .on _ _ => x.state = .running ∨ x.state = .waiting ∧ x.yielded = false
  | .queued _ => x.state = .ready
  | .off => x.state = .waiting ∧ x.yielded = true

/-- What holds of each thread. -/
structure ThreadOk (x : BoostThread C) : Prop where
  periods : x.pressurePeriods = 0 ↔ x.onClimbTree = false
  home : x.mapNode = readerHome x
  queuedReader : ∀ c, x.place = .queued c → 0 < x.wroost.readNestingDepth → x.scheduler = c
  known : SchedulerKnown x
  blocked : x.mapNode ≠ none → x.blockedTs = true → x.inBlockedTsList = true
  states : StateOk x

/-- What holds between the steps. -/
structure BoostOk (cfg : BoostConfig C T) (s : BoostSys C T) : Prop where
  thread : ∀ t, ThreadOk (s.threads t)
  climb : ∀ t, ClimbAt s t (s.threads t).scheduler
  readers : ReadersOk cfg s
  panicked : s.panicked = false

/-- The counts of the CPU have room for the locks of the thread. -/
def Fits (cfg : BoostConfig C T) (s : BoostSys C T) (c : C) (wtd : WroostThreadData) : Prop :=
  0 < wtd.readNestingDepth → ∀ id ∈ readerIds cfg.coarseFactor wtd,
    s.rqBucketCounts c id + (readerIds cfg.coarseFactor wtd).count id ≤ 255

/-! ### Readers -/

section Readers

variable [DecidableEq C] [DecidableEq T] {cfg : BoostConfig C T} {s : BoostSys C T} {c : C} {t : T}

omit [DecidableEq C] [DecidableEq T] in
theorem ReadersOk.congr {s' : BoostSys C T} (h : ReadersOk cfg s)
    (hthreads : s'.threads = s.threads)
    (hreaders : s'.readers = s.readers) (hcounts : s'.rqBucketCounts = s.rqBucketCounts) :
    ReadersOk cfg s' := by
  obtain ⟨hmem, hnodup, hsum⟩ := h
  rw [← hthreads, ← hreaders] at hmem
  rw [← hreaders] at hnodup
  rw [← hthreads, ← hreaders, ← hcounts] at hsum
  exact ⟨hmem, hnodup, hsum⟩

omit [DecidableEq C] in
/-- Replacing a record keeps the reader lists right, if the thread stays registered where it was and
its locks are the same while it is. -/
theorem ReadersOk.setThread (h : ReadersOk cfg s) {x : BoostThread C}
    (hnode : x.mapNode = (s.threads t).mapNode)
    (hdata : (s.threads t).mapNode ≠ none → x.wroost = (s.threads t).wroost) :
    ReadersOk cfg (setThread s t x) where
  mem c u := by
    rw [setThread_read s t x BoostThread.mapNode hnode]
    exact h.mem c u
  nodup := h.nodup
  counts c id := by
    rw [setThread_rqBucketCounts, h.counts c id]
    refine congrArg sum (map_congr_left fun u hu => ?_)
    by_cases hut : u = t
    · subst hut
      have hreg : (s.threads u).mapNode ≠ none := by
        rw [(h.mem c u).1 hu]
        exact some_ne_none c
      rw [setThread_threads_self, hdata hreg]
    · rw [setThread_threads_of_ne s t x hut]

/-- A thread that is not registered is added. -/
theorem ReadersOk.addReader (h : ReadersOk cfg s) (hnone : (s.threads t).mapNode = none)
    (hroom : ∀ id ∈ readerIds cfg.coarseFactor (s.threads t).wroost, s.rqBucketCounts c id +
      (readerIds cfg.coarseFactor (s.threads t).wroost).count id ≤ 255) :
    ReadersOk cfg (addReader cfg s c t) := by
  have hnot : ∀ c', t ∉ s.readers c' := by
    intro c' hmem
    rw [h.mem c' t, hnone] at hmem
    exact some_ne_none c' hmem.symm
  have hdata : ∀ u, ((Boost.addReader cfg s c t).threads u).wroost = (s.threads u).wroost :=
    setThread_read s t _ BoostThread.wroost rfl
  refine ⟨fun c' u => ?_, fun c' => ?_, fun c' id => ?_⟩
  · by_cases hc : c' = c
    · subst hc
      by_cases hu : u = t
      · subst hu
        simp [addReader]
      · simp [addReader, setThread_threads_of_ne s t _ hu, hu, h.mem c' u]
    · by_cases hu : u = t
      · subst hu
        simp [addReader, hc, hnot c', Ne.symm hc]
      · simp [Boost.addReader, hc, setThread_threads_of_ne s t _ hu, h.mem c' u]
  · by_cases hc : c' = c
    · subst hc
      simp [addReader, hnot c', h.nodup c']
    · simp [Boost.addReader, hc, h.nodup c']
  · simp only [hdata]
    by_cases hc : c' = c
    · subst hc
      simp only [addReader, update_self, map_cons, sum_cons]
      rw [percpuIncIds_apply _ _ hroom, h.counts c' id]
      exact add_comm ..
    · simp only [Boost.addReader, update_of_ne hc]
      exact h.counts c' id

/-- The counts are right after a thread has been added only if there was room. -/
theorem ReadersOk.room (h : ReadersOk cfg s) (h' : ReadersOk cfg (Boost.addReader cfg s c t))
    {id : ℕ} (hid : id ∈ readerIds cfg.coarseFactor (s.threads t).wroost) :
    s.rqBucketCounts c id +
      (readerIds cfg.coarseFactor (s.threads t).wroost).count id ≤ 255 := by
  have hdata : ∀ u, ((Boost.addReader cfg s c t).threads u).wroost = (s.threads u).wroost :=
    setThread_read s t _ BoostThread.wroost rfl
  have hcounts := h'.counts c id
  simp only [hdata] at hcounts
  simp only [Boost.addReader, update_self, map_cons, sum_cons] at hcounts
  rw [← h.counts c id] at hcounts
  have hlt := percpuIncIds_lt _ (s.rqBucketCounts c) hid
  omega

private theorem sum_erase {f : T → ℕ} {l : List T} (h : t ∈ l) :
    ((l.erase t).map f).sum + f t = (l.map f).sum := by
  have hperm := (perm_cons_erase h).map f
  rw [hperm.sum_eq, map_cons, sum_cons]
  exact add_comm ..

/-- Taking a registered thread off finds every count that it needs. -/
theorem ReadersOk.removeReader (h : ReadersOk cfg s) (hsome : (s.threads t).mapNode = some c) :
    ReadersOk cfg (removeReader cfg s c t) ∧
      (removeReader cfg s c t).threads = update s.threads t
        { s.threads t with mapNode := none, inBlockedTsList := false } ∧
      (removeReader cfg s c t).climbThreads = s.climbThreads ∧
      (removeReader cfg s c t).panicked = s.panicked ∧
      ∀ c', c' ≠ c → (removeReader cfg s c t).rqBucketCounts c' = s.rqBucketCounts c' := by
  have hmem : t ∈ s.readers c := (h.mem c t).2 hsome
  have hsum := fun id => sum_erase
    (f := fun u => (readerIds cfg.coarseFactor (s.threads u).wroost).count id) hmem
  have hdec := percpuDecIds_eq (readerIds cfg.coarseFactor (s.threads t).wroost)
    (s.rqBucketCounts c) fun id => by
      have h₁ := hsum id
      rw [h.counts c id]
      omega
  have heq : Boost.removeReader cfg s c t =
      { Boost.setThread s t { s.threads t with mapNode := none, inBlockedTsList := false } with
        rqBucketCounts := update s.rqBucketCounts c fun id =>
          s.rqBucketCounts c id - (readerIds cfg.coarseFactor (s.threads t).wroost).count id
        readers := update s.readers c ((s.readers c).erase t) } := by
    simp only [Boost.removeReader, hdec, hsome]
  rw [heq]
  refine ⟨⟨fun c' u => ?_, fun c' => ?_, fun c' id => ?_⟩, rfl, rfl, rfl, fun c' hc => ?_⟩
  · by_cases hu : u = t
    · subst hu
      by_cases hc : c' = c
      · subst hc
        simp [(h.nodup c').not_mem_erase]
      · simp [hc, h.mem c' u, hsome, Ne.symm hc]
    · by_cases hc : c' = c
      · subst hc
        simp [setThread_threads_of_ne s t _ hu, mem_erase_of_ne hu, h.mem c' u]
      · simp [setThread_threads_of_ne s t _ hu, hc, h.mem c' u]
  · by_cases hc : c' = c
    · subst hc
      simpa using (h.nodup c').erase t
    · simpa [hc] using h.nodup c'
  · simp only [setThread_read s t { s.threads t with mapNode := none, inBlockedTsList := false }
      BoostThread.wroost rfl]
    by_cases hc : c' = c
    · subst hc
      have h₁ := hsum id
      simp only [update_self]
      rw [h.counts c' id]
      omega
    · simpa [hc] using h.counts c' id
  · exact update_of_ne hc ..

end Readers

/-! ### Hooks -/

/-- The record of a thread after the hook. -/
def migrated (x : BoostThread C) (new : C) : BoostThread C :=
  if x.wroost.readNestingDepth = 0 then x
  else { x with mapNode := some new, inBlockedTsList := false }

theorem migrated_onClimbTree (x : BoostThread C) (new : C) :
    (migrated x new).onClimbTree = x.onClimbTree := by
  unfold migrated
  split <;> rfl

section Hooks

variable [DecidableEq C] [DecidableEq T] {cfg : BoostConfig C T} {s : BoostSys C T} {t : T}
  {old new : C}

/-- The hook takes a thread from the tree of the one CPU to that of the other. -/
theorem climbPostMigrateHook_spec (new : C) (hclimb : ClimbAt s t old)
    (hperiods : (s.threads t).pressurePeriods = 0 ↔ (s.threads t).onClimbTree = false) :
    ClimbAt (climbPostMigrateHook s t old new) t new ∧
      (climbPostMigrateHook s t old new).threads = s.threads ∧
      (climbPostMigrateHook s t old new).readers = s.readers ∧
      (climbPostMigrateHook s t old new).rqBucketCounts = s.rqBucketCounts ∧
      (climbPostMigrateHook s t old new).panicked = s.panicked ∧
      ∀ u, u ≠ t → ∀ c, (climbPostMigrateHook s t old new).climbThreads c u =
        s.climbThreads c u := by
  by_cases hon : (s.threads t).onClimbTree = true
  · have hold : s.climbThreads old t = true := (hclimb old).2 ⟨hon, rfl⟩
    have heq : climbPostMigrateHook s t old new = setClimb (setClimb s old t false) new t true := by
      simp [climbPostMigrateHook, hold]
    rw [heq]
    refine ⟨fun c => ?_, rfl, rfl, rfl, rfl, fun u hu c => ?_⟩
    · rw [setClimb_self, setClimb_self, setClimb_threads, setClimb_threads]
      by_cases hnew : c = new
      · simp [hnew, hon]
      by_cases hc : c = old
      · simp [hc, hc ▸ hnew]
      have hnot : s.climbThreads c t = false := by
        rw [← Bool.not_eq_true, hclimb c]
        exact fun h => hc h.2
      simp [hnew, hc, hnot]
    · rw [setClimb_of_ne _ _ _ _ hu, setClimb_of_ne _ _ _ _ hu]
  · have hoff : (s.threads t).onClimbTree = false := by simpa using hon
    have hnot : ∀ c, s.climbThreads c t = false := by
      intro c
      rw [← Bool.not_eq_true, hclimb c]
      exact fun h => hon h.1
    have heq : climbPostMigrateHook s t old new = s := by
      simp [climbPostMigrateHook, hnot old, hoff, hperiods.2 hoff]
    rw [heq]
    refine ⟨fun c => ?_, rfl, rfl, rfl, rfl, fun _ _ _ => rfl⟩
    simp [hnot c, hoff]

/-- A reader that is not blocked on a turnstile is registered with the other CPU instead. -/
theorem wroostPostMigrateHook_spec (h : ReadersOk cfg s) (hok : s.panicked = false)
    (hne : old ≠ new)
    (hnode : 0 < (s.threads t).wroost.readNestingDepth → (s.threads t).mapNode = some old)
    (hblocked : 0 < (s.threads t).wroost.readNestingDepth → (s.threads t).blockedTs = false)
    (hfits : Fits cfg s new (s.threads t).wroost) :
    ReadersOk cfg (wroostPostMigrateHook cfg s t old new) ∧
      (wroostPostMigrateHook cfg s t old new).threads =
        update s.threads t (migrated (s.threads t) new) ∧
      (wroostPostMigrateHook cfg s t old new).climbThreads = s.climbThreads ∧
      (wroostPostMigrateHook cfg s t old new).panicked = false := by
  by_cases hdepth : (s.threads t).wroost.readNestingDepth = 0
  · have heq : wroostPostMigrateHook cfg s t old new = s := by
      simp [wroostPostMigrateHook, hdepth]
    rw [heq, migrated, if_pos hdepth, update_eq_self]
    exact ⟨h, rfl, rfl, hok⟩
  have hpos : 0 < (s.threads t).wroost.readNestingDepth := Nat.pos_of_ne_zero hdepth
  obtain ⟨h₁, hthreads, hclimb, hpan, hcounts⟩ := h.removeReader (hnode hpos)
  obtain ⟨s₁, hs₁⟩ : ∃ s₁, s₁ = removeReader cfg s old t := ⟨_, rfl⟩
  rw [← hs₁] at h₁ hthreads hclimb hpan hcounts
  have hself : s₁.threads t =
      { s.threads t with mapNode := none, inBlockedTsList := false } := by
    rw [hthreads, update_self]
  have heq : wroostPostMigrateHook cfg s t old new = addReader cfg s₁ new t := by
    simp [wroostPostMigrateHook, hdepth, hblocked hpos, ← hs₁, hpan, hok]
  rw [heq]
  refine ⟨h₁.addReader (by rw [hself]) fun id hid => ?_, ?_, ?_, ?_⟩
  · rw [hself] at hid
    rw [hcounts new hne.symm, hself]
    exact hfits hpos id hid
  · rw [migrated, if_neg hdepth]
    simp [addReader, setThread, hself, hthreads, hblocked hpos]
  · simpa [addReader] using hclimb
  · simpa [addReader] using hpan.trans hok

/-- What `thread_post_migrate` leaves, for a thread whose state is all with the old CPU. -/
structure Moved (cfg : BoostConfig C T) (s s' : BoostSys C T) (t : T) (new : C) : Prop where
  readers : ReadersOk cfg s'
  threads : s'.threads = update s.threads t (migrated (s.threads t) new)
  climb : ClimbAt s' t new
  others : ∀ u, u ≠ t → ∀ c, s'.climbThreads c u = s.climbThreads c u
  panicked : s'.panicked = false

theorem threadPostMigrate_spec (h : ReadersOk cfg s) (hok : s.panicked = false)
    (hne : old ≠ new) (hclimb : ClimbAt s t old)
    (hperiods : (s.threads t).pressurePeriods = 0 ↔ (s.threads t).onClimbTree = false)
    (hnode : 0 < (s.threads t).wroost.readNestingDepth → (s.threads t).mapNode = some old)
    (hblocked : 0 < (s.threads t).wroost.readNestingDepth → (s.threads t).blockedTs = false)
    (hfits : Fits cfg s new (s.threads t).wroost) :
    Moved cfg s (threadPostMigrate cfg s t old new) t new := by
  obtain ⟨hat, hthreads, hreaders, hcounts, hpan, hothers⟩ :=
    climbPostMigrateHook_spec new hclimb hperiods
  obtain ⟨s₁, hs₁⟩ : ∃ s₁, s₁ = climbPostMigrateHook s t old new := ⟨_, rfl⟩
  rw [← hs₁] at hat hthreads hreaders hcounts hpan hothers
  have hok₁ : s₁.panicked = false := hpan.trans hok
  have h₁ : ReadersOk cfg s₁ := h.congr hthreads hreaders hcounts
  have hfits₁ : Fits cfg s₁ new (s₁.threads t).wroost := by
    rw [hthreads]
    intro hpos id hid
    rw [hcounts]
    exact hfits hpos id hid
  obtain ⟨hr, ht, hc, hp⟩ := wroostPostMigrateHook_spec h₁ hok₁ hne
    (by rwa [hthreads]) (by rwa [hthreads]) hfits₁
  have heq : threadPostMigrate cfg s t old new = wroostPostMigrateHook cfg s₁ t old new := by
    simp [threadPostMigrate, ← hs₁, hok₁]
  rw [heq]
  refine ⟨hr, ?_, fun c => ?_, fun u hu c => ?_, hp⟩
  · rw [ht, hthreads]
  · rw [hc, ht, hat c, update_self, hthreads, migrated_onClimbTree]
  · rw [hc]
    exact hothers u hu c

end Hooks

end Charmos.Boost
