import Charmos.Lib.Trace
import Charmos.Thread.DpcSpec

/-!
# Runs of deferred procedure calls

`Inv` adds to the CPUs of `DpcSpec` the enqueues that are underway: a call whose flag is set is
being pushed by exactly one enqueue, or it is in exactly one queue or batch, at one place. Every
atomic step keeps it, so it holds in every state that a run reaches, and `dpcRun_ok` reads off it
that each enqueue leads to one execution, in the order of the pushes.
-/

namespace Charmos.Dpc

open Function List Option

variable {C D K : Type}

/-- The enqueue has taken the flag of the call and has not pushed it. -/
def Call.Pushing (d : D) : Call C D → Prop
  | .clearNext _ d' | .loadHead _ d' | .storeNext _ d' _ | .cas _ d' _ => d' = d
  | _ => False

/-- The queues `q` and the batches `b` of all CPUs, and the enqueues. -/
structure Inv (s : Sys C D K) (q b : C → List D) : Prop where
  cpu : ∀ c, CpuInv s.next s.forced s.now (s.cpu c) (q c) (b c)
  nodup : ∀ c, (b c ++ q c).Nodup
  disjoint : ∀ c c' d, d ∈ b c ++ q c → d ∈ b c' ++ q c' → c = c'
  pushing : ∀ k d, (s.call k).Pushing d → ∀ c, d ∉ b c ++ q c
  pushing_inj : ∀ k k' d, (s.call k).Pushing d → (s.call k').Pushing d → k = k'
  linked : ∀ k c d old, s.call k = .cas c d old → s.next d = old
  enqueued : ∀ d, s.enqueued d = true ↔ (∃ k, (s.call k).Pushing d) ∨ ∃ c, d ∈ b c ++ q c
  count : ∀ d, s.enqueues d = s.executions d + if s.enqueued d then 1 else 0

/-- The call is in the queue of the CPU. -/
def Queued (s : Sys C D K) (c : C) (d : D) : Prop :=
  ∃ l, LinkChain s.next (s.cpu c).head l ∧ d ∈ l

/-- The call is in a batch that was stolen on the CPU. -/
def Stolen (s : Sys C D K) (c : C) (d : D) : Prop :=
  ∃ f ∈ (s.cpu c).frames, ∃ l, f.Batch s.next l ∧ d ∈ l

/-- The call is being pushed, queued or in a stolen batch. -/
def Pending (s : Sys C D K) (d : D) : Prop :=
  (∃ k, (s.call k).Pushing d) ∨ ∃ c, Queued s c d ∨ Stolen s c d

namespace Inv

variable {s s' : Sys C D K} {q b : C → List D} {c : C} {d : D}

theorem init : Inv (Sys.init : Sys C D K) (fun _ => []) (fun _ => []) where
  cpu _ :=
    { chain := rfl
      holder := by simp [Sys.init]
      below := List.Pairwise.nil
      batch := by simp [Sys.init]
      idle := fun _ => rfl
      log := rfl
      time := by simp [Sys.init]
      late := by simp [Sys.init] }
  nodup _ := nodup_nil
  disjoint _ _ _ hd := by simp at hd
  pushing _ _ hpush := hpush.elim
  pushing_inj _ _ _ hpush := hpush.elim
  linked _ _ _ _ hcall := by simp [Sys.init] at hcall
  enqueued d := by simp [Sys.init, Call.Pushing]
  count _ := rfl

theorem queued_iff (h : Inv s q b) : Queued s c d ↔ d ∈ q c := by
  constructor
  · rintro ⟨l, hl, hd⟩
    rwa [(h.cpu c).chain.unique hl]
  · exact fun hd => ⟨q c, (h.cpu c).chain, hd⟩

theorem stolen_iff (h : Inv s q b) : Stolen s c d ↔ d ∈ b c := by
  constructor
  · rintro ⟨f, hf, l, hl, hd⟩
    have hholds : f.Holds := by
      cases f <;> trivial
    rwa [((h.cpu c).batch f hf hholds).unique hl]
  · intro hd
    have hexec : (s.cpu c).executing = true := by
      by_contra hne
      rw [(h.cpu c).idle (by simpa using hne)] at hd
      cases hd
    obtain ⟨f, hf, hholds⟩ := (h.cpu c).holder.mp hexec
    exact ⟨f, hf, b c, (h.cpu c).batch f hf hholds, hd⟩

theorem pending_iff (h : Inv s q b) : Pending s d ↔ s.enqueued d = true := by
  rw [h.enqueued]
  refine or_congr .rfl (exists_congr fun c => ?_)
  rw [h.queued_iff, h.stolen_iff, mem_append, or_comm]

/-! ### Steps of the drains -/

variable [DecidableEq C] {rest : List (Frame D)} {next' : D → Option D} {p' : Cpu D}

/-- A step of one CPU that neither gains nor loses a call. -/
theorem setCpu (h : Inv s q b) (c : C) {q' b' : List D} (hmem : ∀ d, d ∈ b' ++ q' ↔ d ∈ b c ++ q c)
    (hnodup : (b' ++ q').Nodup) (hnext : ∀ d, d ∉ b c ++ q c → next' d = s.next d)
    (hcpu : CpuInv next' s.forced (s.now + 1) p' q' b') :
    Inv { s with cpu := update s.cpu c p', next := next', now := s.now + 1 }
      (update q c q') (update b c b') := by
  have hall : ∀ c' d, d ∈ update b c b' c' ++ update q c q' c' ↔
      d ∈ b c' ++ q c' := by
    intro c' d
    by_cases hc : c' = c
    · subst hc
      rw [update_self, update_self]
      exact hmem d
    · rw [update_of_ne hc, update_of_ne hc]
  refine ⟨fun c' => ?_, fun c' => ?_, ?_, ?_, h.pushing_inj, ?_, ?_, h.count⟩
  · by_cases hc : c' = c
    · subst hc
      simpa only [update_self] using hcpu
    · simp only [update_of_ne hc]
      refine (h.cpu c').mono (fun d hd => hnext d fun hd' => hc (h.disjoint c' c d hd hd'))
        (fun d _ n hn => .inl hn) (Nat.le_succ _)
  · by_cases hc : c' = c
    · subst hc
      simpa only [update_self] using hnodup
    · simpa only [update_of_ne hc] using h.nodup c'
  · intro c₁ c₂ d hd₁ hd₂
    exact h.disjoint c₁ c₂ d ((hall c₁ d).mp hd₁) ((hall c₂ d).mp hd₂)
  · intro k d hpush c' hd
    exact h.pushing k d hpush c' ((hall c' d).mp hd)
  · intro k c' d old hcall
    have hcall : s.call k = .cas c' d old := hcall
    have hpush : (s.call k).Pushing d := by simp only [hcall, Call.Pushing]
    exact (hnext d (h.pushing k d hpush c)).trans (h.linked k c' d old hcall)
  · intro d
    simp only [hall]
    exact h.enqueued d

/-- A step of one CPU that changes neither the queue nor the batch nor the links. -/
theorem setFrames (h : Inv s q b) (c : C)
    (hcpu : CpuInv s.next s.forced (s.now + 1) p' (q c) (b c)) :
    ∃ q' b', Inv { s with cpu := update s.cpu c p', now := s.now + 1 } q' b' :=
  ⟨_, _, h.setCpu c (fun _ => .rfl) (h.nodup c) (fun _ _ => rfl) hcpu⟩

/-- The queue is stolen. -/
theorem steal (h : Inv s q b) (hframes : (s.cpu c).frames = .steal :: rest)
    (hhead : (s.cpu c).head = some d) :
    ∃ q' b', Inv { s with
      cpu := update s.cpu c
        { s.cpu c with head := none, frames := .revLoad d none :: rest }
      now := s.now + 1 } q' b' := by
  have hcpu := h.cpu c
  have hempty : b c = [] := hcpu.batch .steal (by simp [hframes]) trivial
  have hchain := hcpu.chain
  rw [hhead] at hchain
  have hwork : CpuInv s.next s.forced (s.now + 1)
      { s.cpu c with head := none, frames := .revLoad d none :: rest } [] (q c).reverse :=
    hcpu.work hframes trivial (.revLoad d none) trivial rfl ⟨q c, [], hchain, rfl, by simp⟩
      (by simpa [hempty] using hcpu.log) (by simp)
  have hnodup := h.nodup c
  exact ⟨_, _, h.setCpu c (by simp [hempty]) (by simpa [hempty] using hnodup)
    (fun _ _ => rfl) hwork⟩

variable [DecidableEq D] {nxt : Option D}

/-- A node is taken over from the stolen stack to the reversed list. -/
theorem revStore (h : Inv s q b) {rev : Option D}
    (hframes : (s.cpu c).frames = .revStore d rev nxt :: rest) :
    ∃ q' b', Inv { s with
      cpu := update s.cpu c
        { s.cpu c with
          frames := (match nxt with
            | some n => .revLoad n (some d)
            | none => .loadNext d) :: rest }
      next := update s.next d rev
      now := s.now + 1 } q' b' := by
  have hcpu := h.cpu c
  obtain ⟨l₁, l₂, h₁, h₂, hb⟩ : (Frame.revStore d rev nxt).Batch s.next (b c) :=
    hcpu.batch _ (by simp [hframes]) trivial
  have hnodup := h.nodup c
  have hd : d ∈ b c := by simp [hb]
  have hnot : d ∉ l₁ ∧ d ∉ l₂ ∧ d ∉ q c := by
    grind
  have hd₂ : LinkChain (update s.next d rev) (some d) (d :: l₂) :=
    ⟨rfl, by rw [update_self]; exact h₂.update hnot.2.1 rev⟩
  have hother : ∀ d', d' ∉ b c ++ q c → update s.next d rev d' = s.next d' := by
    intro d' hd'
    refine update_of_ne (fun heq => hd' ?_) _ _
    rw [heq]
    exact mem_append_left _ hd
  refine ⟨_, _, h.setCpu c (fun _ => .rfl) hnodup hother (hcpu.work hframes trivial _ ?_
    (hcpu.chain.update hnot.2.2 rev) ?_ hcpu.log (fun _ hd' => hd'))⟩
  · cases nxt <;> trivial
  cases nxt with
  | none =>
    obtain rfl := LinkChain.none_iff.mp h₁
    rw [hb]
    exact hd₂
  | some n => exact ⟨l₁, d :: l₂, h₁.update hnot.1 rev, hd₂, by simp [hb]⟩

/-- An execution begins. -/
theorem clear (h : Inv s q b) {it : D} (hframes : (s.cpu c).frames = .clear it nxt :: rest) :
    ∃ q' b', Inv { s with
      cpu := update s.cpu c
        { s.cpu c with frames := .run nxt :: rest, begun := (s.cpu c).begun ++ [it] }
      enqueued := update s.enqueued it false
      executions := update s.executions it (s.executions it + 1)
      now := s.now + 1 } q' b' := by
  have hcpu := h.cpu c
  obtain ⟨l, hb, hl⟩ : (Frame.clear it nxt).Batch s.next (b c) :=
    hcpu.batch _ (by simp [hframes]) trivial
  have hnodup := h.nodup c
  rw [hb, cons_append, nodup_cons] at hnodup
  have hit : it ∈ b c ++ q c := by simp [hb]
  have hset : s.enqueued it = true := (h.enqueued it).mpr (.inr ⟨c, hit⟩)
  -- the other calls are where they were, and this one is nowhere
  have hmem : ∀ c' d, d ∈ update b c l c' ++ q c' ↔ d ∈ b c' ++ q c' ∧ d ≠ it := by
    intro c' d
    by_cases hc : c' = c
    · subst hc
      grind
    · rw [update_of_ne hc]
      refine ⟨fun hd => ⟨hd, ?_⟩, fun hd => hd.1⟩
      rintro rfl
      exact hc (h.disjoint c' c d hd hit)
  refine ⟨q, update b c l, fun c' => ?_, fun c' => ?_, ?_, ?_, h.pushing_inj, h.linked, ?_,
    ?_⟩
  · by_cases hc : c' = c
    · subst hc
      simp only [update_self]
      refine hcpu.work hframes trivial (.run nxt) trivial hcpu.chain hl ?_ (fun _ hd => hd)
      rw [hcpu.log, hb]
      simp
    · simp only [update_of_ne hc]
      exact (h.cpu c').mono (fun _ _ => rfl) (fun _ _ _ hn => .inl hn) (Nat.le_succ _)
  · by_cases hc : c' = c
    · subst hc
      rw [update_self]
      exact hnodup.2
    · rw [update_of_ne hc]
      exact h.nodup c'
  · intro c₁ c₂ d hd₁ hd₂
    exact h.disjoint c₁ c₂ d ((hmem c₁ d).mp hd₁).1 ((hmem c₂ d).mp hd₂).1
  · intro k d hpush c' hd
    exact h.pushing k d hpush c' ((hmem c' d).mp hd).1
  · intro d
    simp only [hmem]
    by_cases hd : d = it
    · subst hd
      simp only [update_self, Bool.false_eq_true, ne_eq, not_true_eq_false, and_false,
        exists_false, or_false, false_iff]
      rintro ⟨k, hpush⟩
      exact h.pushing k d hpush c hit
    · simp only [update_of_ne hd, ne_eq, hd, not_false_eq_true, and_true]
      exact h.enqueued d
  · intro d
    have hcount := h.count d
    by_cases hd : d = it
    · subst hd
      rw [hset] at hcount
      simpa using hcount
    · simpa only [update_of_ne hd] using hcount

/-- Every step of a drain keeps the invariant. -/
theorem drain (h : Inv s q b) (c : C) :
    match drainStep s c with
    | some s' => ∃ q' b', Inv { s' with now := s.now + 1 } q' b'
    | none => True := by
  have hcpu := h.cpu c
  cases hframes : (s.cpu c).frames with
  | nil => simp only [drainStep, hframes]
  | cons f rest =>
    have hmem : f ∈ (s.cpu c).frames := by simp [hframes]
    cases f <;> simp only [drainStep, hframes]
    case loadResched =>
      refine h.setFrames c (hcpu.goto hframes id _ ?_ ?_ ?_ ?_ rfl) <;>
        cases (s.cpu c).inResched <;> simp [Frame.Holds, Frame.Took, Frame.cleared]
    case guard =>
      rcases Bool.eq_false_or_eq_true (s.cpu c).executing with hexec | hexec
      · rw [if_pos hexec]
        exact h.setFrames c (hcpu.goto hframes id (.ret none) id (fun ht => ht.elim)
          (by simp [Frame.cleared]) (by simp) hexec.symm)
      · rw [if_neg (by simp [hexec])]
        exact h.setFrames c (hcpu.acquire hframes hexec)
    case steal =>
      have hempty : b c = [] := hcpu.batch _ hmem trivial
      have hchain := hcpu.chain
      rcases eq_none_or_eq_some (s.cpu c).head with hhead | ⟨d, hhead⟩
      · simp only [hhead] at hchain ⊢
        exact h.setFrames c (hcpu.work hframes trivial .loadHead trivial hchain hempty hcpu.log
          (fun _ hd => hd))
      · simp only [hhead]
        exact h.steal hframes hhead
    case revLoad d rev =>
      obtain ⟨l₁, l₂, h₁, h₂, hb⟩ : (Frame.revLoad d rev).Batch s.next (b c) :=
        hcpu.batch _ hmem trivial
      obtain ⟨l, rfl, hl⟩ := h₁.some_cases
      exact h.setFrames c (hcpu.work hframes trivial (.revStore d rev (s.next d)) trivial hcpu.chain
        ⟨l, l₂, hl, h₂, hb⟩ hcpu.log (fun _ hd => hd))
    case revStore d rev nxt =>
      exact h.revStore hframes
    case loadNext it =>
      have hbatch : LinkChain s.next (some it) (b c) := hcpu.batch _ hmem trivial
      obtain ⟨l, hb, hl⟩ := hbatch.some_cases
      exact h.setFrames c (hcpu.work hframes trivial (.clear it (s.next it)) trivial hcpu.chain
        ⟨l, hb, hl⟩ hcpu.log (fun _ hd => hd))
    case clear it nxt =>
      exact h.clear hframes
    case run nxt =>
      have hbatch : LinkChain s.next nxt (b c) := hcpu.batch _ hmem trivial
      refine h.setFrames c (hcpu.work hframes trivial _ ?_ hcpu.chain ?_ hcpu.log (fun _ hd => hd))
      · cases nxt <;> trivial
      · cases nxt with
        | none => exact LinkChain.none_iff.mp hbatch
        | some n => exact hbatch
    case loadHead =>
      have hbatch : b c = [] := hcpu.batch _ hmem trivial
      refine h.setFrames c (hcpu.work hframes trivial _ ?_ hcpu.chain ?_ hcpu.log
        (fun _ hd => hd)) <;>
        cases (s.cpu c).head <;> trivial
    case release =>
      exact h.setFrames c (hcpu.release hframes)
    case recheck t =>
      have ht := hcpu.time _ hmem t rfl
      have hcleared : ∀ t', some t = some t' → t' < s.now + 1 := by
        rintro t' ⟨rfl⟩
        omega
      rcases eq_none_or_eq_some (s.cpu c).head with hhead | ⟨d, hhead⟩
      · have hempty : q c = [] := by
          have hchain := hcpu.chain
          rw [hhead] at hchain
          exact LinkChain.none_iff.mp hchain
        rw [if_neg (by simp [hhead])]
        exact h.setFrames c (hcpu.goto hframes id (.ret (some t)) id (fun _ => trivial) hcleared
          (by simp [hempty]) rfl)
      · rw [if_pos (by simp [hhead])]
        exact h.setFrames c (hcpu.goto hframes id (.reguard t) id (fun _ => trivial) hcleared
          (by simp) rfl)
    case reguard t =>
      have hexec : (s.cpu c).executing = false := by
        -- nobody below holds the guard
        by_contra hne
        obtain ⟨g, hg, hholds⟩ := hcpu.holder.mp (by simpa using hne)
        rw [hframes] at hg
        rcases mem_cons.mp hg with rfl | hg
        · exact hholds
        · exact hcpu.rest_not_holds hframes trivial g hg hholds
      simp only [hexec]
      exact h.setFrames c (hcpu.acquire hframes hexec)
    case ret t =>
      exact h.setFrames c (hcpu.pop hframes id)

/-! ### Steps of the enqueues -/

variable [DecidableEq K] {k : K}

omit [DecidableEq C] [DecidableEq D] in
/-- An enqueue goes on, and is pushing the same call as before or none. -/
theorem setCall (h : Inv s q b) {old : Call C D} (hold : s.call k = old) (pc : Call C D)
    {forced' : D → Option ℕ} (hpush : ∀ d, pc.Pushing d ↔ old.Pushing d)
    (hnext : ∀ d, ¬old.Pushing d → next' d = s.next d)
    (hlinked : ∀ c d old, pc = .cas c d old → next' d = old)
    (hforced : ∀ d n, forced' d = some n → s.forced d = some n ∨ s.now ≤ n) :
    Inv { s with
      call := update s.call k pc
      next := next'
      forced := forced'
      now := s.now + 1 } q b := by
  subst hold
  have hcall : ∀ k' d, (update s.call k pc k').Pushing d ↔ (s.call k').Pushing d := by
    intro k' d
    by_cases hk : k' = k
    · subst hk
      rw [update_self]
      exact hpush d
    · rw [update_of_ne hk]
  refine ⟨fun c => ?_, h.nodup, h.disjoint, ?_, ?_, ?_, ?_, h.count⟩
  · refine (h.cpu c).mono (fun d hd => hnext d fun hp => h.pushing k d hp c hd)
      (fun d _ n hn => hforced d n hn) (Nat.le_succ _)
  · exact fun k' d hp => h.pushing k' d ((hcall k' d).mp hp)
  · exact fun k₁ k₂ d h₁ h₂ => h.pushing_inj k₁ k₂ d ((hcall k₁ d).mp h₁) ((hcall k₂ d).mp h₂)
  · intro k' c d old hk'
    by_cases hk : k' = k
    · subst hk
      simp only [update_self] at hk'
      exact hlinked c d old hk'
    · simp only [update_of_ne hk] at hk'
      have hpd : (s.call k').Pushing d := by simp only [hk', Call.Pushing]
      exact (hnext d fun hp => hk (h.pushing_inj k' k d hpd hp)).trans (h.linked k' c d old hk')
  · intro d
    simp only [hcall]
    exact h.enqueued d

omit [DecidableEq C] in
/-- An enqueue takes the flag. -/
theorem exchange (h : Inv s q b) (hcall : s.call k = .exchange c d) (hflag : s.enqueued d = false) :
    Inv { s with
      enqueued := update s.enqueued d true
      enqueues := update s.enqueues d (s.enqueues d + 1)
      call := update s.call k (.clearNext c d)
      now := s.now + 1 } q b := by
  have hnone : ¬((∃ k, (s.call k).Pushing d) ∨ ∃ c, d ∈ b c ++ q c) := by
    rw [← h.enqueued d, hflag]
    simp
  push Not at hnone
  have hpush : ∀ k' d', (update s.call k (.clearNext c d) k').Pushing d' ↔
      (s.call k').Pushing d' ∨ k' = k ∧ d' = d := by
    intro k' d'
    by_cases hk : k' = k
    · subst hk
      rw [update_self, hcall]
      simp only [Call.Pushing, false_or, true_and]
      exact eq_comm
    · simp [hk]
  refine ⟨fun c' => ?_, h.nodup, h.disjoint, ?_, ?_, ?_, ?_, ?_⟩
  · exact (h.cpu c').mono (fun _ _ => rfl) (fun _ _ _ hn => .inl hn) (Nat.le_succ _)
  · intro k' d' hp c'
    rcases (hpush k' d').mp hp with hp | ⟨rfl, rfl⟩
    · exact h.pushing k' d' hp c'
    · exact hnone.2 c'
  · intro k₁ k₂ d' h₁ h₂
    rcases (hpush k₁ d').mp h₁ with h₁ | ⟨hk₁, hd₁⟩ <;>
      rcases (hpush k₂ d').mp h₂ with h₂ | ⟨hk₂, hd₂⟩
    · exact h.pushing_inj k₁ k₂ d' h₁ h₂
    · rw [hd₂] at h₁
      exact absurd h₁ (hnone.1 k₁)
    · rw [hd₁] at h₂
      exact absurd h₂ (hnone.1 k₂)
    · rw [hk₁, hk₂]
  · intro k' c' d' old hk'
    by_cases hk : k' = k
    · subst hk
      simp only [update_self] at hk'
      cases hk'
    · simp only [update_of_ne hk] at hk'
      exact h.linked k' c' d' old hk'
  · intro d'
    simp only [hpush]
    by_cases hd : d' = d
    · subst hd
      simp only [update_self, true_iff]
      exact .inl ⟨k, .inr ⟨rfl, trivial⟩⟩
    · simp only [update_of_ne hd, hd, and_false, or_false]
      exact h.enqueued d'
  · intro d'
    have hcount := h.count d'
    by_cases hd : d' = d
    · subst hd
      rw [hflag] at hcount
      simpa using hcount
    · simpa only [update_of_ne hd] using hcount

/-- An enqueue pushes its call. -/
theorem cas (h : Inv s q b) {old : Option D} (n : ℕ) (hcall : s.call k = .cas c d old)
    (hhead : (s.cpu c).head = old) :
    Inv { s with
      cpu := update s.cpu c
        { s.cpu c with head := some d, pushed := (s.cpu c).pushed ++ [d] }
      forced := update s.forced d none
      call := update s.call k (.force c d n)
      now := s.now + 1 } (update q c (d :: q c)) b := by
  have hpd : (s.call k).Pushing d := by simp only [hcall, Call.Pushing]
  have hout := h.pushing k d hpd
  have hmem : ∀ c' d', d' ∈ b c' ++ update q c (d :: q c) c' ↔
      d' ∈ b c' ++ q c' ∨ c' = c ∧ d' = d := by
    intro c' d'
    by_cases hc : c' = c
    · subst hc
      simp only [update_self, mem_append, mem_cons, true_and]
      tauto
    · simp [hc]
  have hpush : ∀ k' d', (update s.call k (.force c d n) k').Pushing d' ↔
      (s.call k').Pushing d' ∧ d' ≠ d := by
    intro k' d'
    by_cases hk : k' = k
    · subst hk
      simp only [update_self, hcall, Call.Pushing, false_iff, not_and, not_not]
      exact fun heq => heq.symm
    · rw [update_of_ne hk]
      refine ⟨fun hp => ⟨hp, ?_⟩, fun hp => hp.1⟩
      rintro rfl
      exact hk (h.pushing_inj k' k d' hp hpd)
  have hforced : ∀ d', d' ≠ d → update s.forced d none d' = s.forced d' := fun d' hd =>
    update_of_ne hd _ _
  refine ⟨fun c' => ?_, fun c' => ?_, ?_, ?_, ?_, ?_, ?_, h.count⟩
  · by_cases hc : c' = c
    · subst hc
      simp only [update_self]
      refine (h.cpu c').enqueue ((h.linked k c' d old hcall).trans hhead.symm)
        (update_self ..) fun d' hd' => hforced d' ?_
      rintro rfl
      exact hout c' (mem_append_right _ hd')
    · simp only [update_of_ne hc]
      refine (h.cpu c').mono (fun _ _ => rfl) (fun d' hd' m hm => .inl ?_) (Nat.le_succ _)
      rwa [hforced d' ?_] at hm
      rintro rfl
      exact hout c' (mem_append_right _ hd')
  · by_cases hc : c' = c
    · subst hc
      rw [update_self]
      exact nodup_middle.mpr (nodup_cons.mpr ⟨hout c', h.nodup c'⟩)
    · rw [update_of_ne hc]
      exact h.nodup c'
  · intro c₁ c₂ d' h₁ h₂
    rcases (hmem c₁ d').mp h₁ with h₁ | ⟨hc₁, hd₁⟩ <;>
      rcases (hmem c₂ d').mp h₂ with h₂ | ⟨hc₂, hd₂⟩
    · exact h.disjoint c₁ c₂ d' h₁ h₂
    · rw [hd₂] at h₁
      exact absurd h₁ (hout c₁)
    · rw [hd₁] at h₂
      exact absurd h₂ (hout c₂)
    · rw [hc₁, hc₂]
  · intro k' d' hp c' hd'
    obtain ⟨hp, hne⟩ := (hpush k' d').mp hp
    rcases (hmem c' d').mp hd' with hd' | ⟨-, rfl⟩
    · exact h.pushing k' d' hp c' hd'
    · exact hne rfl
  · intro k₁ k₂ d' h₁ h₂
    exact h.pushing_inj k₁ k₂ d' ((hpush k₁ d').mp h₁).1 ((hpush k₂ d').mp h₂).1
  · intro k' c' d' old' hk'
    by_cases hk : k' = k
    · subst hk
      simp only [update_self] at hk'
      cases hk'
    · simp only [update_of_ne hk] at hk'
      exact h.linked k' c' d' old' hk'
  · intro d'
    rw [h.enqueued d']
    simp only [hpush, hmem]
    by_cases hd : d' = d
    · subst hd
      simp only [ne_eq, not_true_eq_false, and_false, exists_false, and_true, false_or]
      exact ⟨fun _ => ⟨c, .inr rfl⟩, fun _ => .inl ⟨k, hpd⟩⟩
    · simp [hd]

/-- Every step of an enqueue keeps the invariant. -/
theorem call (h : Inv s q b) (k : K) (spurious : Bool) :
    match callStep s k spurious with
    | some s' => ∃ q' b', Inv { s' with now := s.now + 1 } q' b'
    | none => True := by
  have hkeep : ∀ (d : D) n, s.forced d = some n → s.forced d = some n ∨ s.now ≤ n :=
    fun _ _ hn => .inl hn
  cases hcall : s.call k <;> simp only [callStep, hcall]
  case exchange c d =>
    rcases Bool.eq_false_or_eq_true (s.enqueued d) with hflag | hflag
    · rw [if_pos hflag]
      exact ⟨q, b, h.setCall hcall (.ret false) (fun _ => .rfl) (fun _ _ => rfl)
        nofun hkeep⟩
    · rw [if_neg (by simp [hflag])]
      exact ⟨q, b, h.exchange hcall hflag⟩
  case clearNext c d =>
    refine ⟨q, b, h.setCall hcall (.loadHead c d) (fun _ => .rfl) (fun d' hd' => ?_)
      nofun hkeep⟩
    exact update_of_ne (fun heq => hd' heq.symm) _ _
  case loadHead c d =>
    exact ⟨q, b, h.setCall hcall (.storeNext c d (s.cpu c).head) (fun _ => .rfl)
      (fun _ _ => rfl) nofun hkeep⟩
  case storeNext c d old =>
    refine ⟨q, b, h.setCall hcall (.cas c d old) (fun _ => .rfl) (fun d' hd' => ?_)
      (fun c' d' old' hpc => ?_) hkeep⟩
    · exact update_of_ne (fun heq => hd' heq.symm) _ _
    · cases hpc
      exact update_self ..
  case cas c d old =>
    by_cases hswap : (s.cpu c).head = old ∧ spurious = false
    · rw [if_pos hswap]
      exact ⟨_, _, h.cas (s.enqueues d) hcall hswap.1⟩
    · rw [if_neg hswap]
      exact ⟨q, b, h.setCall hcall (.loadHead c d) (fun _ => .rfl) (fun _ _ => rfl)
        nofun hkeep⟩
  case force c d n =>
    refine ⟨q, b, h.setCall hcall (.ret true) (fun _ => .rfl) (fun _ _ => rfl)
      nofun fun d' m hm => ?_⟩
    split_ifs at hm with heq
    · by_cases hd : d' = d
      · subst hd
        simp only [update_self] at hm
        exact .inr (le_of_eq (some.inj hm))
      · simp only [update_of_ne hd] at hm
        exact .inl hm
    · exact .inl hm

/-- Every step keeps the invariant. -/
theorem step (h : Inv s q b) {a : Act C D K} (hstep : dpcStep s a = some s') :
    ∃ q' b', Inv s' q' b' := by
  obtain ⟨s₁, hs₁, rfl⟩ := map_eq_some_iff.mp hstep
  cases a with
  | enqueue k c d =>
    cases hcall : s.call k with
    | idle | ret r =>
      simp only [hcall] at hs₁
      obtain ⟨⟩ := hs₁
      exact ⟨q, b, h.setCall hcall (.exchange c d) (fun _ => .rfl) (fun _ _ => rfl) nofun
        fun _ _ hn => .inl hn⟩
    | _ => simp [hcall] at hs₁
  | call k spurious =>
    have hcall := h.call k spurious
    rwa [show callStep s k spurious = some s₁ from hs₁] at hcall
  | interrupt c =>
    obtain ⟨⟩ := hs₁
    exact h.setFrames c (h.cpu c).push
  | drain c =>
    have hdrain := h.drain c
    rwa [show drainStep s c = some s₁ from hs₁] at hdrain
  | setResched c value =>
    obtain ⟨⟩ := hs₁
    have hcpu := (h.cpu c).mono (fun _ _ => rfl) (fun _ _ _ hn => .inl hn) (Nat.le_succ s.now)
    exact h.setFrames c { hcpu with }

theorem reachable (hs : Reachable s) : ∃ q b, Inv s q b := by
  induction hs with
  | refl => exact ⟨_, _, init⟩
  | tail _ hstep ih =>
    obtain ⟨q, b, h⟩ := ih
    obtain ⟨a, ha⟩ := hstep
    exact h.step ha

end Inv

variable [DecidableEq C] [DecidableEq D] [DecidableEq K] {s : Sys C D K}

/-! ### What the users of deferred procedure calls see -/

/-- In every state that a run reaches: the enqueues of a call are its executions, and one more while
it is being pushed, queued or in a stolen batch; an enqueue that finds the flag set has an earlier
one whose execution has not begun; on each CPU the executions are the pushes, in the same order; and
when a drain that took the guard returns, the queue is empty or has a call whose pusher has not
forced the run yet or did so after the drain cleared the guard. -/
theorem dpcRun_ok (hs : Reachable s) :
    (∀ d, (Pending s d → s.enqueues d = s.executions d + 1) ∧
      (¬Pending s d → s.enqueues d = s.executions d)) ∧
    (∀ k c d spurious s', s.call k = .exchange c d → dpcStep s (.call k spurious) = some s' →
      s'.call k = .ret false → s.executions d < s.enqueues d) ∧
    (∀ c, (s.cpu c).begun <+: (s.cpu c).pushed) ∧
    ∀ c t, .ret (some t) ∈ (s.cpu c).frames → (s.cpu c).head = none ∨
      ∃ d, Queued s c d ∧ ∀ n, s.forced d = some n → t < n := by
  obtain ⟨q, b, h⟩ := Inv.reachable hs
  refine ⟨fun d => ?_, ?_, fun c => ?_, fun c t ht => ?_⟩
  · have hcount := h.count d
    rw [h.pending_iff]
    refine ⟨fun hflag => ?_, fun hflag => ?_⟩
    · rwa [if_pos hflag] at hcount
    · rwa [if_neg hflag] at hcount
  · intro k c d spurious s' hcall hstep hret
    have hcount := h.count d
    rcases Bool.eq_false_or_eq_true (s.enqueued d) with hflag | hflag
    · rw [if_pos hflag] at hcount
      omega
    -- the enqueue takes the flag and goes on
    simp only [dpcStep, callStep, hcall, hflag, Bool.false_eq_true, ↓reduceIte, map_some,
      some.injEq] at hstep
    rw [← hstep] at hret
    simp at hret
  · rw [(h.cpu c).log, append_assoc]
    exact prefix_append _ _
  · have hchain := (h.cpu c).chain
    cases hq : q c with
    | nil =>
      rw [hq] at hchain
      exact .inl hchain
    | cons d l =>
      have hd : d ∈ q c := by simp [hq]
      exact .inr ⟨d, h.queued_iff.mpr hd, (h.cpu c).late t ht d hd⟩

/-- The state after a list of actions, if they are possible. -/
def trace (acts : List (Act C D K)) : Option (Sys C D K) :=
  acts.foldlM dpcStep Sys.init

theorem trace_reachable {acts : List (Act C D K)} (h : trace acts = some s) : Reachable s := by
  let run (s : Sys C D K) (acts : List (Act C D K)) := acts.foldlM dpcStep s
  have h : run Sys.init acts = some s := h
  exact reflTransGen_of_trace h fun _ a _ hs => ⟨a, hs⟩

/-- Two calls are enqueued on one CPU at the same time, and one on another CPU. Interrupts execute
those of the first CPU in their order. -/
theorem dpcRun_ok_two : ∃ s : Sys (Fin 2) (Fin 3) (Fin 2), Reachable s ∧
    (s.cpu 0).begun = [1, 0] ∧ (s.cpu 1).pushed = [2] ∧ (s.cpu 0).begun <+: (s.cpu 0).pushed := by
  have hobs : (trace ([.enqueue 0 0 0, .call 0 false, .enqueue 1 0 1] ++
      replicate 6 (.call 1 false) ++ replicate 5 (.call 0 false) ++ [.enqueue 1 1 2] ++
      replicate 6 (.call 1 false) ++ [.interrupt 0] ++ replicate 14 (.drain 0) :
        List (Act (Fin 2) (Fin 3) (Fin 2)))).map
      (fun s => ((s.cpu 0).begun, (s.cpu 1).pushed)) = some ([1, 0], [2]) := by decide +kernel
  obtain ⟨s, hs, hobs⟩ := map_eq_some_iff.mp hobs
  have hreach := trace_reachable hs
  exact ⟨s, hreach, (Prod.mk.inj hobs).1, (Prod.mk.inj hobs).2, (dpcRun_ok hreach).2.2.1 0⟩

end Charmos.Dpc
