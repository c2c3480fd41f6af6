import Charmos.Thread.Dpc

/-!
# The queues of deferred procedure calls

At every moment a CPU has a list of calls in its queue, newest first, and a list of calls that were
stolen and not executed yet, in the order of execution. `CpuInv` relates the two lists to the
memory, to the frames of the drains and to the history of the CPU: what was pushed is what has
begun, then the stolen calls, then the queue. A frame that has taken the guard has no other holder
of the guard below it, which is why the second exchange on the guard never fails.
-/

namespace Charmos.Dpc

open List

variable {D : Type}

namespace Frame

/-- The drain holds the guard. -/
def Holds : Frame D → Prop
  | loadResched | guard | recheck _ | reguard _ | ret _ => False
  | _ => True

/-- The drain holds the guard or has held it. -/
def Took : Frame D → Prop
  | loadResched | guard | ret none => False
  | _ => True

/-- When the drain cleared the guard. -/
def cleared : Frame D → Option ℕ
  | recheck t | reguard t => some t
  | ret t => t
  | _ => none

/-- The calls that the drain has stolen and not executed, in the order in which it executes them. -/
def Batch (next : D → Option D) : Frame D → List D → Prop
  | steal, b | loadHead, b | release, b => b = []
  | revLoad list rev, b =>
    ∃ l₁ l₂, LinkChain next (some list) l₁ ∧ LinkChain next rev l₂ ∧ b = l₁.reverse ++ l₂
  | revStore list rev nxt, b =>
    ∃ l₁ l₂, LinkChain next nxt l₁ ∧ LinkChain next rev l₂ ∧ b = (list :: l₁).reverse ++ l₂
  | loadNext it, b => LinkChain next (some it) b
  | clear it nxt, b => ∃ l, b = it :: l ∧ LinkChain next nxt l
  | run nxt, b => LinkChain next nxt b
  | _, _ => False

variable {f : Frame D} {next next' : D → Option D} {b : List D}

theorem Holds.took (h : f.Holds) : f.Took := by
  cases f <;> simp_all [Holds, Took]

theorem Batch.congr (h : f.Batch next b) (heq : ∀ d ∈ b, next' d = next d) : f.Batch next' b := by
  cases f with
  | revLoad list rev | revStore list rev nxt =>
    obtain ⟨l₁, l₂, h₁, h₂, rfl⟩ := h
    exact ⟨l₁, l₂, h₁.congr fun a ha => heq a (by simp [ha]),
      h₂.congr fun a ha => heq a (by simp [ha]), rfl⟩
  | loadNext it | run nxt => exact LinkChain.congr h heq
  | clear it nxt =>
    obtain ⟨l, rfl, hl⟩ := h
    exact ⟨l, rfl, hl.congr fun a ha => heq a (mem_cons_of_mem it ha)⟩
  | _ => exact h

/-- A frame has one list of stolen calls. -/
theorem Batch.unique {b' : List D} (h : f.Batch next b) (h' : f.Batch next b') : b = b' := by
  cases f with
  | revLoad list rev | revStore list rev nxt =>
    obtain ⟨l₁, l₂, h₁, h₂, rfl⟩ := h
    obtain ⟨l₁', l₂', h₁', h₂', rfl⟩ := h'
    rw [h₁.unique h₁', h₂.unique h₂']
  | loadNext it | run nxt => exact LinkChain.unique h h'
  | clear it nxt =>
    obtain ⟨l, rfl, hl⟩ := h
    obtain ⟨l', rfl, hl'⟩ := h'
    rw [hl.unique hl']
  | steal | loadHead | release => exact Eq.trans h (Eq.symm h')
  | _ => exact h.elim

end Frame

/-! ### One CPU -/

/-- A CPU whose queue is `q`, newest first, and which has stolen `b`. -/
structure CpuInv (next : D → Option D) (forced : D → Option ℕ) (now : ℕ) (p : Cpu D)
    (q b : List D) : Prop where
  chain : LinkChain next p.head q
  holder : p.executing = true ↔ ∃ f ∈ p.frames, f.Holds
  below : p.frames.Pairwise fun f g => f.Took → ¬g.Holds
  batch : ∀ f ∈ p.frames, f.Holds → f.Batch next b
  idle : p.executing = false → b = []
  log : p.pushed = p.begun ++ b ++ q.reverse
  time : ∀ f ∈ p.frames, ∀ t, f.cleared = some t → t < now
  late : ∀ t, .ret (some t) ∈ p.frames → ∀ d ∈ q, ∀ n, forced d = some n → t < n

namespace CpuInv

variable {next next' : D → Option D} {forced forced' : D → Option ℕ} {now now' : ℕ} {p : Cpu D}
  {q b q' b' : List D} {f f' : Frame D} {rest : List (Frame D)}

variable (h : CpuInv next forced now p q b)
include h

/-- What happens elsewhere: the calls of this CPU keep their links, and a run that is forced is
forced now. -/
theorem mono (hnext : ∀ d ∈ b ++ q, next' d = next d)
    (hforced : ∀ d ∈ q, ∀ n, forced' d = some n → forced d = some n ∨ now ≤ n) (hnow : now ≤ now') :
    CpuInv next' forced' now' p q b where
  chain := h.chain.congr fun d hd => hnext d (mem_append_right b hd)
  holder := h.holder
  below := h.below
  batch f hf hholds := (h.batch f hf hholds).congr fun d hd => hnext d (mem_append_left q hd)
  idle := h.idle
  log := h.log
  time f hf t ht := lt_of_lt_of_le (h.time f hf t ht) hnow
  late t ht d hd n hn := by
    rcases hforced d hd n hn with hold | hlate
    · exact h.late t ht d hd n hold
    · exact lt_of_lt_of_le (h.time _ ht t rfl) hlate

section

variable (hframes : p.frames = f :: rest)
include hframes

/-- Below a drain that holds the guard no other one does. -/
theorem rest_not_holds
    (hf : f.Took) : ∀ g ∈ rest, ¬g.Holds := by
  have hbelow := h.below
  rw [hframes, pairwise_cons] at hbelow
  exact fun g hg => hbelow.1 g hg hf

/-- The first frame is replaced, and the CPU changes otherwise. -/
private theorem replace (f' : Frame D) {p' : Cpu D} (hp' : p'.frames = f' :: rest)
    (hchain : LinkChain next' p'.head q') (htook : f'.Took → ∀ g ∈ rest, ¬g.Holds)
    (hexec : p'.executing = true ↔ f'.Holds ∨ ∃ g ∈ rest, g.Holds)
    (hbatch : f'.Holds → f'.Batch next' b') (hrest : ∀ g ∈ rest, g.Holds → g.Batch next' b')
    (hidle : p'.executing = false → b' = []) (hlog : p'.pushed = p'.begun ++ b' ++ q'.reverse)
    (htime : ∀ t, f'.cleared = some t → t < now + 1) (hq : ∀ d ∈ q', d ∈ q)
    (hlate : ∀ t, f' = .ret (some t) → ∀ d ∈ q', ∀ n, forced d = some n → t < n) :
    CpuInv next' forced (now + 1) p' q' b' := by
  have hbelow := h.below
  have htimes := h.time
  rw [hframes] at hbelow htimes
  refine ⟨hchain, ?_, ?_, ?_, hidle, hlog, ?_, fun t ht d hd => ?_⟩
  · rw [hp', hexec, exists_mem_cons_iff]
  · rw [hp']
    exact pairwise_cons.mpr ⟨fun g hg hf => htook hf g hg, (pairwise_cons.mp hbelow).2⟩
  · rw [hp']
    exact forall_mem_cons.mpr ⟨hbatch, hrest⟩
  · rw [hp']
    refine forall_mem_cons.mpr ⟨htime, fun g hg t ht => ?_⟩
    exact (htimes g (mem_cons_of_mem f hg) t ht).trans (Nat.lt_succ_self now)
  · rw [hp'] at ht
    rcases mem_cons.mp ht with ht | ht
    · exact hlate t ht.symm d hd
    · exact h.late t (by rw [hframes]; exact mem_cons_of_mem f ht) d (hq d hd)

/-- A drain that holds the guard goes on with it. -/
theorem work (hf : f.Holds)
    (f' : Frame D) (hf' : f'.Holds) {head' : Option D} {begun' : List D}
    (hchain : LinkChain next' head' q')
    (hbatch : f'.Batch next' b') (hlog : p.pushed = begun' ++ b' ++ q'.reverse)
    (hq : ∀ d ∈ q', d ∈ q) :
    CpuInv next' forced (now + 1)
      { p with head := head', frames := f' :: rest, begun := begun' } q' b' := by
  have hrest := h.rest_not_holds hframes hf.took
  have hexec : p.executing = true := h.holder.mpr ⟨f, by simp [hframes], hf⟩
  refine h.replace hframes f' rfl hchain (fun _ => hrest) (iff_of_true hexec (.inl hf'))
    (fun _ => hbatch) (fun g hg hholds => absurd hholds (hrest g hg)) (fun hidle => ?_) hlog
    (fun t ht => ?_) hq fun t ht => ?_
  · rw [show p.executing = false from hidle] at hexec
    cases hexec
  · cases f' <;> simp_all [Frame.cleared, Frame.Holds]
  · rw [ht] at hf'
    exact hf'.elim

/-- A drain that does not hold the guard goes on without it. -/
theorem goto (hf : ¬f.Holds)
    (f' : Frame D) (hf' : ¬f'.Holds) (htook : f'.Took → f.Took)
    (htime : ∀ t, f'.cleared = some t → t < now + 1)
    (hlate : ∀ t, f' = .ret (some t) → ∀ d ∈ q, ∀ n, forced d = some n → t < n) {e : Bool}
    (he : e = p.executing) :
    CpuInv next forced (now + 1) { p with frames := f' :: rest, executing := e } q b := by
  subst he
  have hholder := h.holder
  have hbatch := h.batch
  rw [hframes] at hholder hbatch
  refine h.replace hframes f' rfl h.chain (fun htk => h.rest_not_holds hframes (htook htk)) ?_
    (fun hholds => absurd hholds hf') (forall_mem_cons.mp hbatch).2 h.idle h.log htime
    (fun _ hd => hd) hlate
  rw [hholder, exists_mem_cons_iff, or_iff_right hf, or_iff_right hf']

/-- A drain takes the guard. -/
theorem acquire
    (hexec : p.executing = false) :
    CpuInv next forced (now + 1) { p with frames := .steal :: rest, executing := true } q b := by
  have hnone : ∀ g ∈ rest, ¬g.Holds := fun g hg hholds => by
    rw [h.holder.mpr ⟨g, by rw [hframes]; exact mem_cons_of_mem f hg, hholds⟩] at hexec
    cases hexec
  exact h.replace hframes .steal rfl h.chain (fun _ => hnone) (iff_of_true rfl (.inl trivial))
    (fun _ => h.idle hexec) (fun g hg hholds => absurd hholds (hnone g hg)) nofun h.log nofun
    (fun _ hd => hd) nofun

end

/-- A drain clears the guard. -/
theorem release (hframes : p.frames = .release :: rest) :
    CpuInv next forced (now + 1) { p with frames := .recheck now :: rest, executing := false }
      q b := by
  have hrest := h.rest_not_holds hframes trivial
  have hempty : b = [] := h.batch .release (by simp [hframes]) trivial
  refine h.replace hframes (.recheck now) rfl h.chain (fun _ => hrest)
    (iff_of_false Bool.false_ne_true ?_) False.elim (fun g hg hholds => absurd hholds (hrest g hg))
    (fun _ => hempty) h.log (fun t ht => ?_) (fun _ hd => hd) nofun
  · rintro (hholds | ⟨g, hg, hholds⟩)
    · exact hholds
    · exact hrest g hg hholds
  · obtain rfl := Option.some.inj ht
    exact Nat.lt_succ_self now

/-- A drain returns. -/
theorem pop (hframes : p.frames = f :: rest) (hf : ¬f.Holds) :
    CpuInv next forced (now + 1) { p with frames := rest } q b := by
  have hmem : ∀ g ∈ rest, g ∈ p.frames := fun g hg => by
    rw [hframes]
    exact mem_cons_of_mem f hg
  have hbelow := h.below
  rw [hframes, pairwise_cons] at hbelow
  refine ⟨h.chain, ?_, hbelow.2, fun g hg => h.batch g (hmem g hg), h.idle, h.log, ?_, ?_⟩
  · rw [h.holder, hframes]
    simp [hf]
  · intro g hg t ht
    have := h.time g (hmem g hg) t ht
    omega
  · exact fun t ht => h.late t (hmem _ ht)

/-- An interrupt enters. -/
theorem push :
    CpuInv next forced (now + 1) { p with frames := .loadResched :: p.frames } q b := by
  refine ⟨h.chain, ?_, ?_, forall_mem_cons.mpr ⟨False.elim, h.batch⟩, h.idle, h.log,
    forall_mem_cons.mpr ⟨nofun, fun g hg t ht => ?_⟩, ?_⟩
  · rw [h.holder]
    simp [Frame.Holds]
  · exact pairwise_cons.mpr ⟨fun g _ hf => hf.elim, h.below⟩
  · exact (h.time g hg t ht).trans (Nat.lt_succ_self now)
  intro t ht
  rcases mem_cons.mp ht with ht | ht
  · cases ht
  · exact h.late t ht

/-- A call is pushed onto the queue, by an enqueue that has not forced the run yet. -/
theorem enqueue {d : D} (hd : next d = p.head)
    (hforced : forced' d = none) (hother : ∀ d' ∈ q, forced' d' = forced d') :
    CpuInv next forced' (now + 1) { p with head := some d, pushed := p.pushed ++ [d] } (d :: q) b :=
      by
  refine ⟨⟨rfl, by rw [hd]; exact h.chain⟩, h.holder, h.below, h.batch, h.idle, ?_, ?_, ?_⟩
  · rw [h.log]
    simp
  · intro g hg t ht
    have := h.time g hg t ht
    omega
  intro t ht d' hd' n hn
  rcases mem_cons.mp hd' with rfl | hd'
  · rw [hforced] at hn
    cases hn
  · rw [hother d' hd'] at hn
    exact h.late t ht d' hd' n hn

end CpuInv

end Charmos.Dpc
