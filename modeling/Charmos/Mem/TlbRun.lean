import Charmos.Lib.Trace
import Charmos.Mem.TlbSpec

/-!
# Runs of TLB shootdowns

What a call of `tlb_shootdown_full` knows at each point (`CallInv`), and that it stays true while
the handlers and the other calls go on. A target that the first loop has passed has an entry of the
call in its ring or a request for a flush from it, or is the CPU of the call and has done what was
asked (`Call.Served`); after the second loop every target has done it (`Call.Done`).

`tlbRun_ok` is the theorem for every run after the other CPUs have started. Before that the call
returns at once (`tlbRun_early`).
-/

namespace Charmos.Tlb

open Function List Option Relation

variable {C K : Type}

/-! ### What a call knows -/

section Knowledge

variable (cpu : C → Cpu K) (k : K) (cl : Call C)

/-- The target has done what was asked since the call began. -/
def Call.Done (i : C) : Prop := Covers cl.req.payload ((cpu i).log.drop (cl.began i))

/-- The target has an entry or a request for a flush, within the bounds, since the call began. -/
def Call.Placed (i : C) (wantPos wantFlush : ℕ) : Prop :=
  (∃ p e, p < wantPos ∧ (cpu i).entries p = some e ∧ e.payload = cl.req.payload ∧
    cl.began i ≤ e.since) ∨
  ∃ m, m ≠ 0 ∧ m ≤ wantFlush ∧ m ≤ (cpu i).flushReq ∧ cl.began i ≤ (cpu i).flushAt m

/-- The first loop is done with the target. -/
def Call.Served (i : C) : Prop :=
  cl.Done cpu i ∨ i ≠ cl.cpu ∧ cl.Placed cpu i (cpu i).queue.head (cpu i).flushReq

/-- The call has an entry in this phase at the position. -/
def Call.Owns (i : C) (pos : ℕ) (ph : Phase) : Prop :=
  ∃ e, (cpu i).entries pos = some e ∧ e.caller = k ∧ e.payload = cl.req.payload ∧
    cl.began i ≤ e.since ∧ e.phase = ph

/-- In the first loop, with these targets left. -/
def Call.Serving (todo : List C) : Prop := ∀ i ∈ cl.req.targets, i ∈ todo ∨ cl.Served cpu i

/-- In the second loop, with these targets left. -/
def Call.Waiting (todo : List C) : Prop :=
  ∀ i ∈ cl.req.targets, cl.Done cpu i ∨ i ∈ todo ∧ cl.Served cpu i

/-- What the call knows at each point. -/
def Call.PcOk : Prop :=
  match cl.pc with
  | .idle | .check => True
  | .loop todo | .sendIpi _ todo => cl.Serving cpu todo
  | .inval todo start =>
    cl.Serving cpu (cl.cpu :: todo) ∧
      Progress cl.req.payload start ((cpu cl.cpu).log.drop (cl.began cl.cpu))
  | .claimLoad i todo | .bump i todo => i ≠ cl.cpu ∧ cl.Serving cpu (i :: todo)
  | .claimSeq i todo pos =>
    (i ≠ cl.cpu ∧ cl.Serving cpu (i :: todo)) ∧ pos ≤ (cpu i).queue.head
  | .claimCas i todo pos =>
    (i ≠ cl.cpu ∧ cl.Serving cpu (i :: todo)) ∧ pos < (cpu i).rel + tlbQueueSize
  | .write i todo pos =>
    (i ≠ cl.cpu ∧ cl.Serving cpu (i :: todo)) ∧ cl.Owns cpu k i pos .claimed
  | .publish i todo pos =>
    (i ≠ cl.cpu ∧ cl.Serving cpu (i :: todo)) ∧ cl.Owns cpu k i pos .written
  | .wait todo => cl.Waiting cpu todo
  | .waitHead i todo => cl.Waiting cpu (i :: todo)
  | .waitReq i todo wantPos =>
    cl.Waiting cpu (i :: todo) ∧
      (i ∈ cl.req.targets → cl.Done cpu i ∨ ∃ m, cl.Placed cpu i wantPos m)
  | .waitPos i todo wantPos wantFlush =>
    cl.Waiting cpu (i :: todo) ∧
      (i ∈ cl.req.targets → cl.Done cpu i ∨ cl.Placed cpu i wantPos wantFlush)
  | .waitFlush i todo wantPos wantFlush =>
    (cl.Waiting cpu (i :: todo) ∧
      (i ∈ cl.req.targets → cl.Done cpu i ∨ cl.Placed cpu i wantPos wantFlush)) ∧
      wantPos ≤ (cpu i).donePos
  | .epoch => ∀ i ∈ cl.req.targets, cl.Done cpu i
  | .returned => cl.req.mode = .sync → ∀ i ∈ cl.req.targets, cl.Done cpu i

/-- The invariant of a call. -/
structure CallInv : Prop where
  began : ∀ i, cl.began i ≤ (cpu i).log.length
  pc : cl.PcOk cpu k

end Knowledge

/-! ### What stays known -/

section Growth

variable {cpu cpu' : C → Cpu K} {k : K} {cl : Call C} {o : Option K} {todo : List C}
  {wantFlush wantPos : ℕ}

theorem Call.Done.grow (hg : ∀ i, Grows o (cpu i) (cpu' i)) {i : C} (h : cl.Done cpu i) :
    cl.Done cpu' i :=
  h.mono (drop_subset_drop (hg i).log le_rfl)

theorem Call.Placed.grow (hg : ∀ i, Grows o (cpu i) (cpu' i)) {i : C}
    (h : cl.Placed cpu i wantPos wantFlush) : cl.Placed cpu' i wantPos wantFlush := by
  rcases h with ⟨p, e, hp, he, hpl, hsince⟩ | ⟨m, hm, hle, hreq, hat⟩
  · obtain ⟨e', he', -, hpl', hsince', -⟩ := (hg i).entries p e he
    exact .inl ⟨p, e', hp, he', hpl'.trans hpl, hsince'.symm ▸ hsince⟩
  · refine .inr ⟨m, hm, hle, hreq.trans (hg i).flushReq, ?_⟩
    rw [(hg i).flushAt m hreq]
    exact hat

theorem Call.Placed.mono {i : C} {wantPos' wantFlush' : ℕ} (h : cl.Placed cpu i wantPos wantFlush)
    (hpos : wantPos ≤ wantPos') (hflush : wantFlush ≤ wantFlush') :
    cl.Placed cpu i wantPos' wantFlush' := by
  rcases h with ⟨p, e, hp, he⟩ | ⟨m, hm, hle, hreq⟩
  · exact .inl ⟨p, e, hp.trans_le hpos, he⟩
  · exact .inr ⟨m, hm, hle.trans hflush, hreq⟩

section

variable (hg : ∀ i, Grows o (cpu i) (cpu' i))
include hg

theorem Call.Served.grow {i : C} (h : cl.Served cpu i) : cl.Served cpu' i := by
  rcases h with h | ⟨hne, h⟩
  · exact .inl (h.grow hg)
  · exact .inr ⟨hne, (h.grow hg).mono (hg i).head (hg i).flushReq⟩

theorem Call.Serving.grow (h : cl.Serving cpu todo) : cl.Serving cpu' todo :=
  fun i hi => (h i hi).imp_right (·.grow hg)

theorem Call.Waiting.grow (h : cl.Waiting cpu todo) : cl.Waiting cpu' todo :=
  fun i hi => (h i hi).imp (·.grow hg) (And.imp_right (·.grow hg))

theorem Call.Owns.grow (ho : o ≠ some k) {i : C} {pos : ℕ}
    {ph : Phase} (h : cl.Owns cpu k i pos ph) : cl.Owns cpu' k i pos ph := by
  obtain ⟨e, he, hcaller, hpl, hsince, hph⟩ := h
  obtain ⟨e', he', hcaller', hpl', hsince', hph', -⟩ := (hg i).entries pos e he
  refine ⟨e', he', hcaller'.trans hcaller, hpl'.trans hpl, hsince'.symm ▸ hsince, ?_⟩
  rw [hph' (by rw [hcaller]; exact ho.symm), hph]

end

/-- What another call or a handler does, does not disturb a call. -/
theorem CallInv.grow (h : CallInv cpu k cl) (hg : ∀ i, Grows o (cpu i) (cpu' i))
    (ho : o ≠ some k) : CallInv cpu' k cl := by
  refine ⟨fun i => (h.began i).trans (hg i).log.length_le, ?_⟩
  have hpc := h.pc
  unfold Call.PcOk at hpc ⊢
  cases hcase : cl.pc <;> simp only [hcase] at hpc ⊢
  case loop => exact hpc.grow hg
  case inval => exact ⟨hpc.1.grow hg, hpc.2.mono (drop_subset_drop (hg _).log le_rfl)⟩
  case claimLoad => exact ⟨hpc.1, hpc.2.grow hg⟩
  case claimSeq i todo pos => exact ⟨⟨hpc.1.1, hpc.1.2.grow hg⟩, hpc.2.trans (hg i).head⟩
  case claimCas i todo pos =>
    have := (hg i).rel
    exact ⟨⟨hpc.1.1, hpc.1.2.grow hg⟩, by omega⟩
  case write => exact ⟨⟨hpc.1.1, hpc.1.2.grow hg⟩, hpc.2.grow hg ho⟩
  case publish => exact ⟨⟨hpc.1.1, hpc.1.2.grow hg⟩, hpc.2.grow hg ho⟩
  case bump => exact ⟨hpc.1, hpc.2.grow hg⟩
  case sendIpi => exact hpc.grow hg
  case wait => exact hpc.grow hg
  case waitHead => exact hpc.grow hg
  case waitReq =>
    exact ⟨hpc.1.grow hg, fun hi => (hpc.2 hi).imp (·.grow hg) fun ⟨m, hm⟩ => ⟨m, hm.grow hg⟩⟩
  case waitPos => exact ⟨hpc.1.grow hg, fun hi => (hpc.2 hi).imp (·.grow hg) (·.grow hg)⟩
  case waitFlush i todo wantPos wantFlush =>
    exact ⟨⟨hpc.1.1.grow hg, fun hi => (hpc.1.2 hi).imp (·.grow hg) (·.grow hg)⟩,
      hpc.2.trans (hg i).donePos⟩
  case epoch => exact fun i hi => (hpc i hi).grow hg
  case returned => exact fun hsync i hi => (hpc hsync i hi).grow hg

/-- The counters have passed what the call put in the ring or asked for. -/
theorem Call.Placed.done {i : C} (hcpu : CpuInv (cpu i)) (hpos : wantPos ≤ (cpu i).donePos)
    (hflush : wantFlush ≤ (cpu i).flushDone) (h : cl.Placed cpu i wantPos wantFlush) :
    cl.Done cpu i := by
  rcases h with ⟨p, e, hp, he, hpl, hsince⟩ | ⟨m, hm, hle, -, hat⟩
  · have hcov := hcpu.covered p e ((hp.trans_le hpos).trans_le hcpu.donePos) he
    rw [hpl] at hcov
    exact hcov.mono (drop_subset_drop prefix_rfl hsince)
  · have hin := hcpu.flushed m hm (hle.trans hflush)
    exact .inl (drop_subset_drop prefix_rfl hat hin)

end Growth

/-! ### Steps -/

/-- The invariant. -/
structure Inv (s : Sys C K) : Prop where
  cpu : ∀ i, CpuInv (s.cpu i)
  call : ∀ k, CallInv s.cpu k (s.call k)

variable {s s' : Sys C K} {k : K} {i : C} {cpu : C → Cpu K} {todo : List C} {cl : Call C}

/-- The target at the head of the list is served. -/
theorem Call.Serving.tail (h : cl.Serving cpu (i :: todo)) (hi : cl.Served cpu i) :
    cl.Serving cpu todo := by
  intro j hj
  rcases h j hj with hmem | hserved
  · rcases mem_cons.1 hmem with rfl | hmem
    · exact .inr hi
    · exact .inl hmem
  · exact .inr hserved

/-- The target at the head of the list is done. -/
theorem Call.Waiting.tail (h : cl.Waiting cpu (i :: todo))
    (hi : i ∈ cl.req.targets → cl.Done cpu i) : cl.Waiting cpu todo := by
  intro j hj
  rcases h j hj with hdone | ⟨hmem, hserved⟩
  · exact .inl hdone
  · rcases mem_cons.1 hmem with rfl | hmem
    · exact .inl (hi hj)
    · exact .inr ⟨hmem, hserved⟩

theorem sysInit_inv (midMp : Bool) (cpu : C) : Inv (sysInit midMp cpu : Sys C K) where
  cpu _ := tlbCpuInit_inv
  call _ := ⟨fun _ => Nat.zero_le _, trivial⟩

theorem Inv.ok (h : Inv s) : Ok s where
  sync k hpc := by
    have hok := (h.call k).pc
    simp only [Call.PcOk, hpc] at hok
    exact hok
  done_le i := (h.cpu i).donePos_le
  covered i p hp := by
    obtain ⟨e, he⟩ := (h.cpu i).entry (hp.trans_le (h.cpu i).donePos_le)
    exact ⟨e, he, (h.cpu i).covered p e (hp.trans_le (h.cpu i).donePos) he⟩
  flushDone_le i := (h.cpu i).flushDone
  flushed i := (h.cpu i).flushed

variable [DecidableEq C] [DecidableEq K] {pc : CallPc C} {c : Cpu K}

omit [DecidableEq K] in
theorem grows_update {o : Option K} (hg : Grows o (s.cpu i) c) (j : C) :
    Grows o (s.cpu j) (update s.cpu i c j) :=
  (forall_update_iff s.cpu fun j => Grows o (s.cpu j)).mpr ⟨hg, fun _ _ => Grows.refl o _⟩ j

omit [DecidableEq C] in
/-- A call goes on and changes no CPU. -/
theorem Inv.goto (h : Inv s) (hpc : Call.PcOk s.cpu k { s.call k with pc := pc }) :
    Inv (s.setPc k pc) := by
  refine ⟨h.cpu, (forall_update_iff _ (CallInv s.cpu)).mpr ⟨?_, fun j _ => h.call j⟩⟩
  exact ⟨(h.call k).began, hpc⟩

/-- A call changes a CPU and goes on. -/
theorem Inv.act (h : Inv s) (hc : CpuInv c ∧ Grows (some k) (s.cpu i) c)
    (hpc : Call.PcOk (update s.cpu i c) k { s.call k with pc := pc }) :
    Inv ((s.setCpu i c).setPc k pc) := by
  have hg := grows_update hc.2
  refine ⟨(forall_update_iff _ fun _ => CpuInv).mpr ⟨hc.1, fun j _ => h.cpu j⟩,
    (forall_update_iff _ (CallInv (update s.cpu i c))).mpr ⟨⟨fun j => ?_, hpc⟩, fun j hne => ?_⟩⟩
  · exact ((h.call k).began j).trans (hg j).log.length_le
  · exact (h.call j).grow hg fun hjk => hne (some.inj hjk).symm

/-- Every step of a call keeps the invariant, after the other CPUs have started. -/
theorem tlbShootdownFull_inv (h : Inv s) (hmp : s.midMp) (k : K) (fail : Bool) :
    match tlbShootdownFull s k fail with
    | some s' => Inv s' ∧ s'.midMp = s.midMp
    | none => True := by
  have hbegan := (h.call k).began
  have hok := (h.call k).pc
  cases hpc : (s.call k).pc <;> simp only [Call.PcOk, hpc] at hok <;>
    simp only [tlbShootdownFull, hpc]
  case check =>
    split_ifs with hskip
    · refine ⟨h.goto fun hsync => ?_, rfl⟩
      rcases hskip with hnone | hearly
      · rw [hnone] at hsync
        cases hsync
      · exact absurd hmp hearly
    · exact ⟨h.goto fun j hj => .inl hj, rfl⟩
  case loop todo =>
    cases todo with
    | nil =>
      by_cases hsync : (s.call k).req.mode = .sync
      · rw [if_pos hsync]
        exact ⟨h.goto fun j hj => .inr ⟨hj, (hok j hj).resolve_left (not_mem_nil)⟩, rfl⟩
      · rw [if_neg hsync]
        exact ⟨h.goto fun hs => absurd hs hsync, rfl⟩
    | cons i todo =>
      dsimp only
      by_cases hi : i = (s.call k).cpu
      · rw [if_pos hi]
        exact ⟨h.goto ⟨hi ▸ hok, progress_start ..⟩, rfl⟩
      · rw [if_neg hi]
        exact ⟨h.goto ⟨hi, hok⟩, rfl⟩
  case inval todo start =>
    obtain ⟨hserving, hprog⟩ := hok
    have hinv := (h.cpu (s.call k).cpu).append (some k)
      (payloadInvalidate (s.call k).req.payload start).1
    have hg := grows_update hinv.2
    have hdrop : ((s.cpu (s.call k).cpu).log ++
        (payloadInvalidate (s.call k).req.payload start).1).drop ((s.call k).began (s.call k).cpu) =
        _ := drop_append_of_le_length (hbegan (s.call k).cpu)
    rcases hnext : (payloadInvalidate (s.call k).req.payload start).2 with _ | next
    · refine ⟨h.act hinv ((hserving.grow hg).tail (.inl ?_)), rfl⟩
      have hcovers := hprog.covers hnext
      rw [← hdrop] at hcovers
      simpa only [Call.Done, update_self] using hcovers
    · refine ⟨h.act hinv ⟨hserving.grow hg, ?_⟩, rfl⟩
      have hprog' := hprog.next hnext
      rw [← hdrop] at hprog'
      simpa only [update_self] using hprog'
  case claimLoad i todo =>
    exact ⟨h.goto ⟨hok, le_rfl⟩, rfl⟩
  case claimSeq i todo pos =>
    split_ifs with hseq hfull
    · exact ⟨h.goto ⟨hok.1, (h.cpu i).queue.lt_of_seq_eq (by decide) hok.2 hseq⟩, rfl⟩
    · exact ⟨h.goto hok.1, rfl⟩
    · exact ⟨h.goto hok.1, rfl⟩
  case claimCas i todo pos =>
    split_ifs with hcas
    · obtain ⟨rfl, -⟩ := hcas
      have hinv := (h.cpu i).claim hok.2 k (s.call k).req.payload
      refine ⟨h.act hinv ⟨⟨hok.1.1, hok.1.2.grow (grows_update hinv.2)⟩, ?_⟩, rfl⟩
      rw [Call.Owns, update_self]
      exact ⟨_, update_self .., rfl, rfl, hbegan i, rfl⟩
    · exact ⟨h.goto hok.1, rfl⟩
  case write i todo pos =>
    obtain ⟨hserving, e, he, rfl, hpl, hsince, hph⟩ := hok
    have hinv := (h.cpu i).write he hph
    rw [hpl] at hinv
    refine ⟨h.act hinv ⟨⟨hserving.1, hserving.2.grow (grows_update hinv.2)⟩, ?_⟩, rfl⟩
    rw [Call.Owns, update_self]
    refine ⟨{ e with phase := .written }, ?_, rfl, hpl, hsince, rfl⟩
    simp [Cpu.write, he]
  case publish i todo pos =>
    obtain ⟨hserving, e, he, rfl, hpl, hsince, hph⟩ := hok
    have hinv := (h.cpu i).publish he hph
    refine ⟨h.act hinv ((hserving.2.grow (grows_update hinv.2)).tail (.inr ⟨hserving.1, .inl ?_⟩)),
      rfl⟩
    have hlt := (h.cpu i).queue.lt_head (item_eq_some.2 ⟨e, he, rfl, rfl⟩)
    rw [update_self]
    refine ⟨pos, { e with phase := .published }, hlt, ?_, hpl, hsince⟩
    simp [Cpu.publish, he]
  case bump i todo =>
    have hinv := (h.cpu i).bump (some k)
    refine ⟨h.act hinv ((hok.2.grow (grows_update hinv.2)).tail (.inr ⟨hok.1, .inr ?_⟩)), rfl⟩
    rw [update_self]
    refine ⟨_, Nat.succ_ne_zero _, le_rfl, le_rfl, ?_⟩
    simpa [Cpu.bump] using hbegan i
  case sendIpi i todo =>
    have hinv := (h.cpu i).sendIpi (some k)
    exact ⟨h.act hinv (hok.grow (grows_update hinv.2)), rfl⟩
  case wait todo =>
    cases todo with
    | nil =>
      exact ⟨h.goto fun j hj => (hok j hj).resolve_right fun hj => not_mem_nil hj.1, rfl⟩
    | cons i todo =>
      dsimp only
      by_cases hi : i = (s.call k).cpu
      · rw [if_pos hi]
        refine ⟨h.goto (hok.tail fun hmem => ?_), rfl⟩
        rcases hok i hmem with hdone | ⟨-, hdone | ⟨hne, -⟩⟩
        · exact hdone
        · exact hdone
        · exact absurd hi hne
      · rw [if_neg hi]
        exact ⟨h.goto hok, rfl⟩
  case waitHead i todo =>
    refine ⟨h.goto ⟨hok, fun hmem => ?_⟩, rfl⟩
    rcases hok i hmem with hdone | ⟨-, hdone | ⟨-, hplaced⟩⟩
    · exact .inl hdone
    · exact .inl hdone
    · exact .inr ⟨_, hplaced⟩
  case waitReq i todo wantPos =>
    refine ⟨h.goto ⟨hok.1, fun hmem => (hok.2 hmem).imp_right ?_⟩, rfl⟩
    rintro ⟨m, hpos | ⟨n, hn, -, hle, hat⟩⟩
    · exact .inl hpos
    · exact .inr ⟨n, hn, hle, hle, hat⟩
  case waitPos i todo wantPos wantFlush =>
    split_ifs with hlt
    · exact ⟨h.goto hok, rfl⟩
    · exact ⟨h.goto ⟨hok, not_lt.1 hlt⟩, rfl⟩
  case waitFlush i todo wantPos wantFlush =>
    split_ifs with hlt
    · exact ⟨h.goto hok.1, rfl⟩
    · refine ⟨h.goto (hok.1.1.tail fun hmem => ?_), rfl⟩
      exact (hok.1.2 hmem).elim id (·.done (h.cpu i) hok.2 (not_lt.1 hlt))
  case epoch =>
    have hinv : Inv (s.setPc k .returned) := h.goto fun _ => hok
    exact ⟨⟨hinv.cpu, hinv.call⟩, rfl⟩

theorem Inv.step {act : Act C K} (h : Inv s) (hmp : s.midMp)
    (hstep : Tlb.step s act = some s') : Inv s' ∧ s'.midMp = s.midMp := by
  cases act with
  | shootdown k cpu req =>
    simp only [Tlb.step] at hstep
    split_ifs at hstep
    obtain ⟨⟩ := hstep
    refine ⟨⟨h.cpu, (forall_update_iff _ (CallInv s.cpu)).mpr ⟨?_, fun j _ => h.call j⟩⟩, rfl⟩
    exact ⟨fun _ => le_rfl, trivial⟩
  | call k fail =>
    have hinv := tlbShootdownFull_inv h hmp k fail
    rwa [show tlbShootdownFull s k fail = some s' from hstep] at hinv
  | handler i fail =>
    obtain ⟨c, hc, rfl⟩ := map_eq_some_iff.1 hstep
    have hinv := ringInvalidate_inv (h.cpu i) fail none
    rw [hc] at hinv
    refine ⟨⟨?_, fun j => (h.call j).grow (grows_update hinv.2) (by simp)⟩, rfl⟩
    exact (forall_update_iff _ fun _ => CpuInv).mpr ⟨hinv.1, fun j _ => h.cpu j⟩

/-! ### Runs -/

theorem run_inv (cpu : C) (hrun : ReflTransGen Step (sysInit true cpu) s) : Inv s ∧ s.midMp := by
  induction hrun with
  | refl => exact ⟨sysInit_inv true cpu, rfl⟩
  | tail _ hstep ih =>
    obtain ⟨act, hstep⟩ := hstep
    obtain ⟨hinv, hmp⟩ := ih.1.step ih.2 hstep
    exact ⟨hinv, hmp.trans ih.2⟩

/-- In every state of a run after the other CPUs have started: a synchronous call that has returned
has had every target do what was asked, and the counters of a ring tell no more than was done. -/
theorem tlbRun_ok (cpu : C) {s : Sys C K} (hrun : ReflTransGen Step (sysInit true cpu) s) :
    Ok s :=
  (run_inv cpu hrun).1.ok

/-- A run as a list of steps. -/
def trace (s : Sys C K) (acts : List (Act C K)) : Option (Sys C K) := acts.foldlM step s

theorem trace_run {acts : List (Act C K)} (h : trace s acts = some s') : ReflTransGen Step s s' :=
  reflTransGen_of_trace h fun _ a _ hs => ⟨a, hs⟩

/-- The CPU 0 shoots down a page on itself and on the CPU 1. -/
theorem tlbRun_ok_sync :
    ∃ s : Sys (Fin 2) Unit, ReflTransGen Step (sysInit true 0) s ∧ Ok s ∧
      (s.call ()).pc = .returned ∧ (s.call ()).req.targets = [0, 1] ∧ (s.cpu 1).donePos = 1 := by
  obtain ⟨acts, hacts⟩ : ∃ acts : List (Act (Fin 2) Unit), acts =
    .shootdown () 0 { mode := .sync, targets := [0, 1], payload := .page 0x1000 } ::
      (replicate 15 (.call () false) ++ replicate 14 (.handler 1 false) ++
        replicate 4 (.call () false)) := ⟨_, rfl⟩
  have hobs : (trace (sysInit true 0) acts).map (fun s => ((s.call ()).pc,
      (s.call ()).req.targets, (s.cpu 1).donePos)) = some (.returned, [0, 1], 1) := by
    rw [hacts]
    decide +kernel
  obtain ⟨s, hs, hobs⟩ := map_eq_some_iff.1 hobs
  have hrun := trace_run hs
  simp only [Prod.mk.injEq] at hobs
  exact ⟨s, hrun, tlbRun_ok 0 hrun, hobs⟩

/-- Before the other CPUs have started, a synchronous call returns and nothing is invalidated, not
even on the CPU of the call. -/
theorem tlbRun_early :
    ∃ s : Sys (Fin 1) Unit, ReflTransGen Step (sysInit false 0) s ∧
      (s.call ()).pc = .returned ∧ (s.call ()).req.mode = .sync ∧
      0 ∈ (s.call ()).req.targets ∧
      ¬ Covers (s.call ()).req.payload ((s.cpu 0).log.drop ((s.call ()).began 0)) := by
  obtain ⟨s, hs⟩ : ∃ s, trace (sysInit false 0 : Sys (Fin 1) Unit)
      [.shootdown () 0 { mode := .sync, targets := [0], payload := .page 0x1000 },
        .call () false] = some s := ⟨_, rfl⟩
  refine ⟨s, trace_run hs, ?_⟩
  obtain ⟨⟩ := hs
  refine ⟨rfl, rfl, mem_singleton_self _, ?_⟩
  rintro (hflush | hpage)
  · exact not_mem_nil hflush
  · exact not_mem_nil hpage

end Charmos.Tlb
