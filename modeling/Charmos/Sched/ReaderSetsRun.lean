import Charmos.Lib.Trace
import Charmos.Sched.ReaderSets

/-!
# The reader sets along a run

`post_read_acquire` keeps the invariant of the sets in every state. `post_read_release` keeps it
unless it takes the lock for the last one by mistake. The nesting depth is a byte, so that happens
exactly if the thread holds one lock more than a positive multiple of 256; the sets are then cleared
while locks are held. At a multiple of 256 the release finds a depth of zero and panics.
-/

namespace Charmos.ReaderSets

open List Option WroostGlobals

variable {g : WroostGlobals} {wtd w : WroostThreadData} {i j : Fin 32} {id : ℕ} {s : Reader}
  {ids : List ℕ} {s' : Reader} {a : ReaderAct}

/-! ### One hook -/

/-- The sets are right, and what they rest on: the byte that counts the locks. -/
structure ReaderInv (g : WroostGlobals) (s : Reader) : Prop extends SetsOk g s where
  held_lt : ∀ id ∈ s.held, id < g.bucketCount
  fine_lt : ∀ id ∈ fineIds s.wtd, id < g.bucketCount
  depth : s.wtd.readNestingDepth = BitVec.ofNat 8 s.held.length

theorem ReaderInv.init (g : WroostGlobals) : ReaderInv g Reader.init := by
  have hfine : fineIds Reader.init.wtd = [] := by decide
  have hctr : ∀ i, wroostReadCounter Reader.init.wtd i = 0 := by decide
  refine ⟨⟨fun i => .inr ?_, fun i _ => ?_, ?_, fun i _ => ?_⟩, ?_, ?_, rfl⟩
  · rfl
  · rfl
  · exact nodup_nil
  · rw [hctr]
    rfl
  · exact fun id hid => absurd hid not_mem_nil
  · exact fun id hid => absurd hid not_mem_nil

theorem inRange_cons (hi : g.coarse id = i) (j : Fin 32) (ids : List ℕ) :
    g.inRange j (id :: ids) = if j = i then id :: g.inRange j ids else g.inRange j ids := by
  simp [inRange, filter_cons, hi, Fin.val_inj, eq_comm]

theorem mem_inRange : id ∈ g.inRange i ids ↔ id ∈ ids ∧ g.coarse id = i := by
  simp [inRange]

/-- Eviction empties one counter and leaves the others as they are. -/
theorem inRange_evict (hids : ∀ id ∈ ids, id < g.bucketCount) :
    g.inRange j (ids.filter fun id => g.wroostFineEntryIndex id ≠ i) =
      if j = i then [] else g.inRange j ids := by
  unfold inRange
  rw [List.filter_filter]
  split_ifs with hij
  · refine filter_eq_nil_iff.2 fun id hid => ?_
    rw [wroostFineEntryIndex_eq (hids id hid), hij]
    simp
  refine filter_congr fun id hid => ?_
  rw [wroostFineEntryIndex_eq (hids id hid)]
  have hne : (j : ℕ) ≠ i := fun h => hij (Fin.ext h)
  by_cases hc : g.coarse id = j
  · simp [hc, hne]
  · simp [hc]

/-- What `post_read_acquire` may do with the fine entries: drop those of the counter, or add the
lock to a counter that is complete. -/
def Admitted (g : WroostGlobals) (s : Reader) (i : Fin 32) (id : ℕ) (fine : List ℕ) : Prop :=
  (fine = (fineIds s.wtd).filter fun id => g.wroostFineEntryIndex id ≠ i) ∨
    fine.Perm (id :: fineIds s.wtd) ∧ id ∉ fineIds s.wtd ∧
      (g.inRange i (fineIds s.wtd)).Perm (g.inRange i s.held) ∧
      wroostReadCounter s.wtd i + 1 < 3

theorem ReaderInv.acquired (h : ReaderInv g s) (hid : id < g.bucketCount) (hi : g.coarse id = i)
    (hdepth : w.readNestingDepth = s.wtd.readNestingDepth + 1) (hctr : ∀ j, wroostReadCounter w j =
      if j = i then min (wroostReadCounter s.wtd i + 1) 3 else wroostReadCounter s.wtd j)
    (hfine : Admitted g s i id (fineIds w)) : ReaderInv g { wtd := w, held := id :: s.held } := by
  have hcount : ∀ j, wroostReadCounter w j ≠ 3 →
      wroostReadCounter w j = (g.inRange j (id :: s.held)).length := by
    intro j hne
    rw [hctr] at hne ⊢
    rw [inRange_cons hi]
    split_ifs at hne ⊢ with hj
    · subst hj
      have := h.counted j (by omega)
      rw [length_cons]
      omega
    · exact h.counted j hne
  have hheld : ∀ id' ∈ id :: s.held, id' < g.bucketCount := by
    intro id' hmem
    rcases mem_cons.1 hmem with rfl | hmem
    · exact hid
    · exact h.held_lt id' hmem
  have hlen : w.readNestingDepth = BitVec.ofNat 8 (id :: s.held).length := by
    rw [hdepth, h.depth, length_cons, BitVec.ofNat_add]
    rfl
  have hzero : ∀ j, j ≠ i → wroostReadCounter w j = 0 ∨ wroostReadCounter w j = 3 →
      g.inRange j (fineIds s.wtd) = [] := by
    intro j hj hc
    rw [hctr, if_neg hj] at hc
    exact h.absent j hc
  rcases hfine with hevict | ⟨hperm, hnot, hall, hsmall⟩
  · -- the counter loses its entries, all others keep theirs
    have hat : ∀ j, g.inRange j (fineIds w) =
        if j = i then [] else g.inRange j (fineIds s.wtd) :=
      fun j => hevict ▸ inRange_evict h.fine_lt
    refine ⟨⟨fun j => ?_, fun j hc => ?_, ?_, hcount⟩, hheld, ?_, hlen⟩
    · rw [hat, inRange_cons hi]
      split_ifs
      · exact .inr rfl
      · exact h.complete j
    · rw [hat]
      split_ifs with hj
      · rfl
      · exact hzero j hj hc
    · rw [hevict]
      exact h.distinct.filter _
    · intro id' hmem
      exact h.fine_lt id' (mem_of_mem_filter (hevict ▸ hmem))
  · have hat : ∀ j, (g.inRange j (fineIds w)).Perm
        (if j = i then id :: g.inRange j (fineIds s.wtd) else g.inRange j (fineIds s.wtd)) :=
      fun j => inRange_cons hi j _ ▸ hperm.filter _
    refine ⟨⟨fun j => ?_, fun j hc => ?_, ?_, hcount⟩, hheld, ?_, hlen⟩
    · have hj := hat j
      rw [inRange_cons hi]
      split_ifs at hj ⊢ with hc
      · exact .inl (hj.trans ((hc ▸ hall).cons id))
      · rcases h.complete j with hp | hn
        · exact .inl (hj.trans hp)
        · exact .inr (perm_nil.1 (hn ▸ hj))
    · by_cases hj : j = i
      · rw [hctr, if_pos hj] at hc
        omega
      · have := hat j
        rw [if_neg hj, hzero j hj hc] at this
        exact perm_nil.1 this
    · exact hperm.nodup_iff.2 (nodup_cons.2 ⟨hnot, h.distinct⟩)
    · intro id' hmem
      rcases mem_cons.1 (hperm.mem_iff.1 hmem) with rfl | hmem
      · exact hid
      · exact h.fine_lt id' hmem

/-- A counter without fine entries stays without, whether or not it is evicted. -/
private theorem Admitted.same (h : ReaderInv g s)
    (hnone : g.inRange i (fineIds s.wtd) = []) : Admitted g s i id (fineIds s.wtd) := by
  refine .inl (filter_eq_self.2 fun id' hmem => ?_).symm
  have hout : ¬ g.coarse id' = i := fun hc =>
    not_mem_nil (hnone ▸ mem_inRange.2 ⟨hmem, hc⟩)
  simpa [wroostFineEntryIndex_eq (h.fine_lt id' hmem)] using hout

/-- The fine entries after the counter has been incremented. -/
theorem updateFineEntries_spec (h : ReaderInv g s) (hi : g.coarse id = i)
    (hw : fineIds wtd = fineIds s.wtd) :
    (updateFineEntries g wtd i id (wroostReadCounter s.wtd i)
        (min (wroostReadCounter s.wtd i + 1) 3)).counters = wtd.counters ∧
      (updateFineEntries g wtd i id (wroostReadCounter s.wtd i)
        (min (wroostReadCounter s.wtd i + 1) 3)).readNestingDepth = wtd.readNestingDepth ∧
      Admitted g s i id (fineIds (updateFineEntries g wtd i id (wroostReadCounter s.wtd i)
        (min (wroostReadCounter s.wtd i + 1) 3))) := by
  have hlt := wroostReadCounter_lt s.wtd i
  have hevict : Admitted g s i id (fineIds (wroostEvictFineEntries g wtd i)) :=
    .inl (fineIds_evict.trans (hw ▸ rfl))
  unfold updateFineEntries
  split_ifs with hprev hnew
  · -- the first lock of the counter
    have hnone := h.absent i (.inl hprev)
    have hheld : g.inRange i s.held = [] := by
      have := h.counted i (by omega)
      exact eq_nil_of_length_eq_zero (by omega)
    split
    · rename_i k w halloc
      obtain ⟨hperm, hc, hd⟩ := fineIds_alloc id halloc
      refine ⟨hc, hd, .inr ⟨hw ▸ hperm, fun hmem => ?_, ?_, by omega⟩⟩
      · exact not_mem_nil (hnone ▸ mem_inRange.2 ⟨hmem, hi⟩)
      · rw [hnone, hheld]
    · exact ⟨rfl, rfl, hw ▸ Admitted.same h hnone⟩
  · exact ⟨evict_frame.1, evict_frame.2, hevict⟩
  · -- the second one
    have hone : (g.inRange i s.held).length = 1 := by
      have := h.counted i (by omega)
      omega
    split
    · rename_i hnone
      refine ⟨rfl, rfl, hw ▸ Admitted.same h (eq_nil_iff_forall_not_mem.2 fun id' hmem => ?_)⟩
      obtain ⟨hmem, hc⟩ := mem_inRange.1 hmem
      have hidx := wroostFineEntryIndex_eq (h.fine_lt id' hmem)
      exact wroostGetFineEntry_none hnone (hw ▸ hmem) (hidx.trans hc)
    · rename_i old hold
      obtain ⟨hmem, hidx⟩ := wroostGetFineEntry_some hold
      rw [hw] at hmem
      rw [wroostFineEntryIndex_eq (h.fine_lt _ hmem)] at hidx
      have hin := mem_inRange.2 ⟨hmem, hidx⟩
      have hall : (g.inRange i (fineIds s.wtd)).Perm (g.inRange i s.held) := by
        rcases h.complete i with hp | hn
        · exact hp
        · exact absurd (hn ▸ hin) not_mem_nil
      split_ifs with hsame
      · exact ⟨evict_frame.1, evict_frame.2, hevict⟩
      split
      · rename_i k w halloc
        obtain ⟨hperm, hc, hd⟩ := fineIds_alloc id halloc
        refine ⟨hc, hd, .inr ⟨hw ▸ hperm, fun hmem' => hsame ?_, hall, by omega⟩⟩
        -- the entry that was found is the only one of the counter
        obtain ⟨a, ha⟩ := length_eq_one_iff.1 (hall.length_eq.trans hone)
        have h₁ := ha ▸ hin
        have h₂ := ha ▸ mem_inRange.2 ⟨hmem', hi⟩
        rw [mem_singleton.1 h₁, mem_singleton.1 h₂]
      · exact ⟨evict_frame.1, evict_frame.2, hevict⟩

/-- A counter goes up by one and sticks at three. -/
theorem wroostIncCounter_spec (wtd : WroostThreadData) (i : Fin 32) :
    ∃ w, wroostIncCounter wtd i =
        (w, wroostReadCounter wtd i, min (wroostReadCounter wtd i + 1) 3) ∧
      (∀ j, wroostReadCounter w j =
        if j = i then min (wroostReadCounter wtd i + 1) 3 else wroostReadCounter wtd j) ∧
      fineIds w = fineIds wtd ∧ w.readNestingDepth = wtd.readNestingDepth := by
  have hlt := wroostReadCounter_lt wtd i
  unfold wroostIncCounter
  dsimp only
  split_ifs with hmax
  · refine ⟨wtd, by rw [hmax]; rfl, fun j => ?_, rfl, rfl⟩
    split_ifs with hj
    · rw [hj, hmax]
      rfl
    · rfl
  · have hmin : min (wroostReadCounter wtd i + 1) 3 = wroostReadCounter wtd i + 1 := by omega
    refine ⟨wroostWriteCounter wtd i _, by rw [hmin], fun j => ?_, rfl, rfl⟩
    rw [wroostReadCounter_write (by omega), hmin]

/-- An acquisition succeeds, and the sets describe the locks with the new one. -/
theorem postReadAcquire_spec (h : ReaderInv g s) (hid : id < g.bucketCount) :
    ∃ w, postReadAcquire g s.wtd id = some w ∧ ReaderInv g { wtd := w, held := id :: s.held } := by
  have hlt : id / g.coarseFactor < 32 := coarse_lt hid
  obtain ⟨w, hw, hctr, hfine, hdepth⟩ := wroostIncCounter_spec
    { s.wtd with readNestingDepth := s.wtd.readNestingDepth + 1 } ⟨_, hlt⟩
  obtain ⟨hc, hd, hadm⟩ := updateFineEntries_spec h (i := ⟨_, hlt⟩) rfl hfine
  refine ⟨_, ?_, h.acquired hid rfl (hd.trans hdepth) (fun j => ?_) hadm⟩
  · have hor : (id / g.coarseFactor) <<< g.fineIndexBits ||| id % g.coarseFactor = id :=
      index_or_offset id
    simp only [postReadAcquire, enforce, offset_and_mask, if_true, dif_pos hlt, hor,
      bind_eq_bind, bind_some, hw]
    rfl
  · rw [wroostReadCounter_congr hc, hctr]
    rfl

theorem inRange_erase (hi : g.coarse id = i) (hid : id ∈ ids) (j : Fin 32) :
    (g.inRange j ids).Perm
      (if j = i then id :: g.inRange j (ids.erase id) else g.inRange j (ids.erase id)) :=
  inRange_cons hi j _ ▸ (perm_cons_erase hid).filter _

theorem ReaderInv.released (h : ReaderInv g s) (hid : id ∈ s.held) (hi : g.coarse id = i)
    (hdepth : w.readNestingDepth = s.wtd.readNestingDepth - 1) (hctr : ∀ j, wroostReadCounter w j =
      if j = i ∧ wroostReadCounter s.wtd i ≠ 3 then wroostReadCounter s.wtd i - 1
      else wroostReadCounter s.wtd j)
    (hfine : id ∈ fineIds s.wtd ∧ (fineIds s.wtd).Perm (id :: fineIds w) ∨
      id ∉ fineIds s.wtd ∧ fineIds w = fineIds s.wtd) :
    ReaderInv g { wtd := w, held := s.held.erase id } := by
  have hlen : ∀ j, (g.inRange j s.held).length =
      (g.inRange j (s.held.erase id)).length + if j = i then 1 else 0 := by
    intro j
    rw [(inRange_erase hi hid j).length_eq]
    split_ifs <;> rfl
  have hcount : ∀ j, wroostReadCounter w j ≠ 3 →
      wroostReadCounter w j = (g.inRange j (s.held.erase id)).length := by
    intro j hne
    have hj := hlen j
    rw [hctr] at hne ⊢
    split_ifs at hne ⊢ with hc
    · rw [if_pos hc.1, hc.1] at hj
      have := h.counted i hc.2
      rw [hc.1]
      omega
    · have hji : j ≠ i := fun e => hc ⟨e, e ▸ hne⟩
      rw [if_neg hji] at hj
      rw [h.counted j hne]
      exact hj
  have hsub : ∀ id' ∈ fineIds w, id' ∈ fineIds s.wtd := by
    intro id' hmem
    rcases hfine with ⟨-, hp⟩ | ⟨-, he⟩
    · exact hp.mem_iff.2 (mem_cons_of_mem _ hmem)
    · exact he ▸ hmem
  have hat : ∀ j, (g.inRange j (fineIds s.wtd)).Perm (g.inRange j s.held) →
      (g.inRange j (fineIds w)).Perm (g.inRange j (s.held.erase id)) := by
    intro j hp
    have hh := hp.trans (inRange_erase hi hid j)
    rcases hfine with ⟨-, hf⟩ | ⟨hnot, he⟩
    · have hf' : (g.inRange j (fineIds s.wtd)).Perm (g.inRange j (id :: fineIds w)) := hf.filter _
      rw [inRange_cons hi] at hf'
      split_ifs at hf' hh with hc
      · exact (hf'.symm.trans hh).cons_inv
      · exact hf'.symm.trans hh
    · rw [he]
      split_ifs at hh with hc
      · -- the lock would have an entry of its own
        have := hh.mem_iff.2 (mem_cons_self (a := id))
        exact absurd (mem_inRange.1 this).1 hnot
      · exact hh
  have hnil : ∀ j, g.inRange j (fineIds s.wtd) = [] → g.inRange j (fineIds w) = [] := by
    intro j hn
    refine eq_nil_iff_forall_not_mem.2 fun id' hmem => ?_
    obtain ⟨hm, hc⟩ := mem_inRange.1 hmem
    exact not_mem_nil (hn ▸ mem_inRange.2 ⟨hsub id' hm, hc⟩)
  have hcomplete : ∀ j, (g.inRange j (fineIds w)).Perm (g.inRange j (s.held.erase id)) ∨
      g.inRange j (fineIds w) = [] :=
    fun j => (h.complete j).imp (hat j) (hnil j)
  refine ⟨⟨hcomplete, fun j hc => ?_, ?_, hcount⟩, ?_, ?_, ?_⟩
  · rcases hc with hc | hc
    · rcases hcomplete j with hp | hn
      · have := hcount j (by change wroostReadCounter w j = 0 at hc; omega)
        exact eq_nil_of_length_eq_zero (hp.length_eq.trans (this.symm.trans hc))
      · exact hn
    · refine hnil j (h.absent j (.inr ?_))
      have hlt := wroostReadCounter_lt s.wtd i
      rw [hctr] at hc
      split_ifs at hc with hj
      · omega
      · exact hc
  · rcases hfine with ⟨-, hp⟩ | ⟨-, he⟩
    · exact (nodup_cons.1 (hp.nodup_iff.1 h.distinct)).2
    · exact he ▸ h.distinct
  · exact fun id' hmem => h.held_lt id' (mem_of_mem_erase hmem)
  · exact fun id' hmem => h.fine_lt id' (hsub id' hmem)
  · have hpos : 0 < s.held.length := length_pos_of_mem hid
    rw [hdepth, h.depth, length_erase_of_mem hid]
    obtain ⟨n, hn⟩ : ∃ n, s.held.length = n + 1 := ⟨s.held.length - 1, by omega⟩
    rw [hn, BitVec.ofNat_add, Nat.add_sub_cancel]
    exact BitVec.add_sub_cancel _ _

/-- The byte tells that a release is not the last one. -/
private theorem depth_facts {n : ℕ} :
    (0 < BitVec.ofNat 8 n ↔ n % 256 ≠ 0) ∧ (BitVec.ofNat 8 n - 1 = 0 ↔ n % 256 = 1) := by
  have hzero : (0 : BitVec 8).toNat = 0 := rfl
  have hone : (1 : BitVec 8).toNat = 1 := rfl
  constructor
  · rw [BitVec.lt_def, BitVec.toNat_ofNat, hzero]
    omega
  · rw [← BitVec.toNat_inj, BitVec.toNat_sub, BitVec.toNat_ofNat, hzero, hone]
    omega

/-- A counter that is not zero goes down by one, unless it sticks. -/
theorem wroostDecCounter_spec (wtd : WroostThreadData)
    (hpos : wroostReadCounter wtd i ≠ 3 → 0 < wroostReadCounter wtd i) :
    ∃ w, wroostDecCounter wtd i = some w ∧
      (∀ j, wroostReadCounter w j =
        if j = i ∧ wroostReadCounter wtd i ≠ 3 then wroostReadCounter wtd i - 1
        else wroostReadCounter wtd j) ∧
      fineIds w = fineIds wtd ∧ w.readNestingDepth = wtd.readNestingDepth := by
  have hlt := wroostReadCounter_lt wtd i
  unfold wroostDecCounter
  dsimp only
  split_ifs with hmax
  · exact ⟨wtd, rfl, fun j => (if_neg fun e => e.2 hmax).symm, rfl, rfl⟩
  refine ⟨wroostWriteCounter wtd i _, by rw [enforce, if_pos (hpos hmax)]; rfl, fun j => ?_, rfl,
    rfl⟩
  rw [wroostReadCounter_write (by omega)]
  simp [hmax]

/-- A release that is not taken for the last one. -/
theorem postReadRelease_spec (h : ReaderInv g s) (hid : id ∈ s.held)
    (hpos : s.held.length % 256 ≠ 0) (hmore : s.held.length % 256 ≠ 1) :
    ∃ w, postReadRelease g s.wtd id = some w ∧
      ReaderInv g { wtd := w, held := s.held.erase id } := by
  have hlt : id / g.coarseFactor < 32 := coarse_lt (h.held_lt id hid)
  obtain ⟨i, hi⟩ : ∃ i : Fin 32, i = ⟨_, hlt⟩ := ⟨_, rfl⟩
  have hcoarse : g.coarse id = i := by rw [hi]; rfl
  obtain ⟨w, hw, hctr, hfine, hdepth⟩ := wroostDecCounter_spec
    { s.wtd with readNestingDepth := s.wtd.readNestingDepth - 1 } (i := i) fun hne =>
      (length_pos_of_mem (mem_inRange.2 ⟨hid, hcoarse⟩)).trans_eq (h.counted i hne).symm
  have hrun : postReadRelease g s.wtd id =
      some (if wroostReadCounter s.wtd i < 3 then dropFineEntry w id else w) := by
    have hgt : 0 < s.wtd.readNestingDepth := h.depth ▸ depth_facts.1.2 hpos
    have hne : ¬ s.wtd.readNestingDepth - 1 = 0 := h.depth ▸ depth_facts.2.not.2 hmore
    simp only [postReadRelease, enforce, if_pos hgt, if_neg hne, dif_pos hlt,
      bind_eq_bind, bind_some, ← hi, hw]
    rfl
  refine ⟨_, hrun, ?_⟩
  split_ifs with hsat
  · obtain ⟨hdrop, hc, hd⟩ := fineIds_drop w id
    refine h.released hid hcoarse (hd.trans hdepth) (fun j => ?_) (hfine ▸ hdrop)
    rw [wroostReadCounter_congr hc, hctr]
    rfl
  · -- a saturated counter has no entries to drop
    refine h.released hid hcoarse hdepth hctr (.inr ⟨fun hmem => ?_, hfine⟩)
    have hlt4 := wroostReadCounter_lt s.wtd i
    have hnone := h.absent i (.inr (by omega))
    exact not_mem_nil (hnone ▸ mem_inRange.2 ⟨hmem, hcoarse⟩)

/-- A release that is taken for the last one clears everything. -/
theorem postReadRelease_clear (id : ℕ) (h : ReaderInv g s) (hone : s.held.length % 256 = 1) :
    ∃ w, postReadRelease g s.wtd id = some w ∧ (∀ i, wroostReadCounter w i = 0) ∧
      fineIds w = [] ∧ w.readNestingDepth = 0 := by
  have hgt : 0 < s.wtd.readNestingDepth := h.depth ▸ depth_facts.1.2 (by omega)
  have heq : s.wtd.readNestingDepth - 1 = 0 := h.depth ▸ depth_facts.2.2 hone
  have hrun : postReadRelease g s.wtd id = some { s.wtd with
      counters := fun _ => 0
      fineValid := 0
      readNestingDepth := 0 } := by
    simp only [postReadRelease, enforce, if_pos hgt, heq, if_true, bind_eq_bind, bind_some]
  refine ⟨_, hrun, fun i => ?_, ?_, rfl⟩
  · simp [wroostReadCounter]
  · rw [fineIds, show slot _ = fun _ => none from funext fun k => slot_eq_none.2
    (by simp [isValid])]
    exact SlotArray.entries_none

/-- At a multiple of 256 the byte is zero, and a release panics. -/
theorem postReadRelease_none (h : ReaderInv g s) (hzero : s.held.length % 256 = 0) :
    postReadRelease g s.wtd id = none := by
  have hnot : ¬ 0 < s.wtd.readNestingDepth := h.depth ▸ depth_facts.1.not.2 (by simpa using hzero)
  simp only [postReadRelease, enforce, if_neg hnot, bind_eq_bind, bind_none]

/-! ### Runs -/

/-- A release does not happen while the number of locks that are held is one more than a positive
multiple of 256. -/
def ReleaseSafe (s : Reader) : ReaderAct → Prop
  | .acquire _ => True
  | .release _ => s.held.length = 1 ∨ s.held.length % 256 ≠ 1

instance (s : Reader) : (a : ReaderAct) → Decidable (ReleaseSafe s a)
  | .acquire _ => inferInstanceAs (Decidable True)
  | .release _ => inferInstanceAs (Decidable (_ ∨ _))

theorem ReaderInv.step (h : ReaderInv g s) (hstep : readerStep g s a = some s')
    (hsafe : ReleaseSafe s a) : ReaderInv g s' := by
  cases a with
  | acquire id =>
    simp only [readerStep] at hstep
    split_ifs at hstep with hid
    obtain ⟨w, hw, hinv⟩ := postReadAcquire_spec h hid
    rw [hw, map_some, some.injEq] at hstep
    exact hstep ▸ hinv
  | release id =>
    simp only [readerStep] at hstep
    split_ifs at hstep with hid
    by_cases hzero : s.held.length % 256 = 0
    · rw [postReadRelease_none h hzero] at hstep
      cases hstep
    by_cases hone : s.held.length % 256 = 1
    · -- it really is the last one
      have hlast : s.held.length = 1 := hsafe.resolve_right (not_not.2 hone)
      obtain ⟨a, ha⟩ := length_eq_one_iff.1 hlast
      obtain rfl : id = a := mem_singleton.1 (ha ▸ hid)
      obtain ⟨w, hw, hctr, hfine, hdepth⟩ := postReadRelease_clear id h hone
      rw [hw, map_some, some.injEq, ha, erase_cons_head] at hstep
      subst hstep
      refine ⟨⟨fun i => .inr ?_, fun i _ => ?_, ?_, fun i _ => hctr i⟩, ?_, ?_, hdepth⟩
      · exact congrArg (g.inRange i) hfine
      · exact congrArg (g.inRange i) hfine
      · exact hfine ▸ nodup_nil
      · exact fun id hid => absurd hid not_mem_nil
      · exact fun id hid => absurd (hfine ▸ hid) not_mem_nil
    · obtain ⟨w, hw, hinv⟩ := postReadRelease_spec h hid hzero hone
      rw [hw, map_some, some.injEq] at hstep
      exact hstep ▸ hinv

/-- Any other release leaves counters at zero for locks that are held. -/
theorem releaseSafe_of_setsOk (h : ReaderInv g s) (hstep : readerStep g s a = some s')
    (hok : SetsOk g s') : ReleaseSafe s a := by
  cases a with
  | acquire id => trivial
  | release id =>
    by_contra hsafe
    obtain ⟨hmore, hone⟩ := not_or.1 hsafe
    rw [not_not] at hone
    simp only [readerStep] at hstep
    split_ifs at hstep with hid
    obtain ⟨w, hw, hctr, -, -⟩ := postReadRelease_clear id h hone
    rw [hw, map_some, some.injEq] at hstep
    subst hstep
    have hlen := length_erase_of_mem hid
    obtain ⟨id', hid'⟩ := exists_mem_of_length_pos (l := s.held.erase id) (by omega)
    have hlt := coarse_lt (h.held_lt id' (mem_of_mem_erase hid'))
    have hcount := hok.counted ⟨g.coarse id', hlt⟩ (by rw [hctr]; omega)
    rw [hctr] at hcount
    have hpos := length_pos_of_mem (mem_inRange.2 ⟨hid', rfl⟩ :
      id' ∈ g.inRange ⟨g.coarse id', hlt⟩ (s.held.erase id))
    exact absurd hcount hpos.ne

/-- A run of the thread in which every release is safe. -/
def ReaderRun (g : WroostGlobals) : Reader → Reader → Prop :=
  Relation.ReflTransGen fun s s' => ∃ a, readerStep g s a = some s' ∧ ReleaseSafe s a

theorem ReaderRun.inv {s : Reader} (hrun : ReaderRun g s s') (h : ReaderInv g s) :
    ReaderInv g s' := by
  induction hrun with
  | refl => exact h
  | tail _ hstep ih =>
    obtain ⟨a, hstep, hsafe⟩ := hstep
    exact ih.step hstep hsafe

/-- A list of actions, one after the other. -/
def readerTrace (g : WroostGlobals) (s : Reader) (acts : List ReaderAct) : Option Reader :=
  acts.foldlM (readerStep g) s

/-- A list of actions whose releases are all safe. -/
def readerTraceSafe (g : WroostGlobals) (s : Reader) (acts : List ReaderAct) : Option Reader :=
  acts.foldlM (fun s a => if ReleaseSafe s a then readerStep g s a else none) s

theorem readerTraceSafe_run {acts : List ReaderAct} {s : Reader}
    (h : readerTraceSafe g s acts = some s') : ReaderRun g s s' :=
  reflTransGen_of_trace h fun _ a _ hs => by
    obtain ⟨hsafe, hstep⟩ := ite_none_right_eq_some.mp hs
    exact ⟨a, hstep, hsafe⟩

/-- The smallest table. -/
def smallTable : WroostGlobals where
  bucketCount := 256
  isPow2 := ⟨8, by decide, by decide, rfl⟩

/-- However a thread acquires and releases read locks, the sets describe the locks that it holds,
as long as no release is taken for the last one by mistake. -/
theorem readerRun_setsOk (g : WroostGlobals) {s : Reader} (hrun : ReaderRun g Reader.init s) :
    SetsOk g s :=
  (hrun.inv (ReaderInv.init g)).toSetsOk

/-- Three locks are taken, two of them in one range, and one of the two is released first. -/
theorem readerRun_setsOk_three :
    ∃ s, ReaderRun smallTable Reader.init s ∧ fineIds s.wtd = [5, 9] ∧ SetsOk smallTable s := by
  have hfine : (readerTraceSafe smallTable Reader.init
      [.acquire 3, .acquire 5, .acquire 9, .release 3]).map (fineIds ·.wtd) = some [5, 9] := by
    decide +kernel
  obtain ⟨s, hs, hfine⟩ := map_eq_some_iff.mp hfine
  have hrun := readerTraceSafe_run hs
  exact ⟨s, hrun, hfine, readerRun_setsOk smallTable hrun⟩

/-- At every state of a run, exactly the safe steps keep the sets right. -/
theorem readerStep_setsOk_iff {g : WroostGlobals} {s s' : Reader} {a : ReaderAct}
    (hrun : ReaderRun g Reader.init s) (hstep : readerStep g s a = some s') :
    SetsOk g s' ↔ ReleaseSafe s a :=
  have hinv := hrun.inv (ReaderInv.init g)
  ⟨releaseSafe_of_setsOk hinv hstep, fun hsafe => (hinv.step hstep hsafe).toSetsOk⟩

/-- With 257 locks held, the release of one of them leaves the sets wrong. -/
theorem readerStep_setsOk_iff_release : ∃ s s', ReaderRun smallTable Reader.init s ∧
    s.held = replicate 257 0 ∧ readerStep smallTable s (.release 0) = some s' ∧
    ¬ SetsOk smallTable s' := by
  have hobs : (readerTraceSafe smallTable Reader.init (replicate 257 (.acquire 0))).map
      (fun s => (s.held, (readerStep smallTable s (.release 0)).isSome)) =
      some (replicate 257 0, true) := by
    decide +kernel
  obtain ⟨s, hs, hobs⟩ := map_eq_some_iff.mp hobs
  obtain ⟨hheld, hpossible⟩ := Prod.mk.inj hobs
  obtain ⟨s', hstep⟩ := isSome_iff_exists.mp hpossible
  have hrun := readerTraceSafe_run hs
  refine ⟨s, s', hrun, hheld, hstep, ?_⟩
  rw [readerStep_setsOk_iff hrun hstep, ReleaseSafe, hheld, length_replicate]
  decide

/-- After 257 acquisitions the byte is one. The next release clears the sets, with 256 locks still
held. -/
theorem readerTrace_cleared :
    ∃ s, readerTrace smallTable Reader.init
        (replicate 257 (.acquire 0) ++ [.release 0]) = some s ∧
      s.held = replicate 256 0 ∧ wroostReadCounter s.wtd 0 = 0 ∧ ¬ SetsOk smallTable s := by
  have hobs : (readerTrace smallTable Reader.init
      (replicate 257 (.acquire 0) ++ [.release 0])).map
        (fun s => (s.held, wroostReadCounter s.wtd 0)) = some (replicate 256 0, 0) := by
    decide +kernel
  obtain ⟨s, hs, hobs⟩ := map_eq_some_iff.mp hobs
  rw [Prod.mk.injEq] at hobs
  refine ⟨s, hs, hobs.1, hobs.2, fun hok => ?_⟩
  have hcount := hok.counted 0 (by rw [hobs.2]; decide)
  rw [hobs.1, hobs.2] at hcount
  exact absurd hcount (by decide +kernel)

end Charmos.ReaderSets
