import Charmos.Mem.Buddy.Alloc

/-!
# What `buddy_free_pages` does to the invariant

The merging loop looks at one word only, that of the buddy, and believes its tag, flag and
order. It is right to: a page that looks free lies in some block, and a block that contains the
buddy of a block starts there (`BuddyInv.mem_of_looks_free`). This needs the buddy to be a frame
of the allocator, which is the hypothesis `MergeInside`: walking up from the block through
buddies that are free, every buddy met below the bound lies in `[lo, hi)`.

The loop takes buddies off their lists with `buddy_fa_remove`, which does not clear their free
flag. The absorbed half then still looks free. Under `strict` the call must therefore merge at
most once, with the buddy below (`CleanFree`).
-/

namespace Charmos.Mem

open DyadicBlock Function List Touches

/-- Walking up from the block of order `order` at `pfn` through buddies that are free blocks of
the same order, for at most the given number of levels, every buddy met whose frame number is
below `total` lies in `[lo, hi)`. -/
def MergeInside (m : PageMem) (lo hi total : ℕ) : ℕ → ℕ → ℕ → Prop
  | 0, _, _ => True
  | fuel + 1, pfn, order => sibling pfn order < total →
    (lo ≤ sibling pfn order ∧ sibling pfn order < hi) ∧
      (buddyPageIsFree m (sibling pfn order) = true →
        buddyPageGetOrder m (sibling pfn order) = order →
        MergeInside m lo hi total fuel (min pfn (sibling pfn order)) (order + 1))

instance MergeInside.decidable (m : PageMem) (lo hi total : ℕ) :
    ∀ fuel pfn order, Decidable (MergeInside m lo hi total fuel pfn order)
  | 0, _, _ => isTrue trivial
  | fuel + 1, pfn, order =>
    have := MergeInside.decidable m lo hi total fuel (min pfn (sibling pfn order)) (order + 1)
    inferInstanceAs (Decidable (sibling pfn order < total →
      (lo ≤ sibling pfn order ∧ sibling pfn order < hi) ∧
        (buddyPageIsFree m (sibling pfn order) = true →
          buddyPageGetOrder m (sibling pfn order) = order →
          MergeInside m lo hi total fuel (min pfn (sibling pfn order)) (order + 1))))

/-- The freed block does not merge, or it merges once, with the buddy below it. -/
def CleanFree (m : PageMem) (total pfn order : ℕ) : Prop :=
  canMerge m total pfn order = true →
    sibling pfn order < pfn ∧ canMerge m total (sibling pfn order) (order + 1) = false

instance (m : PageMem) (total pfn order : ℕ) : Decidable (CleanFree m total pfn order) :=
  inferInstanceAs (Decidable (_ → _))

/-- The memories agree on the tags, flags and orders of the pages outside the block. -/
def AgreeOutside (m m' : PageMem) (p k : ℕ) : Prop :=
  ∀ q f, f ≠ MetaField.nextPfn → ¬ Covers p k q → m'.get q f = m.get q f

section Agreement

variable {m m' : PageMem} {lo hi total p k : ℕ}

theorem not_covers_sibling (hp : Aligned p k) : ¬ Covers p k (sibling p k) := fun h =>
  apart_iff_forall.mp (sibling_apart hp) _ h (covers_start _ _)

variable (h : AgreeOutside m m' p k)
include h

variable (hp : Aligned p k)
include hp

theorem AgreeOutside.isFree_sibling :
    buddyPageIsFree m' (sibling p k) = buddyPageIsFree m (sibling p k) :=
  buddyPageIsFree_congr (h _ _ (by decide) (not_covers_sibling hp))
    (h _ _ (by decide) (not_covers_sibling hp))

theorem AgreeOutside.order_sibling :
    buddyPageGetOrder m' (sibling p k) = buddyPageGetOrder m (sibling p k) :=
  h _ _ (by decide) (not_covers_sibling hp)

/-- Agreement outside a block is agreement outside its parent. -/
theorem AgreeOutside.parent :
    AgreeOutside m m' (min p (sibling p k)) (k + 1) := fun q f hf hq =>
  h q f hf fun hc => hq ((covers_parent_iff hp).mpr (Or.inl hc))

theorem AgreeOutside.canMerge_eq (total : ℕ) : canMerge m' total p k = canMerge m total p k := by
  rw [canMerge, canMerge, h.isFree_sibling hp, h.order_sibling hp]

theorem AgreeOutside.mergeInside {fuel : ℕ}
    (hin : MergeInside m lo hi total fuel p k) : MergeInside m' lo hi total fuel p k := by
  induction fuel generalizing p k with
  | zero => trivial
  | succ fuel ih =>
    intro hlt
    obtain ⟨hreg, hnext⟩ := hin hlt
    refine ⟨hreg, fun hf ho => ih (h.parent hp) (parent_aligned hp) (hnext ?_ ?_)⟩
    · rwa [← h.isFree_sibling hp]
    · rwa [← h.order_sibling hp]

end Agreement

variable {strict : Prop} {lo hi total : ℕ} {M : Set ℕ} {s : BuddyState} {L : ℕ → List ℕ}
  {out held : List Block} {p k : ℕ}

/-- The soundness of the merge test: if the word of the buddy of a held block carries the tag,
the flag and the order of the block, the buddy is on the free list of that order. -/
theorem BuddyInv.mem_of_looks_free (h : BuddyInv strict lo hi M s L out [(p, k)])
    (hreg : lo ≤ sibling p k ∧ sibling p k < hi)
    (hfree : buddyPageIsFree s.mem (sibling p k) = true)
    (hord : buddyPageGetOrder s.mem (sibling p k) = k) : sibling p k ∈ L k := by
  have hmem : (p, k) ∈ allBlocks L out [(p, k)] := BuddyInv.mem_held (by simp)
  have hal : Aligned p k := h.packed.aligned _ hmem
  obtain ⟨b, hb, hc, -⟩ := h.stale _ hreg.1 hreg.2 hfree
  have hstart : b.1 = sibling p k := h.packed.sibling_start hmem hb hc
  rcases mem_allBlocks.mp hb with ⟨hb2, hbL⟩ | hbh | hbo
  · have hbk : b.2 = k := by
      rw [← (h.free b.2 hb2 b.1 hbL).2.2, hstart]
      exact hord
    rwa [hbk, hstart] at hbL
  · have hbp : b = (p, k) := by simpa using hbh
    rw [hbp] at hstart
    exact absurd hstart.symm (sibling_ne hal)
  · have htag := (h.taken b hbo).1
    rw [hstart] at htag
    exact absurd (buddyPageIsFree_iff.mp hfree).1 htag

/-- Conversely a listed buddy passes the test of the loop. -/
theorem BuddyInv.canMerge_of_mem (h : BuddyInv strict lo hi M s L out held)
    (hk : k < buddyMaxOrder - 1) (hlt : sibling p k < total) (hL : sibling p k ∈ L k) :
    canMerge s.mem total p k = true := by
  obtain ⟨htag, hfree, hord⟩ := h.free k (by omega) _ hL
  have hf : buddyPageIsFree s.mem (sibling p k) = true := buddyPageIsFree_iff.mpr ⟨htag, by omega⟩
  simp [canMerge, hk, hlt, hf, buddyPageGetOrder, hord]

/-- One round of the merging loop. -/
theorem mergeStep_spec (h : BuddyInv strict lo hi M s L out [(p, k)])
    (hk : k + 1 < buddyMaxOrder) (hL : sibling p k ∈ L k)
    (hclean : strict → sibling p k < p ∧ buddyPageIsFree s.mem p = false) :
    ∃ s' L', mergeStep s p k = .ok s' ∧
      BuddyInv strict lo hi M s' L' out [(min p (sibling p k), k + 1)] ∧
      s'.mem.get (min p (sibling p k)) .tag = PageTag.buddy.code ∧
      s'.mem.get (min p (sibling p k)) .order = k + 1 ∧
      AgreeOutside s.mem s'.mem (min p (sibling p k)) (k + 1) ∧
      (∀ j, ∀ q ∈ L' j, q ∈ L j) ∧ Touches s.mem s'.mem (Scope lo hi out) := by
  have hk18 : k < buddyMaxOrder := by omega
  obtain ⟨a, b, hab⟩ := append_of_mem hL
  have htagged : buddyPageTag s.mem (sibling p k) = s.mem :=
    PageMem.set_eq_self _ (h.free k hk18 _ hL).1
  obtain ⟨h₁, hfield, ht₁⟩ := h.unlist hk18 hab
  set removed := buddyFaRemove s.mem (s.area k) (sibling p k) with hrem
  have hswap : BuddyInv strict lo hi M ⟨removed.1, update s.area k removed.2⟩
      (update L k (a ++ b)) out [(p, k), (sibling p k, k)] :=
    h₁.perm (fun _ hb => hb) (List.Perm.append_right _ (List.Perm.swap _ _ _))
  have h₂ := hswap.join hk fun hs => by
    obtain ⟨hlt, hf⟩ := hclean hs
    rw [max_eq_left hlt.le, ← hf]
    exact buddyPageIsFree_congr (hfield _ _ (by decide)) (hfield _ _ (by decide))
  set q := min p (sibling p k) with hq
  have hmemq : (q, k + 1) ∈ allBlocks (update L k (a ++ b)) out [(q, k + 1)] :=
    BuddyInv.mem_held (by simp)
  have hregq := h₂.covers_region hmemq (covers_start _ _)
  have hk128 : k + 1 < 128 := by
    rw [buddyMaxOrder] at hk
    omega
  set m := buddyPageTag (buddyPageSetOrder (buddyPageSetNextPfn removed.1 q 0) q (k + 1)) q
    with hm
  have hqq : q ∈ ({q} : Set ℕ) := rfl
  have htouch : Touches removed.1 m {q} :=
    ((set _ hqq _ _).trans (set _ hqq _ _)).trans (set _ hqq _ _)
  refine ⟨⟨m, update s.area k removed.2⟩, _, ?_, h₂.touch htouch (by rintro r rfl; simp),
    ?_, ?_, fun r f hf hr => ?_, fun j r hr => ?_, ?_⟩
  · have hderef : derefPage (pageForPfn removed.1 q) = .ok q :=
      derefPage_ok (lt_of_lt_of_le hregq.2 h₂.hi_le)
    simp only [mergeStep, htagged, ← hrem, ← hq, hderef, bind, Except.bind, pure, Except.pure, ← hm]
  · simp [hm, buddyPageTag, pageSetTag, PageTag.code, MetaField.bits]
  · simp [hm, buddyPageTag, pageSetTag, buddyPageSetOrder, MetaField.bits, hk128]
  · have hrq : r ≠ q := fun he => hr (he ▸ covers_start _ _)
    rw [htouch.get_eq (by simpa using hrq), hfield r f hf]
  · by_cases hj : j = k
    · subst hj
      rw [update_self] at hr
      rw [hab]
      rcases mem_append.mp hr with hr | hr <;> simp [hr]
    · rwa [update_of_ne hj] at hr
  · refine ht₁.trans (htouch.mono ?_)
    rintro r rfl
    exact h₂.held_scope (b := (q, k + 1)) (by simp)

/-- The merging loop ends at a block that does not merge any further. -/
theorem mergeLoop_spec (fuel : ℕ) (h : BuddyInv strict lo hi M s L out [(p, k)])
    (htag : s.mem.get p .tag = PageTag.buddy.code) (hord : s.mem.get p .order = k)
    (hfuel : k + fuel = buddyMaxOrder - 1) (hin : MergeInside s.mem lo hi total fuel p k)
    (hclean : strict → canMerge s.mem total p k = true →
      buddyPageIsFree s.mem p = false ∧ sibling p k < p ∧
        canMerge s.mem total (sibling p k) (k + 1) = false) :
    ∃ p' k' s' L', mergeLoop total fuel s p k = .ok (p', k', s') ∧
      BuddyInv strict lo hi M s' L' out [(p', k')] ∧
      s'.mem.get p' .tag = PageTag.buddy.code ∧ s'.mem.get p' .order = k' ∧
      canMerge s'.mem total p' k' = false ∧ (∀ j, ∀ q ∈ L' j, q ∈ L j) ∧
      Touches s.mem s'.mem (Scope lo hi out) ∧
      ∀ r ∈ mergeReads total fuel s p k, lo ≤ r ∧ r < hi := by
  induction fuel generalizing s L p k with
  | zero =>
    have hk : ¬ k < buddyMaxOrder - 1 := by omega
    exact ⟨p, k, s, L, rfl, h, htag, hord, by simp [canMerge, hk], fun _ _ hq => hq,
      refl _ _, by simp [mergeReads]⟩
  | succ fuel ih =>
    have hal : Aligned p k := h.packed.aligned (p, k) (BuddyInv.mem_held (by simp))
    have hk : k < buddyMaxOrder - 1 := by omega
    rw [mergeLoop, mergeReads]
    by_cases hlt : total ≤ sibling p k
    · rw [if_pos hlt, if_pos hlt]
      exact ⟨p, k, s, L, rfl, h, htag, hord, by simp [canMerge, hlt], fun _ _ hq => hq,
        refl _ _, by simp⟩
    rw [if_neg hlt, if_neg hlt]
    push Not at hlt
    obtain ⟨hreg, hnext⟩ := hin hlt
    rw [derefPage_ok (lt_of_lt_of_le hreg.2 h.hi_le)]
    by_cases hcan : canMerge s.mem total p k = true
    · have hcan' := hcan
      simp only [canMerge, Bool.and_eq_true, decide_eq_true_eq, beq_iff_eq] at hcan'
      obtain ⟨⟨-, hfree⟩, hso⟩ := hcan'
      have hmem := h.mem_of_looks_free hreg hfree hso
      obtain ⟨s₁, L₁, hstep, h₁, htag₁, hord₁, hagree, hsub₁, ht₁⟩ :=
        mergeStep_spec h (by omega) hmem fun hs =>
          ⟨(hclean hs hcan).2.1, (hclean hs hcan).1⟩
      have hpal := parent_aligned hal
      obtain ⟨p', k', s', L', hloop, h', htag', hord', hcan₂, hsub, ht, hreads⟩ :=
        ih h₁ htag₁ hord₁ (by omega) (hagree.mergeInside hpal (hnext hfree hso)) fun hs hc => by
          -- A second merge is excluded under `strict`.
          obtain ⟨-, hlow, hno⟩ := hclean hs hcan
          rw [hagree.canMerge_eq hpal, min_eq_right hlow.le, hno] at hc
          cases hc
      refine ⟨p', k', s', L', ?_, h', htag', hord', hcan₂, fun j q hq => hsub₁ j q (hsub j q hq),
        ht₁.trans ht, ?_⟩
      · have hcond : (!buddyPageIsFree s.mem (sibling p k) ||
            buddyPageGetOrder s.mem (sibling p k) != k) = false := by
          simp [hfree, hso]
        simp only [bind, Except.bind, hcond, Bool.false_eq_true, ↓reduceIte, hstep]
        exact hloop
      · rw [if_pos hcan, hstep]
        exact forall_mem_cons.mpr ⟨hreg, hreads⟩
    · have hcan' : canMerge s.mem total p k = false := by simpa using hcan
      have hcond : (!buddyPageIsFree s.mem (sibling p k) ||
          buddyPageGetOrder s.mem (sibling p k) != k) = true := by
        simp only [canMerge, hk, hlt, decide_true, Bool.true_and, Bool.and_eq_true,
          beq_iff_eq] at hcan
        cases hf : buddyPageIsFree s.mem (sibling p k) with
        | false => rfl
        | true => simpa [hf] using hcan
      refine ⟨p, k, s, L, ?_, h, htag, hord, hcan', fun _ _ hq => hq, refl _ _, ?_⟩
      · simp only [bind, Except.bind, hcond, ↓reduceIte, pure, Except.pure]
      · rw [if_neg hcan]
        simpa using hreg

/-- **Freeing.** Freeing a taken block whose word is untagged returns, puts the pages back on the
lists and keeps the invariant. Where the bound covers the whole region, coalesced lists stay
coalesced. -/
theorem buddyFreePages_spec {count : ℕ} (hcount : 0 < count)
    (h : BuddyInv strict lo hi M s L ((p, Nat.clog 2 count) :: out) [])
    (htag : s.mem.get p .tag = PageTag.none.code) (hp : p < total)
    (hin : MergeInside s.mem lo hi total (buddyMaxOrder - 1 - Nat.clog 2 count) p
      (Nat.clog 2 count))
    (hclean : strict → CleanFree s.mem total p (Nat.clog 2 count)) :
    ∃ s' L', buddyFreePages s (pfnToPage p) count total = .ok s' ∧
      BuddyInv strict lo hi M s' L' out [] ∧
      (hi ≤ total → Coalesced L → Coalesced L') ∧
      Touches s.mem s'.mem (Scope lo hi out) ∧
      ∀ r ∈ freeReads s (pfnToPage p) count total, lo ≤ r ∧ r < hi := by
  set k := Nat.clog 2 count with hkdef
  have hmem : (p, k) ∈ allBlocks L ((p, k) :: out) [] := BuddyInv.mem_out (by simp)
  have hk : k < buddyMaxOrder := h.packed.order_lt _ hmem
  have hpos : 0 < p := h.packed.pos _ hmem
  have hal : Aligned p k := h.packed.aligned _ hmem
  have hreg : lo ≤ p ∧ p < hi := h.covers_region hmem (covers_start _ _)
  have hflag := (h.taken (p, k) (by simp)).2
  have hcount63 : count ≤ 2 ^ 63 := by
    have h1 : count ≤ 2 ^ k := Nat.le_pow_clog (by omega) count
    have h2 : 2 ^ k ≤ 2 ^ 63 := Nat.pow_le_pow_right (by omega) (by
      rw [buddyMaxOrder] at hk
      omega)
    omega
  have hk128 : k < 128 := by
    rw [buddyMaxOrder] at hk
    omega
  have hpp : p ∈ ({p} : Set ℕ) := rfl
  have htouch : Touches s.mem (markFreed s.mem p k) {p} :=
    ((set _ hpp _ _).trans (set _ hpp _ _)).trans (set _ hpp _ _)
  have hagree : AgreeOutside s.mem (markFreed s.mem p k) p k := fun q f _ hq =>
    htouch.get_eq (by
      rintro rfl
      exact hq (covers_start _ _)) f
  have h₁ := h.hold.touch htouch (by rintro q rfl; simp)
  have hflag₁ : buddyPageIsFree (markFreed s.mem p k) p = false := by
    rw [← Bool.not_eq_true, buddyPageIsFree_iff]
    rintro ⟨-, hf⟩
    simp [markFreed, buddyPageTag, pageSetTag, buddyPageSetOrder, buddyPageSetNextPfn, hflag] at hf
  obtain ⟨p', k', s', L', hloop, h', htag', hord', hcan, hsub, ht, hreads⟩ :=
    mergeLoop_spec (buddyMaxOrder - 1 - k) h₁
      (by simp [markFreed, buddyPageTag, pageSetTag, PageTag.code, MetaField.bits])
      (by simp [markFreed, buddyPageTag, pageSetTag, buddyPageSetOrder, MetaField.bits, hk128])
      (by omega) (hagree.mergeInside hal hin) fun hs hc => by
        rw [hagree.canMerge_eq hal] at hc
        obtain ⟨hlow, hno⟩ := hclean hs hc
        refine ⟨hflag₁, hlow, ?_⟩
        have hpar := (hagree.parent hal).canMerge_eq (parent_aligned hal) total
        rw [min_eq_right hlow.le] at hpar
        rw [hpar, hno]
  obtain ⟨s₃, hadd, h₃, -, ht₃⟩ := h'.add htag' hord'
  refine ⟨s₃, _, ?_, h₃, fun htot hco => ?_, ?_, ?_⟩
  · have haddr : pfnToPage p ≠ 0 := by
      rw [pfnToPage, pageSize]
      omega
    have hderef : derefPage (pageForPfn s.mem p) = .ok p :=
      derefPage_ok (lt_of_lt_of_le hreg.2 h.hi_le)
    rw [buddyFreePages, if_neg (by omega)]
    simp only [pageToPfn_pfnToPage, hp, decide_true, enforce, ↓reduceIte,
      blockOrder_eq hcount63, ← hkdef, hderef, pageAssertTag_ok htag, hloop, bind, Except.bind]
    exact hadd
  · have hco' := hco.mono hsub
    have hmem' : (p', k') ∈ allBlocks L' out [(p', k')] := BuddyInv.mem_held (by simp)
    have hal' : Aligned p' k' := h'.packed.aligned _ hmem'
    -- Neither the buddy of the new block is listed, nor is the new block the buddy of a listed one.
    have hnot : k' < buddyMaxOrder - 1 → sibling p' k' ∉ L' k' := by
      intro hk' hL
      have hlt := (h'.covers_region (BuddyInv.mem_list (by omega) hL) (covers_start _ _)).2
      have hc := h'.canMerge_of_mem hk' (lt_of_lt_of_le hlt htot) hL
      rw [hc] at hcan
      cases hcan
    intro j hj q hq hsq
    by_cases hjk : j = k'
    · subst hjk
      rw [update_self] at hq hsq
      rcases mem_append.mp hq with hq | hq <;> rcases mem_append.mp hsq with hsq | hsq
      · exact hco' j hj q hq hsq
      · have he : sibling q j = p' := by simpa using hsq
        apply hnot hj
        rw [← he, sibling_sibling]
        exact hq
      · have he : q = p' := by simpa using hq
        exact hnot hj (he ▸ hsq)
      · have he : q = p' := by simpa using hq
        have he' : sibling q j = p' := by simpa using hsq
        exact sibling_ne (he ▸ hal') (he'.trans he.symm)
    · rw [update_of_ne hjk] at hq hsq
      exact hco' j hj q hq hsq
  · refine (htouch.mono ?_).trans (ht.trans ht₃)
    rintro q rfl
    exact h.hold.held_scope (b := (q, k)) (by simp)
  · simp only [freeReads, blockOrder_eq hcount63, pageToPfn_pfnToPage]
    exact forall_mem_cons.mpr ⟨hreg, hreads⟩

end Charmos.Mem
