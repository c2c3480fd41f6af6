import Charmos.Mem.Buddy.Invariant

/-!
# What `buddy_alloc_pages` does to the invariant

A call that returns has taken the first block of the smallest non-empty order, cut it down to
the order of the request, kept the lower half at every cut and left the upper halves on the
lists of their orders, which were empty. The block handed out is untagged and its free flag is
clear. If no two buddies of one order were both free before the call, none are after it.
-/

namespace Charmos.Mem

open DyadicBlock Function List PageTag

/-- No two buddies of one order below the largest are both on the free list. -/
def Coalesced (L : ℕ → List ℕ) : Prop :=
  ∀ k < buddyMaxOrder - 1, ∀ p ∈ L k, sibling p k ∉ L k

/-- Removing starts from the lists keeps them coalesced. -/
theorem Coalesced.mono {L L' : ℕ → List ℕ} (h : Coalesced L)
    (hsub : ∀ k, ∀ q ∈ L' k, q ∈ L k) : Coalesced L' :=
  fun k hk p hp hs => h k hk p (hsub k p hp) (hsub k _ hs)

/-- Replacing one list by a single block keeps the lists coalesced. -/
theorem Coalesced.update_singleton {L : ℕ → List ℕ} (h : Coalesced L) {k q : ℕ}
    (hq : Aligned q k) : Coalesced (update L k [q]) := by
  intro j hj p hp hs
  by_cases hjk : j = k
  · subst hjk
    simp only [update_self, mem_singleton] at hp hs
    exact sibling_ne (hp ▸ hq) (hs.trans hp.symm)
  · rw [update_of_ne hjk] at hp hs
    exact h j hj p hp hs

variable {strict : Prop} {lo hi : ℕ} {M : Set ℕ} {s : BuddyState} {L : ℕ → List ℕ}
  {out held : List Block} {p k : ℕ} {l : List ℕ} {m : PageMem}

theorem pageAssertTag_ok {q : ℕ} {t : PageTag} (h : m.get q .tag = t.code) :
    pageAssertTag m q t = .ok () := by
  simp [pageAssertTag, pageGetTag, h, enforce]

theorem derefPage_ok {q : ℕ} (h : q < m.lastPfn) : derefPage (pageForPfn m q) = .ok q := by
  rw [pageForPfn, if_neg (by omega)]
  rfl

/-- One round of the splitting loop moves both halves of the block to the lower list. -/
theorem splitStep_spec (h : BuddyInv strict lo hi M s L out held) (hk : k + 1 < buddyMaxOrder)
    (hL : L (k + 1) = p :: l) :
    ∃ s', splitStep s k = .ok (true, s') ∧
      BuddyInv strict lo hi M s'
        (update (update L (k + 1) l) k (L k ++ [p, p + 2 ^ k])) out held ∧
      Touches s.mem s'.mem (Scope lo hi out) := by
  obtain ⟨s₁, hpop, h₁, -, hkeep, ht₁⟩ := h.pop hk hL
  have hfree := h.free (k + 1) hk p (by simp [hL])
  have htag₁ : s₁.mem.get p .tag = buddy.code := by
    rw [hkeep p .tag (by decide) fun _ => by decide, hfree.1]
  have h₂ := h₁.split
  have hpos : 0 < 2 ^ k := by positivity
  have hregb := h₂.covers_region (b := (p + 2 ^ k, k)) (q := p + 2 ^ k)
    (BuddyInv.mem_held (by simp)) (covers_start _ _)
  have hpb : p ≠ p + 2 ^ k := by omega
  have hbp : p + 2 ^ k ≠ p := by omega
  -- The stores to the two halves before they are listed.
  set m := buddyPageSetOrder (buddyPageSetOrder (buddyPageSetNextPfn
    (buddyPageTag s₁.mem (p + 2 ^ k)) (p + 2 ^ k) 0) p k) (p + 2 ^ k) k with hm
  have hb : p + 2 ^ k ∈ ({p, p + 2 ^ k} : Set ℕ) := Or.inr rfl
  have hp : p ∈ ({p, p + 2 ^ k} : Set ℕ) := Or.inl rfl
  have htouch : Touches s₁.mem m {p, p + 2 ^ k} :=
    (((Touches.set _ hb _ _).trans (Touches.set _ hb _ _)).trans (Touches.set _ hp _ _)).trans
      (Touches.set _ hb _ _)
  have h₃ := h₂.touch htouch (by rintro q (rfl | rfl) <;> simp)
  have hk128 : k < 128 := by
    rw [buddyMaxOrder] at hk
    omega
  have htagp : m.get p .tag = buddy.code := by
    simp [hm, buddyPageSetOrder, buddyPageSetNextPfn, buddyPageTag, pageSetTag, htag₁]
  have hordp : m.get p .order = k := by
    simp [hm, buddyPageSetOrder, MetaField.bits, hk128]
  have htagb : m.get (p + 2 ^ k) .tag = buddy.code := by
    simp [hm, buddyPageSetOrder, buddyPageSetNextPfn, buddyPageTag, pageSetTag, code,
      MetaField.bits]
  have hordb : m.get (p + 2 ^ k) .order = k := by
    simp [hm, buddyPageSetOrder, MetaField.bits, hk128]
  obtain ⟨s₄, hadd₄, h₄, hkeep₄, ht₄⟩ := h₃.add htagp hordp
  obtain ⟨s₅, hadd₅, h₅, -, ht₅⟩ := h₄.add (p := p + 2 ^ k)
    (by rw [hkeep₄ _ .tag (by decide) fun _ => by decide]; exact htagb)
    (by rw [hkeep₄ _ .order (by decide) fun _ => by decide]; exact hordb)
  refine ⟨s₅, ?_, ?_, ?_⟩
  · have hderef : derefPage (pageForPfn s₁.mem (p + 2 ^ k)) = .ok (p + 2 ^ k) :=
      derefPage_ok (by have := h₁.hi_le; omega)
    simp only [splitStep, hpop, pageAssertTag_ok htag₁, hderef, ← hm, hadd₄, hadd₅, bind,
      Except.bind, pure, Except.pure]
  · have hne : k ≠ k + 1 := by omega
    rw [update_self, update_idem, update_of_ne hne, append_assoc] at h₅
    exact h₅
  · refine ht₁.trans ((htouch.mono ?_).trans (ht₄.trans ht₅))
    rintro q (rfl | rfl)
    · exact h₂.held_scope (b := (q, k)) (by simp)
    · exact h₂.held_scope (b := (p + 2 ^ k, k)) (by simp)

/-- The splitting loop reaches the requested order with the lower halves, and leaves only upper
halves behind. -/
theorem splitLoop_spec (order d : ℕ) (hd : order + d < buddyMaxOrder)
    (h : BuddyInv strict lo hi M s L out held) (hL : L (order + d) = p :: l)
    (hempty : ∀ j, order ≤ j → j < order + d → L j = []) :
    ∃ s' L' l', splitLoop order d s = .ok (true, s') ∧ BuddyInv strict lo hi M s' L' out held ∧
      L' order = p :: l' ∧
      (Coalesced (update L (order + d) l) →
        Coalesced (update L' order l')) ∧
      Touches s.mem s'.mem (Scope lo hi out) := by
  induction d generalizing s L l with
  | zero => exact ⟨s, L, l, rfl, h, hL, id, Touches.refl _ _⟩
  | succ d ih =>
    obtain ⟨s₁, hstep, h₁, ht₁⟩ := splitStep_spec h (k := order + d) hd hL
    have hempty₁ : L (order + d) = [] := hempty _ (by omega) (by omega)
    rw [hempty₁, nil_append] at h₁
    obtain ⟨s', L', l', hloop, h', hL', hco, ht'⟩ := ih (l := [p + 2 ^ (order + d)]) (by omega) h₁
      (by rw [update_self]) fun j h1 h2 => by
        rw [update_of_ne (by omega), update_of_ne (by omega)]
        exact hempty j h1 (by omega)
    refine ⟨s', L', l', ?_, h', hL', fun hc => hco ?_, ht₁.trans ht'⟩
    · simp only [splitLoop, hstep, bind, Except.bind]
      exact hloop
    have hmem := h₁.packed.aligned (p + 2 ^ (order + d), order + d)
      (BuddyInv.mem_list (by omega) (by simp))
    have hidem : update (update (update L (order + (d + 1)) l)
        (order + d) [p, p + 2 ^ (order + d)]) (order + d) [p + 2 ^ (order + d)] =
        update (update L (order + (d + 1)) l) (order + d)
          [p + 2 ^ (order + d)] := update_idem _ _ _
    have hsucc : order + d + 1 = order + (d + 1) := rfl
    rw [hsucc, hidem]
    exact hc.update_singleton hmem

/-- The last part of the call hands out the first block of the order. -/
theorem takeBlock_spec (h : BuddyInv strict lo hi M s L out []) (hk : k < buddyMaxOrder)
    (hL : L k = p :: l) :
    ∃ s', takeBlock s k = .ok (pfnToPage p, s') ∧
      BuddyInv strict lo hi M s' (update L k l) ((p, k) :: out) [] ∧
      s'.mem.get p .tag = none.code ∧ Touches s.mem s'.mem (Scope lo hi out) := by
  obtain ⟨s₁, hpop, h₁, hf, hkeep, ht₁⟩ := h.pop hk hL
  have htag₁ : s₁.mem.get p .tag = buddy.code := by
    rw [hkeep p .tag (by decide) fun _ => by decide, (h.free k hk p (by simp [hL])).1]
  have htouch : Touches s₁.mem (buddyPageUntag s₁.mem p) {p} :=
    Touches.set _ (Set.mem_singleton p) _ _
  have h₂ := h₁.touch htouch (by rintro q rfl; simp)
  have htag₂ : (buddyPageUntag s₁.mem p).get p .tag = none.code := by
    simp [buddyPageUntag, pageSetTag, code]
  refine ⟨⟨buddyPageUntag s₁.mem p, s₁.area⟩, ?_, h₂.release ?_ ?_, htag₂, ?_⟩
  · simp only [takeBlock, hpop, pageAssertTag_ok htag₁]
    rfl
  · rw [htag₂]
    decide
  · simpa [buddyPageUntag, pageSetTag] using hf
  · refine ht₁.trans (htouch.mono ?_)
    rintro q rfl
    exact h₁.held_scope (b := (q, k)) (by simp)

/-- **Allocation.** A call that returns hands out a whole block of order `⌈log₂ count⌉`, with
its word untagged, and keeps the invariant; coalesced lists stay coalesced. -/
theorem buddyAllocPages_spec (h : BuddyInv strict lo hi M s L out []) {count addr : ℕ}
    {s' : BuddyState} (hres : buddyAllocPages s count = .ok (addr, s')) :
    ∃ p L', addr = pfnToPage p ∧
      BuddyInv strict lo hi M s' L' ((p, Nat.clog 2 count) :: out) [] ∧
      s'.mem.get p .tag = none.code ∧ (Coalesced L → Coalesced L') ∧
      Touches s.mem s'.mem (Scope lo hi out) := by
  rw [buddyAllocPages] at hres
  split_ifs at hres with hc
  · cases hres
  cases hord : blockOrder count with
  | error e => rw [hord] at hres; cases hres
  | ok order =>
    obtain ⟨-, rfl⟩ := blockOrder_ok_iff.mp hord
    rw [hord] at hres
    simp only [bind, Except.bind, pure, Except.pure] at hres
    set order := Nat.clog 2 count
    split_ifs at hres with h18 hcur
    obtain ⟨hge, hle, hzero, hne⟩ := findOrder_spec s.area (buddyMaxOrder - order) order
    set cur := findOrder s.area (buddyMaxOrder - order) order
    push Not at h18 hcur
    have hcur' : order + (cur - order) = cur := by omega
    have hnil : ∀ j, order ≤ j → j < cur → L j = [] := fun j h1 h2 =>
      (h.list j (by omega)).nrFree_eq_zero_iff.mp (hzero j h1 h2)
    have hcons : L cur ≠ [] := fun hn =>
      hne (by omega) ((h.list cur hcur).nrFree_eq_zero_iff.mpr hn)
    obtain ⟨p, l, hL⟩ := exists_cons_of_ne_nil hcons
    obtain ⟨s₁, L₁, l₁, hloop, h₁, hL₁, hco, ht₁⟩ := splitLoop_spec order (cur - order)
      (by omega) h (l := l) (by rw [hcur']; exact hL) (by rw [hcur']; exact hnil)
    obtain ⟨s₂, htake, h₂, htag, ht₂⟩ := takeBlock_spec h₁ h18 hL₁
    rw [hloop] at hres
    simp only [htake] at hres
    obtain ⟨⟩ := hres
    refine ⟨p, _, rfl, h₂, htag, fun hc => hco ?_, ht₁.trans ht₂⟩
    rw [hcur']
    refine hc.mono fun k q hq => ?_
    by_cases hk : k = cur
    · subst hk
      rw [update_self] at hq
      rw [hL]
      exact mem_cons_of_mem _ hq
    · rwa [update_of_ne hk] at hq

end Charmos.Mem
