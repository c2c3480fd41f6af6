import Charmos.Mem.Buddy.Core

/-!
# The invariant of the buddy allocator

Every block of pages is on a free list, taken by a client, or *held*: in the hands of a call
that is moving it from one place to another. `BuddyInv` relates the memory and the free areas
to the lists of starts `L k`, the taken blocks `out` and the held blocks `held`. The blocks are
packed in `[lo, hi)`, the free lists are linked as `L` says, the words of listed blocks carry the
tag, flag and order of the list, and a page that looks free to `buddy_page_is_free` lies in some
block. Under `strict` it is moreover the start of that block: no stale metadata is left behind.

Ownership moves by small lemmas, one for each kind of move, which keep the frames covered.
-/

namespace Charmos.Mem

open DyadicBlock Function List Or

/-- All blocks of the allocator. -/
def allBlocks (L : ℕ → List ℕ) (out held : List Block) : List Block :=
  gather buddyMaxOrder L ++ (held ++ out)

/-- The invariant of one array of free areas over the frames `[lo, hi)`, of which it manages those
in `M`. -/
structure BuddyInv (strict : Prop) (lo hi : ℕ) (M : Set ℕ) (s : BuddyState) (L : ℕ → List ℕ)
    (out held : List Block) : Prop where
  hi_le : hi ≤ s.mem.lastPfn
  last_le : s.mem.lastPfn ≤ 2 ^ 52
  list : ∀ k < buddyMaxOrder, FreeList s.mem (s.area k) (L k)
  free : ∀ k < buddyMaxOrder, ∀ p ∈ L k, s.mem.get p .tag = PageTag.buddy.code ∧
    s.mem.get p .isFree = 1 ∧ s.mem.get p .order = k
  taken : ∀ b ∈ out, s.mem.get b.1 .tag ≠ PageTag.buddy.code ∧ s.mem.get b.1 .isFree = 0
  packed : Packed buddyMaxOrder lo hi (allBlocks L out held)
  stale : ∀ q, lo ≤ q → q < hi → buddyPageIsFree s.mem q = true →
    ∃ b ∈ allBlocks L out held, b.Covers q ∧ (strict → b.1 = q)
  cover : covered (allBlocks L out held) = M

/-- The frames of the region that no taken block contains: those a call may store to. -/
def Scope (lo hi : ℕ) (out : List Block) : Set ℕ :=
  {q | lo ≤ q ∧ q < hi ∧ ∀ b ∈ out, ¬ b.Covers q}

theorem mem_allBlocks {L : ℕ → List ℕ} {out held : List Block} {b : Block} :
    b ∈ allBlocks L out held ↔ (b.2 < buddyMaxOrder ∧ b.1 ∈ L b.2) ∨ b ∈ held ∨ b ∈ out := by
  simp only [allBlocks, mem_append, mem_gather]

theorem buddyPageIsFree_iff {m : PageMem} {q : ℕ} :
    buddyPageIsFree m q = true ↔ m.get q .tag = PageTag.buddy.code ∧ m.get q .isFree ≠ 0 := by
  simp [buddyPageIsFree, pageGetTag]

theorem buddyPageIsFree_congr {m m' : PageMem} {q : ℕ} (ht : m'.get q .tag = m.get q .tag)
    (hf : m'.get q .isFree = m.get q .isFree) : buddyPageIsFree m' q = buddyPageIsFree m q := by
  rw [buddyPageIsFree, buddyPageIsFree, pageGetTag, pageGetTag, ht, hf]

namespace BuddyInv

variable {strict : Prop} {lo hi : ℕ} {M : Set ℕ} {s : BuddyState} {L : ℕ → List ℕ}
  {out held : List Block}
  {p k : ℕ} {b : Block} {m' : PageMem} {S : Set ℕ} {l : List ℕ} {held' : List Block}

/-! ### Where blocks start -/

theorem mem_list (hk : k < buddyMaxOrder) (hp : p ∈ L k) : (p, k) ∈ allBlocks L out held :=
  mem_allBlocks.mpr (inl ⟨hk, hp⟩)

theorem mem_held (hb : b ∈ held) : b ∈ allBlocks L out held :=
  mem_allBlocks.mpr (inr (inl hb))

theorem mem_out (hb : b ∈ out) : b ∈ allBlocks L out held :=
  mem_allBlocks.mpr (inr (inr hb))

section

variable (h : BuddyInv strict lo hi M s L out held)
include h

theorem held_notMem_out (hb : b ∈ held) : b ∉ out := by
  have hnd := h.packed.nodup
  rw [allBlocks, nodup_append, nodup_append] at hnd
  exact fun ho => hnd.2.1.2.2 b hb b ho rfl

theorem listed_notMem (hk : k < buddyMaxOrder) (hp : p ∈ L k) : (p, k) ∉ held ++ out := by
  have hnd := h.packed.nodup
  rw [allBlocks, nodup_append] at hnd
  exact fun ho => hnd.2.2 _ (mem_gather.mpr ⟨hk, hp⟩) _ ho rfl

/-- The start of a listed block is in no held block. -/
theorem listed_not_covered (hk : k < buddyMaxOrder)
    (hp : p ∈ L k) (hb : b ∈ held) : ¬ b.Covers p := by
  intro hc
  have he := h.packed.eq_of_covers (mem_held hb) (mem_list hk hp) hc (covers_start _ _)
  exact h.listed_notMem hk hp (he ▸ mem_append_left _ hb)

/-- The start of a taken block is in no held block. -/
theorem taken_not_covered {c : Block} (hc : c ∈ out) (hb : b ∈ held) : ¬ b.Covers c.1 := by
  intro hcov
  have he := h.packed.eq_of_covers (mem_held hb) (mem_out hc) hcov (covers_start _ _)
  exact h.held_notMem_out hb (he ▸ hc)

theorem list_inj {j : ℕ} (hk : k < buddyMaxOrder)
    (hj : j < buddyMaxOrder) (hpk : p ∈ L k) (hpj : p ∈ L j) : k = j := by
  have he := h.packed.start_inj (mem_list hk hpk) (mem_list hj hpj) rfl
  exact congrArg Prod.snd he

theorem covers_region (hb : b ∈ allBlocks L out held)
    {q : ℕ} (hq : b.Covers q) : lo ≤ q ∧ q < hi := by
  have h1 := h.packed.le b hb
  have h2 := h.packed.end_le b hb
  obtain ⟨h3, h4⟩ := hq
  omega

theorem listed_scope (hk : k < buddyMaxOrder) (hp : p ∈ L k) : p ∈ Scope lo hi out := by
  obtain ⟨h1, h2⟩ := h.covers_region (mem_list hk hp) (covers_start _ _)
  refine ⟨h1, h2, fun c hc hcov => ?_⟩
  have he := h.packed.eq_of_covers (mem_out hc) (mem_list hk hp) hcov (covers_start _ _)
  exact h.listed_notMem hk hp (he ▸ mem_append_right _ hc)

theorem held_scope (hb : b ∈ held) : b.1 ∈ Scope lo hi out := by
  obtain ⟨h1, h2⟩ := h.covers_region (mem_held hb) (covers_start _ _)
  refine ⟨h1, h2, fun c hc hcov => ?_⟩
  have he := h.packed.eq_of_covers (mem_out hc) (mem_held hb) hcov (covers_start _ _)
  exact h.held_notMem_out hb (he ▸ hc)

/-! ### Moves that keep the memory -/

/-- The lists of held and taken blocks may be reordered. -/
theorem perm {out' : List Block}
    (ho : ∀ b ∈ out', b ∈ out) (hp : (held ++ out).Perm (held' ++ out')) :
    BuddyInv strict lo hi M s L out' held' := by
  have hperm : (allBlocks L out held).Perm (allBlocks L out' held') := Perm.append_left _ hp
  refine ⟨h.hi_le, h.last_le, h.list, h.free, fun b hb => h.taken b (ho b hb),
    h.packed.perm hperm, fun q h1 h2 hq => ?_, (covered_perm hperm).symm.trans h.cover⟩
  obtain ⟨b, hb, hc⟩ := h.stale q h1 h2 hq
  exact ⟨b, hperm.mem_iff.mp hb, hc⟩

end

/-- A taken block is handed back to the allocator. -/
theorem hold (h : BuddyInv strict lo hi M s L (b :: out) held) :
    BuddyInv strict lo hi M s L out (b :: held) :=
  h.perm (fun _ hc => mem_cons_of_mem _ hc) perm_middle

/-- A held block is given to a client. -/
theorem release (h : BuddyInv strict lo hi M s L out (b :: held))
    (ht : s.mem.get b.1 .tag ≠ PageTag.buddy.code) (hf : s.mem.get b.1 .isFree = 0) :
    BuddyInv strict lo hi M s L (b :: out) held := by
  have hp : ((b :: held) ++ out).Perm (held ++ b :: out) := perm_middle.symm
  have hperm : (allBlocks L out (b :: held)).Perm (allBlocks L (b :: out) held) :=
    Perm.append_left _ hp
  refine ⟨h.hi_le, h.last_le, h.list, h.free, ?_, h.packed.perm hperm, fun q h1 h2 hq => ?_,
    (covered_perm hperm).symm.trans h.cover⟩
  · intro c hc
    rcases mem_cons.mp hc with rfl | hc
    · exact ⟨ht, hf⟩
    · exact h.taken c hc
  · obtain ⟨b, hb, hc⟩ := h.stale q h1 h2 hq
    exact ⟨b, hperm.mem_iff.mp hb, hc⟩

private theorem allBlocks_cons (b : Block) :
    (allBlocks L out (b :: held)).Perm (b :: allBlocks L out held) := perm_middle

/-- A held block is cut into its halves. -/
theorem split (h : BuddyInv strict lo hi M s L out ((p, k + 1) :: held)) :
    BuddyInv strict lo hi M s L out ((p, k) :: (p + 2 ^ k, k) :: held) := by
  have hp1 : (allBlocks L out ((p, k + 1) :: held)).Perm ((p, k + 1) :: allBlocks L out held) :=
    allBlocks_cons _
  have hp2 : (allBlocks L out ((p, k) :: (p + 2 ^ k, k) :: held)).Perm
      ((p, k) :: (p + 2 ^ k, k) :: allBlocks L out held) :=
    (allBlocks_cons _).trans (Perm.cons _ (allBlocks_cons _))
  refine ⟨h.hi_le, h.last_le, h.list, h.free, h.taken,
    ((h.packed.perm hp1).split).perm hp2.symm, fun q h1 h2 hq => ?_, ?_⟩
  · obtain ⟨b, hb, hc, hst⟩ := h.stale q h1 h2 hq
    rcases mem_cons.mp (hp1.mem_iff.mp hb) with rfl | hb
    · rcases covers_succ_iff.mp hc with hc' | hc'
      · exact ⟨(p, k), hp2.mem_iff.mpr (by simp), hc', hst⟩
      refine ⟨(p + 2 ^ k, k), hp2.mem_iff.mpr (by simp), hc', fun hs => ?_⟩
      have hpq : p = q := hst hs
      have hpos : 0 < 2 ^ k := by positivity
      have := hc'.1
      omega
    · exact ⟨b, hp2.mem_iff.mpr (by simp [hb]), hc, hst⟩
  · rw [covered_perm hp2, covered_split, ← covered_perm hp1, h.cover]

/-- Two held siblings become their parent. Under `strict` the page of the upper half must not
look free any more. -/
theorem join (h : BuddyInv strict lo hi M s L out ((p, k) :: (sibling p k, k) :: held))
    (hk : k + 1 < buddyMaxOrder)
    (hclean : strict → buddyPageIsFree s.mem (max p (sibling p k)) = false) :
    BuddyInv strict lo hi M s L out ((min p (sibling p k), k + 1) :: held) := by
  have hp1 : (allBlocks L out ((p, k) :: (sibling p k, k) :: held)).Perm
      ((p, k) :: (sibling p k, k) :: allBlocks L out held) :=
    (allBlocks_cons _).trans (Perm.cons _ (allBlocks_cons _))
  have hp2 : (allBlocks L out ((min p (sibling p k), k + 1) :: held)).Perm
      ((min p (sibling p k), k + 1) :: allBlocks L out held) := allBlocks_cons _
  have hal : Aligned p k := h.packed.aligned (p, k) (mem_held (by simp))
  refine ⟨h.hi_le, h.last_le, h.list, h.free, h.taken,
    ((h.packed.perm hp1).join hk).perm hp2.symm, fun q h1 h2 hq => ?_, ?_⟩
  · obtain ⟨b, hb, hc, hst⟩ := h.stale q h1 h2 hq
    have hmin : ∀ r, r = p ∨ r = sibling p k → strict → r = q → min p (sibling p k) = q := by
      rintro r hr hs rfl
      by_contra hne
      have hmax : max p (sibling p k) = r := by omega
      have := hclean hs
      rw [hmax, hq] at this
      cases this
    rcases mem_cons.mp (hp1.mem_iff.mp hb) with rfl | hb
    · exact ⟨(min p (sibling p k), k + 1), hp2.mem_iff.mpr (by simp),
        (covers_parent_iff hal).mpr (inl hc), fun hs => hmin p (inl rfl) hs (hst hs)⟩
    rcases mem_cons.mp hb with rfl | hb
    · exact ⟨(min p (sibling p k), k + 1), hp2.mem_iff.mpr (by simp),
        (covers_parent_iff hal).mpr (inr hc), fun hs => hmin _ (inr rfl) hs (hst hs)⟩
    · exact ⟨b, hp2.mem_iff.mpr (by simp [hb]), hc, hst⟩
  · rw [covered_perm hp2, ← covered_join hal, ← covered_perm hp1, h.cover]

/-! ### Moves that change the memory -/

section

variable (h : BuddyInv strict lo hi M s L out held)
include h

/-- Stores to pages that head no listed block, given what they leave of the taken blocks and of
the look of the pages stored to. -/
theorem store (ht : Touches s.mem m' S) (hlist : ∀ k < buddyMaxOrder, ∀ p ∈ L k, p ∉ S)
    (hout : ∀ b ∈ out, b.1 ∈ S → m'.get b.1 .tag ≠ PageTag.buddy.code ∧ m'.get b.1 .isFree = 0)
    (hst : ∀ q ∈ S, lo ≤ q → q < hi → ∃ b ∈ allBlocks L out held, b.1 = q) :
    BuddyInv strict lo hi M ⟨m', s.area⟩ L out held := by
  refine ⟨ht.lastPfn ▸ h.hi_le, ht.lastPfn ▸ h.last_le, fun k hk => ?_, fun k hk p hp => ?_,
    fun b hb => ?_, h.packed, fun q h1 h2 hq => ?_, h.cover⟩
  · exact (h.list k hk).touches ht (hlist k hk)
  · simp only [ht.get_eq (hlist k hk p hp)]
    exact h.free k hk p hp
  · by_cases hbS : b.1 ∈ S
    · exact hout b hb hbS
    · simp only [ht.get_eq hbS]
      exact h.taken b hb
  · by_cases hqS : q ∈ S
    · obtain ⟨b, hb, rfl⟩ := hst q hqS h1 h2
      exact ⟨b, hb, covers_start _ _, fun _ => rfl⟩
    · refine h.stale q h1 h2 ?_
      rw [← hq]
      exact (buddyPageIsFree_congr (ht.get_eq hqS _) (ht.get_eq hqS _)).symm

/-- Stores to pages of held blocks are free. -/
theorem touch (ht : Touches s.mem m' S) (hS : ∀ q ∈ S, ∃ b ∈ held, b.1 = q) :
    BuddyInv strict lo hi M ⟨m', s.area⟩ L out held := by
  refine h.store ht (fun k hk p hp hpS => ?_) (fun c hc hcS => ?_) fun q hqS _ _ => ?_
  · obtain ⟨b, hb, rfl⟩ := hS p hpS
    exact h.listed_not_covered hk hp hb (covers_start _ _)
  · obtain ⟨b, hb, he⟩ := hS _ hcS
    exact absurd (he ▸ covers_start _ _) (h.taken_not_covered hc hb)
  · obtain ⟨b, hb, he⟩ := hS q hqS
    exact ⟨b, mem_held hb, he⟩

/-- Stores outside the region leave everything as it is. -/
theorem frame (ht : Touches s.mem m' S) (hS : ∀ q ∈ S, lo ≤ q → ¬ q < hi) :
    BuddyInv strict lo hi M ⟨m', s.area⟩ L out held := by
  refine h.store ht (fun k hk p hp hpS => ?_) (fun c hc hcS => ?_) fun q hqS h1 h2 => ?_
  · obtain ⟨h1, h2⟩ := h.covers_region (mem_list hk hp) (covers_start _ _)
    exact hS p hpS h1 h2
  · obtain ⟨h1, h2⟩ := h.covers_region (mem_out hc) (covers_start _ _)
    exact absurd h2 (hS _ hcS h1)
  · exact absurd h2 (hS q hqS h1)

/-- The owner of a taken block may put a tag of its own on the first page. -/
theorem retag (hb : b ∈ out) {t : PageTag} (ht : t ≠ .buddy) :
    BuddyInv strict lo hi M ⟨pageSetTag s.mem b.1 t, s.area⟩ L out held := by
  have hcode : t.code % 2 ^ MetaField.tag.bits ≠ PageTag.buddy.code := by
    cases t <;> first | exact absurd rfl ht | decide
  refine h.store (Touches.set _ (Set.mem_singleton b.1) _ _) (fun k hk p hp hpS => ?_)
    (fun c hc hcS => ?_) fun q hq _ _ => ?_
  · have hpb : p = b.1 := hpS
    have he := h.packed.start_inj (mem_list hk hp) (mem_out hb) hpb
    exact h.listed_notMem hk hp (he ▸ mem_append_right _ hb)
  · have hcb : c.1 = b.1 := hcS
    have hfree := (h.taken c hc).2
    rw [hcb] at hfree ⊢
    simpa [pageSetTag] using And.intro hcode hfree
  · exact ⟨b, mem_out hb, (Set.mem_singleton_iff.mp hq).symm⟩

/-- The list of order `k` is replaced. Blocks move between the list and the held blocks, and
only pages of the old list and of held blocks are stored to. -/
theorem relist (hk : k < buddyMaxOrder)
    (ht : Touches s.mem m' S) (hS : ∀ q ∈ S, q ∈ L k ∨ ∃ b ∈ held, b.1 = q)
    (hf : ∀ q f, f ≠ MetaField.nextPfn → (∀ b ∈ held, b.1 ≠ q) → m'.get q f = s.mem.get q f)
    {a' : BuddyFreeArea} {l' : List ℕ} (hl : FreeList m' a' l')
    (hperm : (allBlocks L out held).Perm (allBlocks (update L k l') out held'))
    (hnew : ∀ p ∈ l', p ∉ L k → m'.get p .tag = PageTag.buddy.code ∧ m'.get p .isFree = 1 ∧
      m'.get p .order = k) :
    BuddyInv strict lo hi M ⟨m', update s.area k a'⟩ (update L k l') out
      held' := by
  have hlisted : ∀ j < buddyMaxOrder, ∀ p ∈ L j, ∀ b ∈ held, b.1 ≠ p := by
    rintro j hj p hp b hb rfl
    exact h.listed_not_covered hj hp hb (covers_start _ _)
  have hkeep : ∀ j < buddyMaxOrder, ∀ p ∈ L j, m'.get p .tag = PageTag.buddy.code ∧
      m'.get p .isFree = 1 ∧ m'.get p .order = j := by
    intro j hj p hp
    have hne := hlisted j hj p hp
    rw [hf p .tag (by decide) hne, hf p .isFree (by decide) hne, hf p .order (by decide) hne]
    exact h.free j hj p hp
  refine ⟨ht.lastPfn ▸ h.hi_le, ht.lastPfn ▸ h.last_le, fun j hj => ?_, fun j hj p hp => ?_,
    fun b hb => ?_, h.packed.perm hperm, fun q h1 h2 hq => ?_,
    (covered_perm hperm).symm.trans h.cover⟩
  · by_cases hjk : j = k
    · subst hjk
      simpa using hl
    simp only [update_of_ne hjk]
    refine (h.list j hj).touches ht fun p hp hpS => ?_
    rcases hS p hpS with hpk | ⟨b, hb, he⟩
    · exact hjk (h.list_inj hj hk hp hpk)
    · exact hlisted j hj p hp b hb he
  · by_cases hjk : j = k
    · subst hjk
      rw [update_self] at hp
      by_cases hpL : p ∈ L j
      · exact hkeep j hj p hpL
      · exact hnew p hp hpL
    · rw [update_of_ne hjk] at hp
      exact hkeep j hj p hp
  · have hne : ∀ c ∈ held, c.1 ≠ b.1 := fun c hc he =>
      h.taken_not_covered hb hc (he ▸ covers_start _ _)
    rw [hf b.1 .tag (by decide) hne, hf b.1 .isFree (by decide) hne]
    exact h.taken b hb
  · by_cases hqh : ∀ b ∈ held, b.1 ≠ q
    · obtain ⟨b, hb, hc⟩ := h.stale q h1 h2 (by
        rw [← hq]
        exact (buddyPageIsFree_congr (hf q _ (by decide) hqh) (hf q _ (by decide) hqh)).symm)
      exact ⟨b, hperm.mem_iff.mp hb, hc⟩
    · push Not at hqh
      obtain ⟨b, hb, rfl⟩ := hqh
      exact ⟨b, hperm.mem_iff.mp (mem_held hb), covers_start _ _, fun _ => rfl⟩

end

/-- The free flag of a page, and nothing else, may have changed besides links. -/
def KeepsFields (m m' : PageMem) (p : ℕ) : Prop :=
  ∀ q f, f ≠ MetaField.nextPfn → (q = p → f ≠ .isFree) → m'.get q f = m.get q f

private theorem take_perm (hk : k < buddyMaxOrder) (hL : (L k).Perm (p :: l)) :
    (allBlocks L out held).Perm (allBlocks (update L k l) out ((p, k) :: held)) :=
  ((gather_perm hk L hL).append_right _).trans perm_middle.symm

/-- `buddy_remove_from_free_area` takes the first block of a list and clears its flag. -/
theorem pop (h : BuddyInv strict lo hi M s L out held) (hk : k < buddyMaxOrder)
    (hL : L k = p :: l) :
    ∃ s', buddyRemoveFromFreeArea s k = (some p, s') ∧
      BuddyInv strict lo hi M s' (update L k l) out ((p, k) :: held) ∧
      s'.mem.get p .isFree = 0 ∧ KeepsFields s.mem s'.mem p ∧
      Touches s.mem s'.mem (Scope lo hi out) := by
  have hlist := h.list k hk
  rw [hL] at hlist
  obtain ⟨hpop, hl⟩ := hlist.popHead h.last_le
  have hr := buddyFaPopHead_relinks hlist
  have hstep : buddyRemoveFromFreeArea s k = (some p,
      ⟨buddyPageSetFree (buddyFaPopHead s.mem (s.area k)).2.1 p false,
        update s.area k (buddyFaPopHead s.mem (s.area k)).2.2⟩) := by
    simp only [buddyRemoveFromFreeArea]
    rcases he : buddyFaPopHead s.mem (s.area k) with ⟨o, m, a⟩
    rw [he] at hpop
    subst hpop
    rfl
  refine ⟨_, hstep, ?_, ?_, ?_, ?_⟩
  · have h1 := h.relist hk hr.toTouches (fun q hq => inl (by rw [hL]; exact hq))
      (fun q f hf _ => hr.field q f hf) hl (take_perm hk (Perm.of_eq hL))
      (fun q hq hqL => absurd (by simp [hL, hq]) hqL)
    exact h1.touch (Touches.set _ (Set.mem_singleton p) _ _) (by rintro q rfl; simp)
  · simp [buddyPageSetFree]
  · intro q f hf hqp
    rw [← hr.field q f hf]
    simp only [buddyPageSetFree, PageMem.get_set]
    rw [if_neg fun hh => hqp hh.1 hh.2]
  · have hsub : {q | q ∈ p :: l} ⊆ Scope lo hi out := fun q hq => by
      refine h.listed_scope hk ?_
      rw [hL]
      exact hq
    exact (hr.toTouches.mono hsub).trans (Touches.set _ (hsub (by simp)) _ _)

/-- `buddy_fa_remove` takes a block out of the middle of a list, and leaves its flag alone. -/
theorem unlist (h : BuddyInv strict lo hi M s L out held) (hk : k < buddyMaxOrder)
    {a b : List ℕ} (hL : L k = a ++ p :: b) :
    BuddyInv strict lo hi M
        ⟨(buddyFaRemove s.mem (s.area k) p).1,
          update s.area k (buddyFaRemove s.mem (s.area k) p).2⟩
        (update L k (a ++ b)) out ((p, k) :: held) ∧
      (∀ q f, f ≠ MetaField.nextPfn →
        (buddyFaRemove s.mem (s.area k) p).1.get q f = s.mem.get q f) ∧
      Touches s.mem (buddyFaRemove s.mem (s.area k) p).1 (Scope lo hi out) := by
  have hlist := h.list k hk
  rw [hL] at hlist
  have hr := buddyFaRemove_relinks hlist
  refine ⟨?_, hr.field, hr.toTouches.mono fun q hq => ?_⟩
  · refine h.relist hk hr.toTouches (fun q hq => inl (by rw [hL]; exact hq))
      (fun q f hf _ => hr.field q f hf) (hlist.remove h.last_le)
      (take_perm hk ((Perm.of_eq hL).trans perm_middle)) fun q hq hqL => absurd ?_ hqL
    rw [hL]
    rcases mem_append.mp hq with hq | hq <;> simp [hq]
  · refine h.listed_scope hk ?_
    rw [hL]
    exact hq

/-- `buddy_add_to_free_area` appends a held block that is tagged and carries its order. -/
theorem add (h : BuddyInv strict lo hi M s L out ((p, k) :: held))
    (htag : s.mem.get p .tag = PageTag.buddy.code) (hord : s.mem.get p .order = k) :
    ∃ s', buddyAddToFreeArea s p k = .ok s' ∧
      BuddyInv strict lo hi M s' (update L k (L k ++ [p])) out held ∧
      KeepsFields s.mem s'.mem p ∧ Touches s.mem s'.mem (Scope lo hi out) := by
  have hmem : (p, k) ∈ allBlocks L out ((p, k) :: held) := mem_held (by simp)
  have hk : k < buddyMaxOrder := h.packed.order_lt _ hmem
  have hpos : 0 < p := h.packed.pos _ hmem
  have hreg := h.covers_region hmem (covers_start _ _)
  have hpL : p ∉ L k := fun hp =>
    h.listed_not_covered hk hp (b := (p, k)) (by simp) (covers_start _ _)
  have hlist := h.list k hk
  have hr := buddyFaPushTail_relinks hlist p
  have hl := hlist.pushTail h.last_le hpL hpos (by have := h.hi_le; omega)
  have hassert : pageAssertTag s.mem p .buddy = .ok () := by
    simp [pageAssertTag, pageGetTag, htag, enforce]
  set pushed := buddyFaPushTail s.mem (s.area k) p with hpushed
  have hset : Touches pushed.1 (buddyPageSetFree pushed.1 p true) {q | q = p ∨ q ∈ L k} :=
    Touches.set _ (inl rfl) _ _
  have hkeep : KeepsFields s.mem (buddyPageSetFree pushed.1 p true) p := by
    intro q f hf hqp
    rw [← hr.field q f hf]
    simp only [buddyPageSetFree, PageMem.get_set]
    rw [if_neg fun hh => hqp hh.1 hh.2]
  have hsub : {q | q = p ∨ q ∈ L k} ⊆ Scope lo hi out := by
    rintro q (rfl | hq)
    · exact h.held_scope (b := (q, k)) (by simp)
    · exact h.listed_scope hk hq
  have hlist' : FreeList (buddyPageSetFree pushed.1 p true) pushed.2 (L k ++ [p]) := by
    refine ⟨hl.dlist.congr (fun q _ => ?_) fun _ _ => rfl, hl.nrFree, hl.valid⟩
    exact buddyPageGetNext_congr rfl (by simp [buddyPageSetFree])
  refine ⟨⟨buddyPageSetFree pushed.1 p true, update s.area k pushed.2⟩, ?_, ?_, hkeep,
    (hr.toTouches.trans hset).mono hsub⟩
  · simp only [buddyAddToFreeArea, hassert, ← hpushed]
    rfl
  refine h.relist hk (hr.toTouches.trans hset) ?_ ?_ hlist' ?_ ?_
  · rintro q (rfl | hq)
    · exact inr ⟨(q, k), by simp, rfl⟩
    · exact inl hq
  · intro q f hf hq
    exact hkeep q f hf fun hqp => absurd hqp.symm (hq (p, k) (by simp))
  · have hp : (allBlocks (update L k (L k ++ [p])) out held).Perm
        (allBlocks (update (update L k (L k ++ [p])) k (L k)) out
          ((p, k) :: held)) :=
      take_perm hk (by rw [update_self]; exact perm_append_singleton p (L k))
    rw [update_idem, update_eq_self] at hp
    exact hp.symm
  · intro q hq hqL
    have hqp : q = p := by
      rcases mem_append.mp hq with hq | hq
      · exact absurd hq hqL
      · simpa using hq
    subst hqp
    refine ⟨?_, by simp [buddyPageSetFree, MetaField.bits], ?_⟩
    · rw [hkeep q .tag (by decide) fun _ => by decide, htag]
    · rw [hkeep q .order (by decide) fun _ => by decide, hord]

end BuddyInv

/-! ### An allocator with one free block -/

/-- The free areas that hold the block of order `k` at `p` and nothing else. -/
def singleArea (p k j : ℕ) : BuddyFreeArea :=
  if j = k then ⟨some p, some p, 1⟩ else ⟨none, none, 0⟩

/-- The lists of `singleArea`. -/
def singleList (p k j : ℕ) : List ℕ := if j = k then [p] else []

theorem gather_singleList {p k : ℕ} (hk : k < buddyMaxOrder) :
    (gather buddyMaxOrder (singleList p k)).Perm [(p, k)] := by
  have hnil : update (singleList p k) k [] = fun _ => [] := by
    funext j
    by_cases hj : j = k
    · subst hj
      rw [update_self]
    · rw [update_of_ne hj, singleList, if_neg hj]
  have h := gather_perm hk (singleList p k) (p := p) (l := []) (by simp [singleList])
  have hempty : gather buddyMaxOrder (fun _ => []) = [] := flatMap_eq_nil_iff.mpr fun _ _ => rfl
  rwa [hnil, hempty] at h

/-- One free block, linked and marked as such, satisfies the invariant. -/
theorem BuddyInv.single {strict : Prop} {m : PageMem} {lo hi p k : ℕ} (hk : k < buddyMaxOrder)
    (hlast : hi ≤ m.lastPfn ∧ m.lastPfn ≤ 2 ^ 52)
    (hp : 0 < p ∧ lo ≤ p ∧ p + 2 ^ k ≤ hi ∧ Aligned p k)
    (hlinks : buddyPageGetNext m p = none ∧ buddyPageGetPrev m p = none)
    (hword : m.get p .tag = PageTag.buddy.code ∧ m.get p .isFree = 1 ∧ m.get p .order = k)
    (hother : ∀ q, lo ≤ q → q < hi → buddyPageIsFree m q = true → q = p) :
    BuddyInv strict lo hi (covered [(p, k)]) ⟨m, singleArea p k⟩ (singleList p k) [] [] := by
  have hperm : (allBlocks (singleList p k) [] []).Perm [(p, k)] := by
    simpa [allBlocks] using gather_singleList hk
  refine ⟨hlast.1, hlast.2, fun j _ => ?_, fun j _ q hq => ?_, by simp, ?_, fun q h1 h2 hq => ?_,
    covered_perm hperm⟩
  · by_cases hj : j = k
    · subst hj
      simp only [singleArea, singleList, ↓reduceIte]
      have hpos : 0 < 2 ^ j := by positivity
      exact ⟨⟨rfl, rfl, ⟨hlinks.2, hlinks.1, trivial⟩, by simp⟩, rfl, by
        have := hlast.1
        intro q hq
        obtain rfl := mem_singleton.mp hq
        exact ⟨hp.1, by omega⟩⟩
    · simp only [singleArea, singleList, if_neg hj]
      exact ⟨DoublyLinked.DList.nil, rfl, by simp⟩
  · by_cases hj : j = k
    · subst hj
      obtain rfl : q = p := by simpa [singleList] using hq
      exact hword
    · simp [singleList, hj] at hq
  · refine Packed.perm ⟨?_, ?_, ?_, ?_, ?_, pairwise_singleton _ _⟩ hperm.symm
    all_goals
      intro b hb
      obtain rfl := mem_singleton.mp hb
    exacts [hk, hp.1, hp.2.1, hp.2.2.1, hp.2.2.2]
  · obtain rfl := hother q h1 h2 hq
    exact ⟨(q, k), hperm.mem_iff.mpr (by simp), covers_start _ _, fun _ => rfl⟩

end Charmos.Mem
