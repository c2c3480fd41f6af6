import Charmos.Mem.Buddy.Init

/-!
# Distributing the global blocks to the domains

`domain_claim_global_blocks` takes the blocks off the global free lists, order by order from the
largest, gives those inside the domain to it, puts those outside back and halves the others
(`mem/domain/init.c`). `domainsInit_spec` says what a run over all domains leaves.
-/

namespace Charmos.Mem

open DyadicBlock Function List

/-- The global free lists and those of the domain, from head to tail. -/
structure FreeLists where
  global : ℕ → List ℕ
  domain : ℕ → List ℕ

def domainDistributeBlock (domainStart domainEnd : ℕ) (order startPfn : ℕ) (s : FreeLists) :
    FreeLists :=
  if startPfn + 2 ^ order ≤ domainStart ∨ startPfn ≥ domainEnd then
    { s with global := addBlock s.global order startPfn }
  else if startPfn ≥ domainStart ∧ startPfn + 2 ^ order ≤ domainEnd then
    { s with domain := addBlock s.domain order startPfn }
  else match order with
    -- a single page is inside or outside
    | 0 => s
    | halfOrder + 1 =>
      domainDistributeBlock domainStart domainEnd halfOrder (startPfn + 2 ^ halfOrder)
        (domainDistributeBlock domainStart domainEnd halfOrder startPfn s)

/-- `buddy_page_set_next(page, pending)`; the link to page 0 is the end of the chain. -/
def pushPending (pending : List ℕ) (page : ℕ) : List ℕ :=
  if pending.head? = some 0 then [page] else page :: pending

/-- One round of the loop over the orders. -/
def claimOrder (domStart domEnd order : ℕ) (s : FreeLists) : FreeLists :=
  ((s.global order).foldl pushPending []).foldl
    (fun s pfn => domainDistributeBlock domStart domEnd order pfn s)
    { s with global := update s.global order [] }

def domainClaimGlobalBlocks (domStart domEnd : ℕ) (s : FreeLists) : FreeLists :=
  (List.range buddyMaxOrder).foldr (claimOrder domStart domEnd) s

/-- `domain_buddy_init` for each domain in turn, given by its first frame and its end. -/
def domainsInit : List (ℕ × ℕ) → (ℕ → List ℕ) → (ℕ → List ℕ) × List ((ℕ × ℕ) × (ℕ → List ℕ))
  | [], farea => (farea, [])
  | dom :: doms, farea =>
    let s := domainClaimGlobalBlocks dom.1 dom.2 ⟨farea, fun _ => []⟩
    ((domainsInit doms s.global).1, (dom, s.domain) :: (domainsInit doms s.global).2)

/-- An aligned block without a page of the domain, and one with pages of the domain only. -/
def Outside (lo hi p k : ℕ) : Prop := 0 < p ∧ Aligned p k ∧ (p + 2 ^ k ≤ lo ∨ hi ≤ p)

@[inherit_doc Outside]
def Inside (lo hi p k : ℕ) : Prop := Aligned p k ∧ lo ≤ p ∧ p + 2 ^ k ≤ hi

/-- From `s` to `t` the blocks that cover a page `n q` times were added: to the global lists where
they are outside, to the domain where they are inside. -/
structure Distributed (lo hi : ℕ) (n : ℕ → ℕ) (s t : FreeLists) : Prop where
  pages : ∀ q, listed t.global q + listed t.domain q =
    listed s.global q + listed s.domain q + n q
  global : ∀ k p, p ∈ t.global k → p ∈ s.global k ∨ Outside lo hi p k
  domain : ∀ k p, p ∈ t.domain k → p ∈ s.domain k ∨ Inside lo hi p k

variable {lo hi p k n : ℕ} {s t u : FreeLists} {farea : ℕ → List ℕ} {f g : ℕ → ℕ}

theorem Distributed.trans (h : Distributed lo hi f s t) (h' : Distributed lo hi g t u) :
    Distributed lo hi (fun q => f q + g q) s u where
  pages q := by rw [h'.pages, h.pages, add_assoc]
  global k p hp := (h'.global k p hp).elim (h.global k p) Or.inr
  domain k p hp := (h'.domain k p hp).elim (h.domain k p) Or.inr

theorem domainDistributeBlock_spec (hk : k < buddyMaxOrder) (hp : 0 < p) (ha : Aligned p k) :
    Distributed lo hi (fun q => if p ≤ q ∧ q < p + 2 ^ k then 1 else 0) s
      (domainDistributeBlock lo hi k p s) := by
  fun_induction domainDistributeBlock lo hi k p s with
  | case1 k p s hout =>
    refine ⟨fun q => ?_, fun j x hx => ?_, fun _ _ => Or.inl⟩
    · rw [listed_addBlock hk, add_right_comm]
    · exact (mem_addBlock hx).imp_right fun ⟨hx, hj⟩ => by rw [hx, hj]; exact ⟨hp, ha, hout⟩
  | case2 k p s hout hin =>
    refine ⟨fun q => ?_, fun _ _ => Or.inl, fun j x hx => ?_⟩
    · rw [listed_addBlock hk, add_assoc]
    · exact (mem_addBlock hx).imp_right fun ⟨hx, hj⟩ => by rw [hx, hj]; exact ⟨ha, hin⟩
  | case3 p s hout hin => omega
  | case4 p s k hout hin ih₁ ih₂ =>
    have h := (ih₁ (by omega) hp ha.of_succ).trans (ih₂ (by omega) (by omega) ha.of_succ.upper)
    refine { h with pages := fun q => (h.pages q).trans ?_ }
    have hpow : 2 ^ (k + 1) = 2 ^ k + 2 ^ k := by ring
    split_ifs <;> omega

/-- The blocks of a list of one order. -/
theorem foldl_distribute (hk : k < buddyMaxOrder) {l : List ℕ} (hl : ∀ p ∈ l, 0 < p ∧ Aligned p k) :
    Distributed lo hi (fun q => l.countP fun p => decide (p ≤ q) && decide (q < p + 2 ^ k)) s
      (l.foldl (fun s p => domainDistributeBlock lo hi k p s) s) := by
  induction l generalizing s with
  | nil => exact ⟨fun _ => rfl, fun _ _ => Or.inl, fun _ _ => Or.inl⟩
  | cons p l ih =>
    obtain ⟨hp, ha⟩ := hl p mem_cons_self
    have h := (@domainDistributeBlock_spec lo hi p k s hk hp ha).trans
      (ih fun q hq => hl q (mem_cons_of_mem p hq))
    refine { h with pages := fun q => (h.pages q).trans ?_ }
    simp only [countP_cons, Bool.and_eq_true, decide_eq_true_eq]
    omega

theorem foldl_pushPending {l pending : List ℕ} (hl : ∀ p ∈ l, 0 < p)
    (h : pending.head? ≠ some 0) : l.foldl pushPending pending = l.reverse ++ pending := by
  induction l generalizing pending with
  | nil => rfl
  | cons p l ih =>
    have hp := hl p mem_cons_self
    rw [foldl_cons, pushPending, if_neg h, ih (fun q hq => hl q (mem_cons_of_mem p hq))
      (by simp; omega), reverse_cons, append_assoc, singleton_append]

theorem listed_update (hk : k < buddyMaxOrder) (farea : ℕ → List ℕ) (l : List ℕ) (q : ℕ) :
    listed (update farea k l) q = listed (update farea k []) q +
      l.countP fun p => decide (p ≤ q) && decide (q < p + 2 ^ k) := by
  induction l with
  | nil => rfl
  | cons p l ih =>
    have h := gather_perm hk (update farea k (p :: l)) (List.Perm.of_eq (update_self ..))
    rw [update_idem] at h
    rw [countP_cons, ← add_assoc, ← ih]
    simp only [listed, h.countP_eq, countP_cons]

/-- With the orders below `n` claimed, what they have is outside the domain. -/
theorem claimOrders_spec (hn : n ≤ buddyMaxOrder)
    (hg : ∀ k p, p ∈ s.global k → 0 < p ∧ Aligned p k) :
    Distributed lo hi (fun _ => 0) s ((List.range n).foldr (claimOrder lo hi) s) ∧
    ∀ k < n, ∀ p ∈ ((List.range n).foldr (claimOrder lo hi) s).global k, Outside lo hi p k := by
  induction n generalizing s with
  | zero => exact ⟨⟨fun _ => rfl, fun _ _ => Or.inl, fun _ _ => Or.inl⟩, fun _ hk => by omega⟩
  | succ n ih =>
    rw [range_succ, foldr_append, foldr_cons, foldr_nil]
    have hd := @foldl_distribute lo hi n { s with global := update s.global n [] } hn
      (s.global n).reverse fun p hp => hg n p (mem_reverse.mp hp)
    have ht : claimOrder lo hi n s = _ := congrArg (foldl _ _)
      ((foldl_pushPending (fun p hp => (hg n p hp).1) (by simp)).trans (append_nil _))
    rw [← ht] at hd
    generalize claimOrder lo hi n s = t at hd
    have hst : Distributed lo hi (fun _ => 0) s t := by
      refine { hd with pages := fun q => ?_, global := fun k p hp => ?_ }
      · have h := listed_update hn s.global (s.global n) q
        rw [update_eq_self] at h
        rw [hd.pages, h, countP_reverse]
        exact add_right_comm _ _ _
      · refine (hd.global k p hp).imp_left fun hp => ?_
        rcases eq_or_ne k n with rfl | hk
        · simp at hp
        · simpa [hk] using hp
    obtain ⟨h, hout⟩ := ih (by omega) fun k p hp =>
      (hst.global k p hp).elim (hg k p) fun h => ⟨h.1, h.2.1⟩
    refine ⟨hst.trans h, fun k hk p hp => ?_⟩
    rcases Nat.lt_succ_iff_lt_or_eq.mp hk with hk | rfl
    · exact hout k hk p hp
    · exact (h.global k p hp).elim (fun hp => (hd.global k p hp).resolve_left (by simp)) id

theorem listed_eq_zero {q : ℕ}
    (h : ∀ k < buddyMaxOrder, ∀ p ∈ farea k, ¬ (p ≤ q ∧ q < p + 2 ^ k)) : listed farea q = 0 :=
  countP_eq_zero.mpr fun c hc => by simpa using h c.2 (mem_gather.mp hc).1 c.1 (mem_gather.mp hc).2

/-- The page is one of the domain. -/
abbrev InDomain (dom : ℕ × ℕ) (q : ℕ) : Prop := dom.1 ≤ q ∧ q < dom.2

/-- **The global blocks are distributed.** The lists of each domain have the pages of the global
lists that lie in it, in aligned blocks inside the domain, and the global lists keep the pages that
lie in no domain. -/
theorem domainsInit_spec (doms : List (ℕ × ℕ))
    (hdoms : doms.Pairwise fun d e => ∀ q, ¬ (InDomain d q ∧ InDomain e q)) (farea : ℕ → List ℕ)
    (hfarea : ∀ k p, p ∈ farea k → 0 < p ∧ Aligned p k) :
    (domainsInit doms farea).2.map Prod.fst = doms ∧
    (∀ x ∈ (domainsInit doms farea).2,
      (∀ q, listed x.2 q = if InDomain x.1 q then listed farea q else 0) ∧
        ∀ k, ∀ p ∈ x.2 k, Inside x.1.1 x.1.2 p k) ∧
    ∀ q, listed (domainsInit doms farea).1 q =
      if ∃ d ∈ doms, InDomain d q then 0 else listed farea q := by
  induction doms generalizing farea with
  | nil => simp [domainsInit]
  | cons d doms ih =>
    obtain ⟨hd, hdoms⟩ := pairwise_cons.mp hdoms
    obtain ⟨h, hout⟩ := @claimOrders_spec d.1 d.2 _ ⟨farea, fun _ => []⟩ le_rfl hfarea
    rw [← domainClaimGlobalBlocks] at h hout
    simp only [domainsInit]
    generalize domainClaimGlobalBlocks d.1 d.2 ⟨farea, fun _ => []⟩ = s at h hout
    have hin : ∀ k, ∀ p ∈ s.domain k, Inside d.1 d.2 p k :=
      fun k p hp => (h.domain k p hp).resolve_left (by simp)
    have hs : ∀ q, listed s.domain q = (if InDomain d q then listed farea q else 0) ∧
        listed s.global q = if InDomain d q then 0 else listed farea q := by
      intro q
      have hpages : listed s.global q + listed s.domain q = listed farea q := h.pages q
      split_ifs with hq
      · have hg : listed s.global q = 0 := listed_eq_zero fun k hk p hp => by
          have := (hout k hk p hp).2.2
          omega
        omega
      · have hg : listed s.domain q = 0 := listed_eq_zero fun k hk p hp => by
          have := (hin k p hp).2
          omega
        omega
    obtain ⟨hmap, hdom, hglobal⟩ := ih hdoms s.global fun k p hp =>
      (h.global k p hp).elim (hfarea k p) fun h => ⟨h.1, h.2.1⟩
    refine ⟨by rw [map_cons, hmap], fun x hx => ?_, fun q => ?_⟩
    · rcases mem_cons.mp hx with rfl | hx
      · exact ⟨fun q => (hs q).1, hin⟩
      refine ⟨fun q => ((hdom x hx).1 q).trans ?_, (hdom x hx).2⟩
      have hmem : x.1 ∈ doms := hmap ▸ mem_map_of_mem hx
      split_ifs with hq
      · rw [(hs q).2, if_neg fun hdq => hd x.1 hmem q ⟨hdq, hq⟩]
      · rfl
    · rw [hglobal, (hs q).2, ← ite_or]
      exact if_congr (by rw [exists_mem_cons_iff, or_comm]) rfl rfl

/-- Of the block of the pages 2 and 3 the first goes to the domain. -/
theorem domainsInit_spec_halves :
    listed (domainsInit [(1, 3)] (addBlock (fun _ => []) 1 2)).1 3 = 1 := by
  refine ((domainsInit_spec [(1, 3)] (by simp) _ fun k p hp => ?_).2.2 3).trans (by decide +kernel)
  obtain ⟨rfl, rfl⟩ := (mem_addBlock hp).resolve_left (by simp)
  decide

end Charmos.Mem
