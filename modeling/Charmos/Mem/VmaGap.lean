import Charmos.Mem.Vas.ArenaSpec

/-!
# The search for a gap between the mappings of an address space

`mm.c` keeps the mappings of an address space in an interval tree. Every node also stores the
highest address, the lowest start and the largest gap of its subtree, and
`mm_vma_range_find_gap` uses these to leave out subtrees that cannot hold the mapping that is
wanted. The search is modelled as the code has it, with the floor it moves along as a second
result. It is compared with the walk over all mappings that leaves nothing out, and this with
the least address that a first fit can choose.
-/

namespace Charmos.VmaGap

open List Nat

/-- The interval of `struct vma_range`, as `vma_range_init` fills it in for a mapping
`[start, end)` of two addresses with `start < end`. -/
structure VmaRange where
  low : ℕ
  high : ℕ
  ordered : low ≤ high
  bounded : high + 1 < 2 ^ 64
  deriving DecidableEq

/-- `vma_range_start`. -/
def vmaRangeStart (v : VmaRange) : ℕ := v.low

/-- `vma_range_end`. -/
def vmaRangeEnd (v : VmaRange) : ℕ := (v.high + 1) % 2 ^ 64

/-- `vma_range_tree`: the mapping of a node and its stored `max`, `min_low` and `max_gap`. -/
inductive VmaTree where
  | nil
  | node (left : VmaTree) (vma : VmaRange) (max minLow maxGap : ℕ) (right : VmaTree)
  deriving DecidableEq

/-- `rbit_node_max`. -/
def rbitNodeMax : VmaTree → ℕ
  | .nil => 0
  | .node _ _ max _ _ _ => max

/-- `vma_range_node_min_low`. -/
def vmaRangeNodeMinLow : VmaTree → ℕ
  | .nil => 0
  | .node _ _ _ minLow _ _ => minLow

/-- `vma_range_node_gap`. -/
def vmaRangeNodeGap : VmaTree → ℕ
  | .nil => 0
  | .node _ _ _ _ maxGap _ => maxGap

/-- The gap from `lo` to `hi` counts if it is larger than the largest so far. -/
def largerGap (gap lo hi : ℕ) : ℕ :=
  if hi > lo ∧ hi - lo > gap then hi - lo else gap

/-- The values `vma_range_tree_augment` stores: `max`, `min_low` and `max_gap`. -/
def vmaRangeTreeAugment (left : VmaTree) (v : VmaRange) (right : VmaTree) : ℕ × ℕ × ℕ :=
  let mx := v.high
  let mx := if rbitNodeMax left > mx then rbitNodeMax left else mx
  let mx := if rbitNodeMax right > mx then rbitNodeMax right else mx
  let mn := if left ≠ .nil then vmaRangeNodeMinLow left else v.low
  let gap := 0
  let gap := if left ≠ .nil then
      let gap := if vmaRangeNodeGap left > gap then vmaRangeNodeGap left else gap
      largerGap gap ((rbitNodeMax left + 1) % 2 ^ 64) v.low
    else gap
  let gap := if right ≠ .nil then
      let gap := if vmaRangeNodeGap right > gap then vmaRangeNodeGap right else gap
      largerGap gap ((v.high + 1) % 2 ^ 64) (vmaRangeNodeMinLow right)
    else gap
  (mx, mn, gap)

/-- `struct gap_ctx`. -/
structure GapCtx where
  len : ℕ
  align : ℕ
  high : ℕ

/-- `ALIGN_UP_WRAPPING` on 64-bit words. -/
def alignUpWrapping (x align : ℕ) : ℕ :=
  (x + (align - 1)) % 2 ^ 64 &&& (2 ^ 64 - 1 - (align - 1))

/-- `gap_fits`. -/
def gapFits (floor ceil : ℕ) (c : GapCtx) : ℕ :=
  if ceil ≤ floor then 0
  else
    let a := alignUpWrapping floor c.align
    if a < floor then 0
    else if (a + c.len) % 2 ^ 64 < a then 0
    else if (a + c.len) % 2 ^ 64 > ceil ∨ (a + c.len) % 2 ^ 64 > c.high then 0
    else a

/-- `if (e > *floor) *floor = e`. -/
def raiseFloor (floor e : ℕ) : ℕ :=
  if e > floor then e else floor

/-- What `gap_search` does with a child: it searches the subtree, or moves the floor past it. -/
def searchChild (c : GapCtx) (child : VmaTree) (search : ℕ → ℕ × ℕ) (floor : ℕ) : ℕ × ℕ :=
  if child = .nil then (0, floor)
  else if vmaRangeNodeGap child ≥ c.len ∨ vmaRangeNodeMinLow child > floor then search floor
  else (0, raiseFloor floor ((rbitNodeMax child + 1) % 2 ^ 64))

/-- The steps of `gap_search` at one node, after the left child and before the right one. -/
def searchNode (c : GapCtx) (v : VmaRange) (left : ℕ × ℕ) (right : ℕ → ℕ × ℕ) : ℕ × ℕ :=
  if left.1 ≠ 0 then left
  else
    let r := gapFits left.2 (vmaRangeStart v) c
    if r ≠ 0 then (r, left.2)
    else if vmaRangeStart v ≥ c.high then (0, left.2)
    else right (raiseFloor left.2 (vmaRangeEnd v))

/-- `gap_search`: the address found, or `0`, and the floor it leaves. -/
def gapSearch (c : GapCtx) : VmaTree → ℕ → ℕ × ℕ
  | .nil, floor => (0, floor)
  | .node left v _ _ _ right, floor =>
    searchNode c v (searchChild c left (gapSearch c left) floor)
      (searchChild c right (gapSearch c right))

/-- `mm_vma_range_find_gap`; `none` is its failed check. -/
def mmVmaRangeFindGap (tree : VmaTree) (len align low high : ℕ) : Option ℕ :=
  if Vas.isPow2 align = false then none
  else if len = 0 ∨ high ≤ low ∨ high - low < len then some 0
  else
    let c : GapCtx := ⟨len, align, high⟩
    let r := gapSearch c tree low
    if r.1 ≠ 0 then some r.1 else some (gapFits r.2 high c)

/-! ### What the search is for -/

/-- The walk over all mappings from a floor, with the gap behind the last one. -/
def linearFit (c : GapCtx) : List VmaRange → ℕ → ℕ
  | [], floor => gapFits floor c.high c
  | v :: vmas, floor =>
    let r := gapFits floor (vmaRangeStart v) c
    if r ≠ 0 then r else linearFit c vmas (raiseFloor floor (vmaRangeEnd v))

namespace VmaTree

/-- The mappings of a tree in order. -/
def vmas : VmaTree → List VmaRange
  | .nil => []
  | .node left v _ _ _ right => left.vmas ++ v :: right.vmas

/-- Every node stores what `vma_range_tree_augment` computes from its children. -/
def Augmented : VmaTree → Prop
  | .nil => True
  | .node left v max minLow maxGap right =>
    left.Augmented ∧ right.Augmented ∧
      (max, minLow, maxGap) = vmaRangeTreeAugment left v right

/-- The tree is a search tree for the start of the mappings. -/
def Ordered (t : VmaTree) : Prop :=
  t.vmas.Pairwise fun v w => v.low ≤ w.low

end VmaTree

/-- The least multiple of `align` that is not below `x`. -/
def roundUp (align x : ℕ) : ℕ :=
  (x + (align - 1)) / align * align

/-- The run of `len` bytes at `a` ends by `high` and meets no mapping. -/
def Room (vmas : List VmaRange) (len low high a : ℕ) : Prop :=
  low ≤ a ∧ a + len ≤ high ∧ ∀ v ∈ vmas, ∀ x, a ≤ x → x < a + len → ¬(v.low ≤ x ∧ x ≤ v.high)

/-- The addresses a first fit chooses from: roundings of `low` and of the ends of mappings. -/
def Candidate (vmas : List VmaRange) (len align low high a : ℕ) : Prop :=
  (a = roundUp align low ∨ ∃ v ∈ vmas, a = roundUp align (v.high + 1)) ∧
    Room vmas len low high a

/-- The values the search is called with: a nonempty run, an alignment that is a power of two,
and a limit that is an address and no less than the run. -/
structure GapCtx.Ok (c : GapCtx) : Prop where
  len_pos : 0 < c.len
  align_pow : ∃ k < 64, c.align = 2 ^ k
  len_le : c.len ≤ c.high
  high_lt : c.high < 2 ^ 64

variable {c : GapCtx} {t : VmaTree} {v : VmaRange} {l : List VmaRange} {floor ceil a x : ℕ}
  {align : ℕ}

/-! ### One gap -/

theorem dvd_roundUp (align x : ℕ) : align ∣ roundUp align x :=
  Dvd.intro_left _ rfl

theorem le_roundUp (h : 0 < align) (x : ℕ) : x ≤ roundUp align x := by
  have hdiv := Nat.div_add_mod (x + (align - 1)) align
  have hmod := mod_lt (x + (align - 1)) h
  rw [roundUp, mul_comm]
  omega

theorem roundUp_le (h : 0 < align) (hxa : x ≤ a) (ha : align ∣ a) : roundUp align x ≤ a := by
  obtain ⟨k, rfl⟩ := ha
  have hdiv : (x + (align - 1)) / align ≤ k := by
    rw [← Nat.lt_add_one_iff, div_lt_iff_lt_mul h, add_mul, mul_comm k, one_mul]
    omega
  rw [roundUp, mul_comm]
  exact Nat.mul_le_mul_left align hdiv

theorem GapCtx.Ok.align_pos (hc : c.Ok) : 0 < c.align := by
  obtain ⟨k, -, halign⟩ := hc.align_pow
  exact halign ▸ Nat.two_pow_pos k

private theorem land_clear_low {k : ℕ} (hx : x < 2 ^ 64) (hk : k ≤ 64) :
    x &&& (2 ^ 64 - 1 - (2 ^ k - 1)) = x / 2 ^ k * 2 ^ k := by
  have hmask : 2 ^ 64 - 1 - (2 ^ k - 1) = (2 ^ (64 - k) - 1) <<< k := by
    rw [shiftLeft_eq, Nat.sub_mul, ← pow_add, Nat.sub_add_cancel hk]
    have := Nat.one_le_two_pow (n := k)
    omega
  rw [hmask, ← shiftRight_eq_div_pow, ← shiftLeft_eq]
  apply Nat.eq_of_testBit_eq
  intro i
  simp only [testBit_and, testBit_shiftLeft, testBit_two_pow_sub_one, testBit_shiftRight]
  by_cases hi : k ≤ i
  · rw [Nat.add_sub_cancel' hi]
    by_cases hlt : i < 64
    · simp [hi, show i - k < 64 - k by omega]
    · have hzero : x.testBit i = false :=
        testBit_lt_two_pow (hx.trans_le (Nat.pow_le_pow_right (by decide) (by omega)))
      simp [hzero]
  · simp [hi]

/-- Where the rounding does not wrap, it is the least multiple; where it does, the least
multiple is no address. -/
private theorem alignUpWrapping_cases (hc : c.Ok) (hfloor : floor < 2 ^ 64) :
    alignUpWrapping floor c.align = roundUp c.align floor ∨
      alignUpWrapping floor c.align = 0 ∧ 2 ^ 64 ≤ roundUp c.align floor := by
  obtain ⟨k, hk, halign⟩ := hc.align_pow
  have hpos : 0 < 2 ^ k := Nat.two_pow_pos k
  have hlt : 2 ^ k < 2 ^ 64 := Nat.pow_lt_pow_right (by decide) hk
  rw [halign, alignUpWrapping, land_clear_low (mod_lt _ (by decide)) hk.le]
  by_cases hwrap : floor + (2 ^ k - 1) < 2 ^ 64
  · exact .inl (by rw [mod_eq_of_lt hwrap, roundUp])
  right
  have hmod : (floor + (2 ^ k - 1)) % 2 ^ 64 < 2 ^ k := by
    omega
  refine ⟨by rw [Nat.div_eq_of_lt hmod, zero_mul], ?_⟩
  have hquot : 2 ^ (64 - k) ≤ (floor + (2 ^ k - 1)) / 2 ^ k := by
    rw [Nat.le_div_iff_mul_le hpos, ← pow_add, Nat.sub_add_cancel hk.le]
    omega
  calc 2 ^ 64 = 2 ^ (64 - k) * 2 ^ k := by rw [← pow_add, Nat.sub_add_cancel hk.le]
    _ ≤ roundUp (2 ^ k) floor := Nat.mul_le_mul_right _ hquot

/-- The checks of `gap_fits` for wrapped sums leave one comparison. -/
theorem gapFits_eq (hc : c.Ok) (floor ceil : ℕ) :
    gapFits floor ceil c = if roundUp c.align floor + c.len ≤ min ceil c.high then
      roundUp c.align floor else 0 := by
  have hup := le_roundUp hc.align_pos floor
  have hlen := hc.len_pos
  have hlenle := hc.len_le
  have hhigh := hc.high_lt
  rw [gapFits]
  by_cases hfloor : floor < 2 ^ 64
  · rcases alignUpWrapping_cases hc hfloor with hround | ⟨hround, hwrap⟩ <;>
      simp only [hround] <;> split_ifs <;> omega
  have hword : alignUpWrapping floor c.align < 2 ^ 64 :=
    Nat.and_le_left.trans_lt (mod_lt _ (by decide))
  dsimp only
  split_ifs <;> omega

/-! ### The walk over all mappings -/

private theorem raiseFloor_end (floor : ℕ) (v : VmaRange) :
    raiseFloor floor (vmaRangeEnd v) = max floor (v.high + 1) := by
  rw [raiseFloor, vmaRangeEnd, mod_eq_of_lt v.bounded]
  split_ifs <;> omega

private theorem linearFit_skip (hzero : gapFits floor v.low c = 0) :
    linearFit c (v :: l) floor = linearFit c l (max floor (v.high + 1)) := by
  rw [linearFit, vmaRangeStart, raiseFloor_end]
  exact if_neg (not_not.2 hzero)

private theorem linearFit_found (hne : gapFits floor v.low c ≠ 0) :
    linearFit c (v :: l) floor = gapFits floor v.low c :=
  if_pos hne

/-- Where nothing fits any more, the rest of the walk finds nothing. -/
private theorem linearFit_full (hc : c.Ok) (hfull : c.high < roundUp c.align floor + c.len) :
    linearFit c l floor = 0 := by
  have hzero : ∀ ceil, gapFits floor ceil c = 0 := fun ceil => by
    rw [gapFits_eq hc, if_neg (by omega)]
  induction l generalizing floor with
  | nil => exact hzero _
  | cons v l ih =>
    have hmono : roundUp c.align floor ≤ roundUp c.align (max floor (v.high + 1)) :=
      roundUp_le hc.align_pos ((le_max_left _ _).trans (le_roundUp hc.align_pos _))
        (dvd_roundUp _ _)
    have hfull' : c.high < roundUp c.align (max floor (v.high + 1)) + c.len := by omega
    rw [linearFit_skip (hzero _)]
    exact ih hfull' fun ceil => by rw [gapFits_eq hc, if_neg (by omega)]

private theorem free_iff {len : ℕ} (hlen : 0 < len) :
    (∀ x, a ≤ x → x < a + len → ¬(v.low ≤ x ∧ x ≤ v.high)) ↔
      a + len ≤ v.low ∨ v.high + 1 ≤ a := by
  have hv := v.ordered
  constructor
  · intro h
    by_contra hmeet
    exact h (max a v.low) (by omega) (by omega) (by omega)
  · intro h x
    omega

/-- The walk finds the least aligned address with room. -/
private theorem linearFit_spec (hc : c.Ok) (hpos : 0 < floor)
    (hord : l.Pairwise fun v w => v.low ≤ w.low) :
    (linearFit c l floor = 0 → ∀ a, c.align ∣ a → ¬Room l c.len floor c.high a) ∧
      (linearFit c l floor ≠ 0 →
        IsLeast {a | c.align ∣ a ∧ Room l c.len floor c.high a} (linearFit c l floor)) := by
  induction l generalizing floor with
  | nil =>
    have hup := le_roundUp hc.align_pos floor
    rw [linearFit, gapFits_eq hc, min_self]
    split_ifs with hfits
    · refine ⟨by omega, fun _ => ⟨⟨dvd_roundUp _ _, hup, hfits, by simp⟩, fun a ha => ?_⟩⟩
      exact roundUp_le hc.align_pos ha.2.1 ha.1
    refine ⟨fun _ a hdvd ha => hfits ?_, fun h => absurd rfl h⟩
    have := roundUp_le hc.align_pos ha.1 hdvd
    have := ha.2.1
    omega
  | cons v l ih =>
    obtain ⟨hv, hord⟩ := pairwise_cons.1 hord
    have hup := le_roundUp hc.align_pos floor
    by_cases hgap : gapFits floor v.low c = 0
    · -- a run with room lies behind the mapping
      have hroom : ∀ a, c.align ∣ a → (Room (v :: l) c.len floor c.high a ↔
          Room l c.len (max floor (v.high + 1)) c.high a) := by
        intro a hdvd
        have hle : floor ≤ a → roundUp c.align floor ≤ a := fun h => roundUp_le hc.align_pos h hdvd
        rw [gapFits_eq hc] at hgap
        simp only [Room, forall_mem_cons, free_iff hc.len_pos]
        constructor
        · rintro ⟨ha, hhigh, hfree, hrest⟩
          refine ⟨?_, hhigh, hrest⟩
          split_ifs at hgap <;> omega
        · rintro ⟨ha, hhigh, hrest⟩
          exact ⟨by omega, hhigh, by omega, hrest⟩
      have hset : {a | c.align ∣ a ∧ Room (v :: l) c.len floor c.high a} =
          {a | c.align ∣ a ∧ Room l c.len (max floor (v.high + 1)) c.high a} :=
        Set.ext fun a => and_congr_right (hroom a)
      obtain ⟨hnone, hleast⟩ := ih (lt_max_of_lt_left hpos) hord
      rw [linearFit_skip hgap, hset]
      exact ⟨fun h a hdvd ha => hnone h a hdvd ((hroom a hdvd).1 ha), hleast⟩
    · rw [linearFit_found hgap]
      refine ⟨fun h => absurd h hgap, fun _ => ?_⟩
      have hfits : roundUp c.align floor + c.len ≤ min v.low c.high := by
        by_contra hno
        exact hgap (by rw [gapFits_eq hc, if_neg hno])
      rw [gapFits_eq hc, if_pos hfits]
      refine ⟨⟨dvd_roundUp _ _, hup, by omega, fun w hw => (free_iff hc.len_pos).2 ?_⟩,
        fun a ha => roundUp_le hc.align_pos ha.2.1 ha.1⟩
      rcases mem_cons.1 hw with rfl | hw
      · omega
      · have := hv w hw
        omega

/-! ### Subtrees that are left out -/

private theorem rbitNodeMax_lt (ht : t.Augmented) : rbitNodeMax t + 1 < 2 ^ 64 := by
  induction t with
  | nil => decide
  | node left v max minLow maxGap right ihl ihr =>
    obtain ⟨hl, hr, haug⟩ := ht
    have hmax : max = (vmaRangeTreeAugment left v right).1 := by rw [← haug]
    have hv := v.bounded
    have hleft := ihl hl
    have hright := ihr hr
    rw [rbitNodeMax, hmax, vmaRangeTreeAugment]
    split_ifs <;> omega

private theorem largerGap_bounds (gap lo hi : ℕ) :
    gap ≤ largerGap gap lo hi ∧ hi ≤ lo + largerGap gap lo hi := by
  rw [largerGap]
  split_ifs <;> omega

/-- What the values stored in a node say about the node and its children. -/
private theorem node_bounds {left right : VmaTree} {mx mn gap : ℕ}
    (ht : (VmaTree.node left v mx mn gap right).Augmented) :
    mx = max (max (rbitNodeMax left) v.high) (rbitNodeMax right) ∧
      vmaRangeNodeGap left ≤ gap ∧ vmaRangeNodeGap right ≤ gap ∧ vmaRangeNodeMinLow left ≤ mn ∧
      v.low ≤ max mn (rbitNodeMax left + 1 + gap) ∧
      vmaRangeNodeMinLow right ≤ v.high + 1 + gap := by
  obtain ⟨hl, -, haug⟩ := ht
  simp only [vmaRangeTreeAugment, mod_eq_of_lt v.bounded,
    mod_eq_of_lt (rbitNodeMax_lt hl), Prod.mk.injEq] at haug
  obtain ⟨hmax, hmin, hgap⟩ := haug
  generalize hgapl : (if left ≠ .nil then _ else 0) = gapl at hgap
  have hright : gapl ≤ gap ∧ vmaRangeNodeGap right ≤ gap ∧
      vmaRangeNodeMinLow right ≤ v.high + 1 + gap := by
    rcases eq_or_ne right .nil with rfl | hne
    · exact ⟨hgap.ge, Nat.zero_le _, Nat.zero_le _⟩
    rw [if_pos hne] at hgap
    have := largerGap_bounds (if vmaRangeNodeGap right > gapl then vmaRangeNodeGap right
      else gapl) (v.high + 1) (vmaRangeNodeMinLow right)
    rw [← hgap] at this
    split_ifs at this <;> omega
  refine ⟨by split_ifs at hmax <;> omega, ?_⟩
  rcases eq_or_ne left .nil with rfl | hne
  · have hlow : mn = v.low := hmin
    exact ⟨Nat.zero_le _, hright.2.1, Nat.zero_le _, by omega, hright.2.2⟩
  rw [if_pos hne] at hmin hgapl
  have := largerGap_bounds (if vmaRangeNodeGap left > 0 then vmaRangeNodeGap left else 0)
    (rbitNodeMax left + 1) v.low
  rw [hgapl] at this
  split_ifs at this <;> omega

/-- The walk finds nothing in a subtree if its gaps and the one before it are shorter than the
run, and it leaves the subtree at its highest end. -/
private theorem linearFit_prune (hc : c.Ok) (ht : t.Augmented) {g : ℕ} (hg : g < c.len)
    (hpos : 0 < floor) (hgap : vmaRangeNodeGap t ≤ g) (hmin : vmaRangeNodeMinLow t ≤ floor + g) :
    linearFit c (t.vmas ++ l) floor = linearFit c l (max floor (rbitNodeMax t + 1)) := by
  induction t generalizing floor l with
  | nil => rw [rbitNodeMax, max_eq_left (by omega), VmaTree.vmas, nil_append]
  | node left v mx mn gap right ihl ihr =>
    obtain ⟨hmax, hgapl, hgapr, hminl, hlow, hminr⟩ := node_bounds ht
    rw [vmaRangeNodeGap] at hgap
    rw [vmaRangeNodeMinLow] at hmin
    have hfloor := lt_max_of_lt_left (c := rbitNodeMax left + 1) hpos
    have hskip : gapFits (max floor (rbitNodeMax left + 1)) v.low c = 0 := by
      have := le_roundUp hc.align_pos (max floor (rbitNodeMax left + 1))
      rw [gapFits_eq hc, if_neg (by omega)]
    rw [VmaTree.vmas, append_assoc, cons_append, ihl ht.1 hpos (by omega) (by omega),
      linearFit_skip hskip, ihr ht.2.1 (lt_max_of_lt_left hfloor) (by omega) (by omega), hmax,
      rbitNodeMax]
    congr 1
    omega

/-! ### The search -/

/-- What `mm_vma_range_find_gap` makes of a search when the mappings `l` are still to come. -/
private def finish (c : GapCtx) (l : List VmaRange) (out : ℕ × ℕ) : ℕ :=
  if out.1 ≠ 0 then out.1 else linearFit c l out.2

/-- The result is that of the walk over `l` and whatever mappings follow. -/
private def Walks (c : GapCtx) (l : List VmaRange) (floor : ℕ) (out : ℕ × ℕ) : Prop :=
  0 < out.2 ∧ ∀ rest, finish c rest out = linearFit c (l ++ rest) floor

private theorem searchChild_walks (hc : c.Ok) (ht : t.Augmented) (hpos : 0 < floor)
    {search : ℕ → ℕ × ℕ} (h : Walks c t.vmas floor (search floor)) :
    Walks c t.vmas floor (searchChild c t search floor) := by
  rw [searchChild]
  split_ifs with hnil hvisit
  · rw [hnil]
    exact ⟨hpos, fun rest => if_neg (not_not.2 rfl)⟩
  · exact h
  obtain ⟨hgap, hmin⟩ := not_or.1 hvisit
  have hfloor : raiseFloor floor ((rbitNodeMax t + 1) % 2 ^ 64) =
      max floor (rbitNodeMax t + 1) := by
    rw [raiseFloor, mod_eq_of_lt (rbitNodeMax_lt ht)]
    split_ifs <;> omega
  rw [hfloor]
  refine ⟨lt_max_of_lt_left hpos, fun rest => (if_neg (not_not.2 rfl)).trans ?_⟩
  exact (linearFit_prune hc ht (not_le.1 hgap) hpos le_rfl (by omega)).symm

private theorem gapSearch_walks (hc : c.Ok) (ht : t.Augmented) (hpos : 0 < floor) :
    Walks c t.vmas floor (gapSearch c t floor) := by
  induction t generalizing floor with
  | nil => exact ⟨hpos, fun rest => if_neg (not_not.2 rfl)⟩
  | node left v mx mn gap right ihl ihr =>
    obtain ⟨hf, hleft⟩ := searchChild_walks hc ht.1 hpos (ihl ht.1 hpos)
    rw [gapSearch, searchNode, VmaTree.vmas]
    generalize searchChild c left (gapSearch c left) floor = out at hf hleft ⊢
    obtain ⟨r, f⟩ := out
    by_cases hr : r = 0
    swap
    · rw [if_pos hr]
      refine ⟨hf, fun rest => ?_⟩
      rw [append_assoc, ← hleft]
      exact (if_pos hr).trans (if_pos hr).symm
    subst hr
    suffices hnode : Walks c (v :: right.vmas) f (if gapFits f v.low c ≠ 0 then
        (gapFits f v.low c, f) else if v.low ≥ c.high then (0, f)
        else searchChild c right (gapSearch c right) (raiseFloor f (vmaRangeEnd v))) by
      refine ⟨hnode.1, fun rest => (hnode.2 rest).trans ?_⟩
      rw [append_assoc, ← hleft]
      exact (if_neg (not_not.2 rfl)).symm
    rw [raiseFloor_end]
    split_ifs with hgap hstop
    · exact ⟨hf, fun rest => (if_pos hgap).trans (linearFit_found hgap).symm⟩
    · -- all that follows begins behind the limit
      have hfull : c.high < roundUp c.align f + c.len := by
        by_contra hfits
        rw [gapFits_eq hc, if_pos (by omega)] at hgap
        have := le_roundUp hc.align_pos f
        exact hgap (by omega)
      exact ⟨hf, fun rest => (linearFit_full hc hfull).trans (linearFit_full hc hfull).symm⟩
    · obtain ⟨hg, hright⟩ := searchChild_walks hc ht.2.1 (lt_max_of_lt_left hf)
        (ihr ht.2.1 (lt_max_of_lt_left (c := v.high + 1) hf))
      refine ⟨hg, fun rest => (hright rest).trans ?_⟩
      rw [cons_append, linearFit_skip (not_not.1 hgap)]

/-- The least aligned address with room begins at the rounding of `low` or of an end. -/
private theorem candidate_of_isLeast (hc : c.Ok) {low r : ℕ}
    (h : IsLeast {a | c.align ∣ a ∧ Room l c.len low c.high a} r) :
    Candidate l c.len c.align low c.high r := by
  classical
  let P : ℕ → Prop := fun x => x = low ∨ ∃ v ∈ l, x = v.high + 1
  obtain ⟨⟨hdvd, hlow, hhigh, hfree⟩, hmin⟩ := h
  have hP : P (findGreatest P r) := findGreatest_spec hlow (.inl rfl)
  have hup := le_roundUp hc.align_pos (findGreatest P r)
  have hle : roundUp c.align (findGreatest P r) ≤ r :=
    roundUp_le hc.align_pos (findGreatest_le r) hdvd
  have hroom : Room l c.len low c.high (roundUp c.align (findGreatest P r)) := by
    have hlow' : low ≤ findGreatest P r := le_findGreatest hlow (.inl rfl)
    refine ⟨hlow'.trans hup, by omega, fun v hv => (free_iff hc.len_pos).2 ?_⟩
    rcases (free_iff hc.len_pos).1 (hfree v hv) with hstart | hstop
    · exact .inl (by omega)
    · exact .inr ((le_findGreatest hstop (.inr ⟨v, hv, rfl⟩)).trans hup)
  have heq : r = roundUp c.align (findGreatest P r) :=
    le_antisymm (hmin ⟨dvd_roundUp _ _, hroom⟩) hle
  refine ⟨?_, hlow, hhigh, hfree⟩
  rcases hP with hx | ⟨v, hv, hx⟩
  · exact .inl (heq.trans (by rw [hx]))
  · exact .inr ⟨v, hv, heq.trans (by rw [hx])⟩

/-- The gap search is first fit: it returns the least candidate, `0` exactly if there is none,
and what the walk over all mappings returns. The mappings need not be disjoint. -/
theorem mmVmaRangeFindGap_firstFit (len align low high : ℕ) (haug : t.Augmented)
    (hord : t.Ordered) (hlen : 0 < len) (halign : Vas.isPow2 align = true)
    (halt : align < 2 ^ 64) (hlow : 0 < low) (hlt : low < high) (hhigh : high < 2 ^ 64) :
    ∃ r, mmVmaRangeFindGap t len align low high = some r ∧
      (r = 0 ↔ ∀ a, ¬Candidate t.vmas len align low high a) ∧
      (r ≠ 0 → IsLeast {a | Candidate t.vmas len align low high a} r) ∧
      (len ≤ high - low → r = linearFit ⟨len, align, high⟩ t.vmas low) := by
  have hround : ∀ a, Candidate t.vmas len align low high a → align ∣ a := by
    rintro a ⟨rfl | ⟨v, -, rfl⟩, -⟩ <;> exact dvd_roundUp _ _
  rw [mmVmaRangeFindGap, if_neg (by simp [halign])]
  by_cases hsmall : len = 0 ∨ high ≤ low ∨ high - low < len
  · rw [if_pos hsmall]
    refine ⟨0, rfl, iff_of_true rfl fun a ha => ?_, fun h => absurd rfl h, fun h => by omega⟩
    have := ha.2.1
    have := ha.2.2.1
    omega
  rw [if_neg hsmall]
  obtain ⟨k, rfl⟩ := Vas.isPow2_iff.1 halign
  have hk : k < 64 := (Nat.pow_lt_pow_iff_right (by decide)).1 halt
  have hlenle : len ≤ high := by omega
  have hc : (GapCtx.mk len (2 ^ k) high).Ok := ⟨hlen, ⟨k, hk, rfl⟩, hlenle, hhigh⟩
  obtain ⟨-, hwalk⟩ := gapSearch_walks hc haug hlow
  have hres := hwalk []
  rw [append_nil, finish] at hres
  obtain ⟨hnone, hleast⟩ := linearFit_spec hc hlow hord
  refine ⟨linearFit ⟨len, 2 ^ k, high⟩ t.vmas low, ?_, ⟨fun h a ha => ?_, fun h => ?_⟩,
    fun hne => ?_, fun _ => rfl⟩
  · rw [← hres, apply_ite some]
    rfl
  · exact hnone h a (hround a ha) ha.2
  · by_contra hne
    exact h _ (candidate_of_isLeast hc (hleast hne))
  · exact ⟨candidate_of_isLeast hc (hleast hne),
      fun a ha => (hleast hne).2 ⟨hround a ha, ha.2⟩⟩

/-- Two mappings with a gap of one page; two pages fit only behind both. -/
theorem mmVmaRangeFindGap_firstFit_two :
    IsLeast {a | Candidate [⟨0x2000, 0x2fff, by decide, by decide⟩,
      ⟨0x4000, 0x4fff, by decide, by decide⟩] 0x2000 0x1000 0x1000 0x10000 a} 0x5000 := by
  let t : VmaTree := .node .nil ⟨0x2000, 0x2fff, by decide, by decide⟩ 0x4fff 0x2000 0x1000
    (.node .nil ⟨0x4000, 0x4fff, by decide, by decide⟩ 0x4fff 0x4000 0 .nil)
  have haug : t.Augmented := ⟨trivial, ⟨trivial, trivial, by decide⟩, by decide⟩
  have hord : t.Ordered := by simp [t, VmaTree.Ordered, VmaTree.vmas]
  obtain ⟨r, hr, -, hleast, -⟩ := mmVmaRangeFindGap_firstFit 0x2000 0x1000 0x1000 0x10000
    haug hord (by decide) (by decide) (by decide) (by decide) (by decide) (by decide)
  have hval : mmVmaRangeFindGap t 0x2000 0x1000 0x1000 0x10000 = some 0x5000 := by decide +kernel
  obtain rfl := Option.some.inj (hr.symm.trans hval)
  exact hleast (by decide)

end Charmos.VmaGap
