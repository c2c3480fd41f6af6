import Charmos.Mem.Vas.Arena

/-!
# What the arena operations keep

`ArenaInv Span R A` says that the segments of the arena `A` tile the set of addresses `R`, that
each lies in the span its `spanStart` names, and that the bins, the bin mask and `totalFree`
describe exactly the free segments. The segments that are not free are the *held* ones. Every
operation is specified by what it does to the held segments, up to their order:
`arenaAlloc` adds a busy one, `arenaRelease` takes one out, `modifySeg` changes one.
-/

namespace Charmos.Vas

open Function List Segment Tiling

/-! ### Alignment -/

theorem isPow2_iff {x : ℕ} : isPow2 x = true ↔ ∃ k, x = 2 ^ k := by
  rw [isPow2, Bool.and_eq_true, decide_eq_true_eq, decide_eq_true_eq, Nat.pos_iff_ne_zero]
  exact Nat.ne_zero_and_sub_one_eq_zero_iff_isPowerOfTwo

theorem isAligned_iff {x align : ℕ} (h : isPow2 align = true) :
    isAligned x align = true ↔ align ∣ x := by
  obtain ⟨k, rfl⟩ := isPow2_iff.mp h
  rw [isAligned, decide_eq_true_eq, Nat.and_two_pow_sub_one_eq_mod, Nat.dvd_iff_mod_eq_zero]

theorem alignPad_eq {start k : ℕ} (h0 : 0 < start) (hs : start < 2 ^ 64) :
    alignPad start (2 ^ k) = (2 ^ 64 - start) % 2 ^ k := by
  rw [alignPad, Nat.and_two_pow_sub_one_eq_mod, Nat.mod_eq_of_lt
    (by omega : 2 ^ 64 - start < 2 ^ 64)]

/-- The padded start is aligned. -/
theorem dvd_add_alignPad {start align : ℕ} (ha : isPow2 align = true) (hlt : align < 2 ^ 64)
    (h0 : 0 < start) (hs : start < 2 ^ 64) : align ∣ start + alignPad start align := by
  obtain ⟨k, rfl⟩ := isPow2_iff.mp ha
  have hk : k < 64 := (Nat.pow_lt_pow_iff_right (a := 2) (by decide)).mp hlt
  rw [alignPad_eq h0 hs, Nat.dvd_iff_mod_eq_zero, Nat.add_mod, Nat.mod_mod, ← Nat.add_mod,
    Nat.add_sub_of_le hs.le]
  exact Nat.dvd_iff_mod_eq_zero.mp (pow_dvd_pow 2 hk.le)

/-! ### Free and held segments -/

/-- The free segments. -/
def freeOf (segs : List Segment) : List Segment := segs.filter fun s => decide (s.type = .free)

/-- The segments that are not free. -/
def held (segs : List Segment) : List Segment := segs.filter fun s => decide (s.type ≠ .free)

@[simp] theorem freeOf_append (a b : List Segment) : freeOf (a ++ b) = freeOf a ++ freeOf b :=
  filter_append ..

@[simp] theorem held_append (a b : List Segment) : held (a ++ b) = held a ++ held b :=
  filter_append ..

theorem freeOf_cons_free {s : Segment} (h : s.type = .free) (l : List Segment) :
    freeOf (s :: l) = s :: freeOf l := filter_cons_of_pos (by simp [h])

theorem freeOf_cons_held {s : Segment} (h : s.type ≠ .free) (l : List Segment) :
    freeOf (s :: l) = freeOf l := filter_cons_of_neg (by simp [h])

theorem held_cons_free {s : Segment} (h : s.type = .free) (l : List Segment) :
    held (s :: l) = held l := filter_cons_of_neg (by simp [h])

theorem held_cons_held {s : Segment} (h : s.type ≠ .free) (l : List Segment) :
    held (s :: l) = s :: held l := filter_cons_of_pos (by simp [h])

variable {l : List Segment}

theorem mem_freeOf {s : Segment} : s ∈ freeOf l ↔ s ∈ l ∧ s.type = .free := by
  simp [freeOf]

theorem mem_held {s : Segment} : s ∈ held l ↔ s ∈ l ∧ s.type ≠ .free := by
  simp [held]

section Middle

variable {a b : List Segment} {s : Segment}

theorem freeOf_middle (h : s.type = .free) :
    (freeOf (a ++ s :: b)).Perm (s :: freeOf (a ++ b)) := by
  rw [freeOf_append, freeOf_append, freeOf_cons_free h]
  exact perm_middle

theorem freeOf_skip (h : s.type ≠ .free) : freeOf (a ++ s :: b) = freeOf (a ++ b) := by
  rw [freeOf_append, freeOf_append, freeOf_cons_held h]

theorem held_middle (h : s.type ≠ .free) : (held (a ++ s :: b)).Perm (s :: held (a ++ b)) := by
  rw [held_append, held_append, held_cons_held h]
  exact perm_middle

theorem held_skip (h : s.type = .free) : held (a ++ s :: b) = held (a ++ b) := by
  rw [held_append, held_append, held_cons_free h]

end Middle

/-! ### Bins -/

/-- The bins hold exactly the starts of the segments `F`, each in the bin of its length, and the
mask marks the bins that are not empty. -/
structure BinsOk (arena : Arena) (F : List Segment) : Prop where
  bin : ∀ k, (arena.freeBins k).Perm
    ((F.filter fun s => decide (sizeToBin s.length = k)).map start)
  mask : ∀ k < binCount, arena.binMask.getLsbD k = true ↔ arena.freeBins k ≠ []

namespace BinsOk

variable {A B : Arena} {F G : List Segment} {s : Segment}

theorem perm (h : BinsOk A F) (hp : F.Perm G) : BinsOk A G :=
  ⟨fun k => (h.bin k).trans ((hp.filter _).map _), h.mask⟩

theorem congr (h : BinsOk A F) (hb : B.freeBins = A.freeBins) (hm : B.binMask = A.binMask) :
    BinsOk B F := ⟨by rw [hb]; exact h.bin, by rw [hb, hm]; exact h.mask⟩

theorem insert (h : BinsOk A F) (s : Segment) : BinsOk (binInsert A s) (s :: F) := by
  constructor
  · intro k
    simp only [binInsert]
    by_cases hk : k = sizeToBin s.length
    · subst hk
      rw [update_self, filter_cons_of_pos (by simp), map_cons]
      exact (h.bin _).cons _
    · rw [update_of_ne hk, filter_cons_of_neg (by simpa using fun he => hk he.symm)]
      exact h.bin k
  · intro k hk
    simp only [binInsert, BitVec.getLsbD_or, BitVec.getLsbD_twoPow]
    by_cases hks : k = sizeToBin s.length
    · subst hks
      simp only [binCount] at hk
      simp [hk]
    · rw [update_of_ne hks, ← h.mask k hk]
      simp [show sizeToBin s.length ≠ k from fun he => hks he.symm]

theorem remove (h : BinsOk A F) (hp : F.Perm (s :: G)) : BinsOk (binRemove A s) G := by
  have herase : ((A.freeBins (sizeToBin s.length)).erase s.start).Perm
      ((G.filter fun t => decide (sizeToBin t.length = sizeToBin s.length)).map start) := by
    have hb := (h.perm hp).bin (sizeToBin s.length)
    simpa using hb.erase s.start
  constructor
  · intro k
    simp only [binRemove]
    by_cases hk : k = sizeToBin s.length
    · subst hk
      rw [update_self]
      exact herase
    · have hb := (h.perm hp).bin k
      rw [filter_cons_of_neg (by simpa using fun he => hk he.symm)] at hb
      rw [update_of_ne hk]
      exact hb
  · intro k hk
    simp only [binRemove]
    by_cases hks : k = sizeToBin s.length
    · subst hks
      split
      · rename_i he
        simp only [binCount] at hk
        simp [he, hk]
      · rename_i he
        have hne : A.freeBins (sizeToBin s.length) ≠ [] := by
          rintro hnil
          simp [hnil] at he
        simpa [he] using (h.mask _ hk).mpr hne
    · rw [update_of_ne hks, ← h.mask k hk]
      simp only [binCount] at hk
      split
      · simp [hks, hk]
      · rfl

theorem insertAll (h : BinsOk A F) (l : List Segment) : BinsOk (l.foldl binInsert A) (l ++ F) := by
  induction l generalizing A F with
  | nil => exact h
  | cons s l ih => exact (ih (h.insert s)).perm perm_middle

end BinsOk

/-- What `bin_insert` leaves alone, a sequence of them does. -/
theorem foldl_binInsert {β : Type} (f : Arena → β) (hf : ∀ A s, f (binInsert A s) = f A)
    (l : List Segment) (A : Arena) : f (l.foldl binInsert A) = f A := by
  induction l generalizing A with
  | nil => rfl
  | cons s l ih => exact (ih _).trans (hf A s)

/-! ### The invariant of an arena -/

/-- The segments of the arena tile `R`, each inside the span it names, and the bins, the mask and
`totalFree` describe the free segments. -/
structure ArenaInv (Span : ℕ → Set ℕ) (R : Set ℕ) (A : Arena) : Prop where
  range : R ⊆ Set.Ioo 0 (2 ^ 64)
  tiles : Tiles R (A.allSegs.map extent)
  spans : ∀ s ∈ A.allSegs, s.extent.toSet ⊆ Span s.spanStart
  freeSlot : ∀ s ∈ A.allSegs, s.type = .free → s.magSlot = none
  bins : BinsOk A (freeOf A.allSegs)
  total : A.totalFree = ((freeOf A.allSegs).map Segment.length).sum

namespace ArenaInv

variable {Span : ℕ → Set ℕ} {R : Set ℕ} {A : Arena} {s t : Segment} {x : ℕ}

variable (h : ArenaInv Span R A)
include h

theorem pos (hs : s ∈ A.allSegs) : 0 < s.length :=
  h.tiles.pos s.extent (mem_map_of_mem hs)

theorem subset (hs : s ∈ A.allSegs) : s.extent.toSet ⊆ R :=
  h.tiles.subset (mem_map_of_mem hs)

theorem start_mem (hs : s ∈ A.allSegs) : s.start ∈ R :=
  h.tiles.start_mem (mem_map_of_mem hs)

theorem start_range (hs : s ∈ A.allSegs) :
    0 < s.start ∧ s.start < 2 ^ 64 := h.range (h.start_mem hs)

theorem ordered : A.allSegs.Pairwise fun s t => s.start < t.start := by
  have hp := h.tiles.starts_pairwise
  rwa [pairwise_map] at hp

variable (hs : s ∈ A.allSegs)
include hs

theorem start_inj (ht : t ∈ A.allSegs) (he : s.start = t.start) : s = t := by
  by_contra hne
  have : Std.Symm fun s t : Segment => s.start ≠ t.start := ⟨fun _ _ => Ne.symm⟩
  have hp : A.allSegs.Pairwise fun s t => s.start ≠ t.start := h.ordered.imp fun hlt => hlt.ne
  exact hp.forall hs ht hne he

/-- Two different segments are apart. -/
theorem apart (ht : t ∈ A.allSegs) (hne : s ≠ t) : s.extent.Apart t.extent := by
  refine h.tiles.apart (mem_map_of_mem hs) (mem_map_of_mem ht) fun he => ?_
  exact hne (h.start_inj hs ht (congrArg Extent.start he))

/-- A segment that holds an address of another one is that segment. -/
theorem eq_of_mem (ht : t ∈ A.allSegs)
    (hxs : x ∈ s.extent.toSet) (hxt : x ∈ t.extent.toSet) : s = t := by
  by_contra hne
  exact Set.disjoint_left.mp (h.apart hs ht hne).disjoint hxs hxt

theorem segmentAt_eq : segmentAt A s.start = some s := by
  rw [segmentAt]
  cases hf : A.allSegs.find? (·.start == s.start) with
  | none => exact absurd (find?_eq_none.mp hf s hs) (by simp)
  | some t =>
    have he : t.start = s.start := by simpa using find?_some hf
    rw [h.start_inj (mem_of_find?_eq_some hf) hs he]

/-- `segment_find` finds the segment that an address lies in. -/
theorem segmentFind_eq (hx : x ∈ s.extent.toSet) : segmentFind A x = some s := by
  have hin : ∀ t : Segment, (decide (t.start ≤ x) && decide (x - t.start < t.length)) = true ↔
      x ∈ t.extent.toSet := by
    intro t
    simp only [Bool.and_eq_true, decide_eq_true_eq, Extent.mem_toSet, extent]
    omega
  rw [segmentFind]
  cases hf : A.allSegs.find? _ with
  | none => exact absurd ((hin s).mpr hx) (find?_eq_none.mp hf s hs)
  | some t =>
    have hxt := find?_some hf
    rw [h.eq_of_mem (mem_of_find?_eq_some hf) hs ((hin t).mp hxt) hx]

/-- The segments before and after one, by their starts. -/
theorem split_at :
    ∃ a b, A.allSegs = a ++ s :: b ∧ (∀ t ∈ a, t.start < s.start) ∧ ∀ t ∈ b, s.start < t.start := by
  obtain ⟨a, b, hab⟩ := append_of_mem hs
  have hp := h.ordered
  rw [hab, pairwise_append, pairwise_cons] at hp
  exact ⟨a, b, hab, fun t ht => hp.2.2 t ht s (by simp), hp.2.1.1⟩

end ArenaInv

/-! ### List surgery at one segment -/

section Surgery

variable {a b new : List Segment} {s : Segment} {p : ℕ} {q : Segment → Bool}

private theorem replaceSeg_of_ne {l : List Segment} (h : ∀ t ∈ l, t.start ≠ p) :
    replaceSeg p new l = l := by
  induction l with
  | nil => rfl
  | cons t l ih =>
    rw [replaceSeg, flatMap_cons, if_neg (h t (by simp))]
    exact congrArg (t :: ·) (ih fun u hu => h u (mem_cons_of_mem _ hu))

theorem replaceSeg_split (ha : ∀ t ∈ a, t.start < s.start) (hb : ∀ t ∈ b, s.start < t.start) :
    replaceSeg s.start new (a ++ s :: b) = a ++ new ++ b := by
  have h₁ : replaceSeg s.start new a = a := replaceSeg_of_ne fun t ht => (ha t ht).ne
  have h₂ : replaceSeg s.start new b = b := replaceSeg_of_ne fun t ht => (hb t ht).ne'
  rw [replaceSeg] at h₁ h₂ ⊢
  rw [flatMap_append, flatMap_cons, if_pos rfl, h₁, h₂, append_assoc]

theorem map_split (f : Segment → Segment) (ha : ∀ t ∈ a, t.start < s.start)
    (hb : ∀ t ∈ b, s.start < t.start) :
    ((a ++ s :: b).map fun t => if t.start = s.start then f t else t) = a ++ f s :: b := by
  have h₁ : (a.map fun t => if t.start = s.start then f t else t) = a :=
    (map_congr_left fun t ht => if_neg (ha t ht).ne).trans (map_id' a)
  have h₂ : (b.map fun t => if t.start = s.start then f t else t) = b :=
    (map_congr_left fun t ht => if_neg (hb t ht).ne').trans (map_id' b)
  rw [map_append, map_cons, if_pos rfl, h₁, h₂]

theorem takeWhile_split (ha : ∀ t ∈ a, q t = true) (hs : q s = false) :
    (a ++ s :: b).takeWhile q = a := by
  rw [takeWhile_append_of_pos ha, takeWhile_cons_of_neg (by simp [hs]), append_nil]

theorem dropWhile_split (ha : ∀ t ∈ a, q t = true) (hs : q s = false) :
    (a ++ s :: b).dropWhile q = s :: b := by
  rw [dropWhile_append_of_pos ha, dropWhile_cons_of_neg (by simp [hs])]

end Surgery

/-- The segments tile `R`, each is inside the span it names, and no free one is in a slot. -/
structure SegsOk (Span : ℕ → Set ℕ) (R : Set ℕ) (l : List Segment) : Prop where
  tiles : Tiles R (l.map extent)
  each : ∀ s ∈ l, s.extent.toSet ⊆ Span s.spanStart ∧ (s.type = .free → s.magSlot = none)

variable {Span : ℕ → Set ℕ} {R : Set ℕ} {A : Arena} {a b o new : List Segment} {s : Segment}

theorem ArenaInv.segs (h : ArenaInv Span R A) : SegsOk Span R A.allSegs :=
  ⟨h.tiles, fun s hs => ⟨h.spans s hs, h.freeSlot s hs⟩⟩

/-- Segments are replaced by others that tile the same addresses. -/
theorem SegsOk.replace {X : Set ℕ} (h : SegsOk Span R (a ++ o ++ b))
    (hold : Tiles X (o.map extent)) (hnew : Tiles X (new.map extent))
    (heach : ∀ t ∈ new, t.extent.toSet ⊆ Span t.spanStart ∧ (t.type = .free → t.magSlot = none)) :
    SegsOk Span R (a ++ new ++ b) := by
  refine ⟨?_, fun t ht => ?_⟩
  · have htiles := h.tiles
    rw [map_append, map_append] at htiles ⊢
    exact htiles.retile hold hnew
  · simp only [mem_append] at ht
    rcases ht with (ht | ht) | ht
    · exact h.each t (by simp [ht])
    · exact heach t ht
    · exact h.each t (by simp [ht])

theorem SegsOk.modify {s' : Segment} (h : SegsOk Span R (a ++ s :: b))
    (hext : s'.extent = s.extent) (hspan : s'.spanStart = s.spanStart)
    (hslot : s'.type = .free → s'.magSlot = none) : SegsOk Span R (a ++ s' :: b) := by
  refine ⟨by simpa [hext] using h.tiles, fun t ht => ?_⟩
  rcases mem_cons.mp (perm_middle.mem_iff.mp ht) with rfl | ht
  · rw [hext, hspan]
    exact ⟨(h.each s (by simp)).1, hslot⟩
  · exact h.each t (perm_middle.mem_iff.mpr (mem_cons_of_mem _ ht))

/-! ### `arena_alloc` -/

section Alloc

variable {size align : ℕ} {tags : List Bool} {pad : ℕ}

theorem Fits.le {s : Segment} (h : Fits size align s) :
    alignPad s.start align + size ≤ s.length := by
  obtain ⟨h₁, h₂⟩ := h
  omega

/-- No free segment of the arena can hold `size` bytes at `align`. -/
def NoFit (A : Arena) (size align : ℕ) : Prop :=
  ∀ s ∈ A.allSegs, s.type = .free → ¬ Fits size align s

/-- The search finds a free segment that fits. -/
theorem firstFit_some (h : ArenaInv Span R A) {s : Segment} (hf : firstFit A size align = some s) :
    s ∈ A.allSegs ∧ s.type = .free ∧ Fits size align s := by
  obtain ⟨bin, -, hbin⟩ := exists_of_findSome?_eq_some hf
  obtain ⟨p, hp, hseg⟩ := exists_of_findSome?_eq_some hbin
  obtain ⟨hat, hfits⟩ := Option.filter_eq_some_iff.mp hseg
  have hmem : s ∈ A.allSegs := mem_of_find?_eq_some hat
  have hsp : s.start = p := by simpa using find?_some hat
  obtain ⟨t, ht, htp⟩ := mem_map.mp ((h.bins.bin bin).mem_iff.mp hp)
  obtain ⟨htA, htf⟩ := mem_freeOf.mp (mem_of_mem_filter ht)
  obtain rfl := h.start_inj hmem htA (hsp.trans htp.symm)
  exact ⟨hmem, htf, of_decide_eq_true hfits⟩

/-- If the search finds nothing, no free segment fits. -/
theorem firstFit_none (h : ArenaInv Span R A) (hsize : 0 < size)
    (hf : firstFit A size align = none) : NoFit A size align := by
  intro s hs hfree hfits
  have hle : size ≤ s.length := by have := hfits.le; omega
  have hlt : s.length < 2 ^ 64 := by
    have h₁ := h.start_range hs
    have h₂ := h.range (h.subset hs (Extent.last_mem (h.pos hs)))
    simp only [extent, Set.mem_Ioo] at h₂
    omega
  have hbinLt : sizeToBin s.length < binCount := (Nat.log2_lt (by have := h.pos hs; omega)).mpr hlt
  have hbinLe : sizeToBin size ≤ sizeToBin s.length := by
    rw [sizeToBin, sizeToBin, Nat.le_log2 (by omega)]
    exact (Nat.log2_self_le (by omega)).trans hle
  have hin : s.start ∈ A.freeBins (sizeToBin s.length) := by
    refine (h.bins.bin _).mem_iff.mpr (mem_map_of_mem (mem_filter.mpr ⟨?_, by simp⟩))
    exact mem_freeOf.mpr ⟨hs, hfree⟩
  have hmask := (h.bins.mask _ hbinLt).mpr (ne_nil_of_mem hin)
  have hvisit : sizeToBin s.length ∈ binsFrom A size := by
    rw [binsFrom, mem_filter, mem_range]
    exact ⟨hbinLt, by simp [hbinLe, hmask]⟩
  rw [firstFit, findSome?_eq_none_iff] at hf
  have hnone := findSome?_eq_none_iff.mp (hf _ hvisit) _ hin
  rw [h.segmentAt_eq hs] at hnone
  simp [hfits] at hnone

private theorem map_extent_leftover (p n c : ℕ) :
    (leftover p n c).map extent = if n = 0 then [] else [⟨p, n⟩] := by
  rw [leftover]
  split <;> rfl

private theorem mem_leftover {p n c : ℕ} {t : Segment} (h : t ∈ leftover p n c) :
    t = ⟨p, n, c, .free, none⟩ := by
  rw [leftover] at h
  split at h
  · exact absurd h not_mem_nil
  · exact mem_singleton.mp h

private theorem freeOf_leftover (p n c : ℕ) : freeOf (leftover p n c) = leftover p n c :=
  filter_eq_self.mpr fun t ht => by simp [mem_leftover ht]

private theorem held_leftover (p n c : ℕ) : held (leftover p n c) = [] :=
  filter_eq_nil_iff.mpr fun t ht => by simp [mem_leftover ht]

private theorem sum_leftover (p n c : ℕ) : ((leftover p n c).map Segment.length).sum = n := by
  rw [leftover]
  split <;> simp [*]

/-- What is left of a segment and the part taken out of it tile the segment. -/
private theorem carve_tiles {s : Segment} (h : pad + size ≤ s.length) (hsize : 0 < size) :
    Tiles s.extent.toSet ((leftover s.start pad s.spanStart ++ s.carved pad size ::
      leftover (s.start + pad + size) (s.length - pad - size) s.spanStart).map extent) := by
  rw [map_append, map_cons, map_extent_leftover, map_extent_leftover]
  simp only [extent, carved]
  refine ⟨?_, ?_, ?_⟩
  · intro e he
    split_ifs at he <;> simp only [nil_append, cons_append, mem_cons,
      not_mem_nil, or_false] at he <;> grind
  · split_ifs <;> simp [Extent.Before]
  · intro x
    split_ifs <;> simp [Extent.mem_toSet] <;> omega

/-- Carving `size` bytes out of a free segment keeps the arena and adds one busy segment. -/
theorem carve_spec (h : ArenaInv Span R A) {s : Segment} (hs : s ∈ A.allSegs)
    (hfree : s.type = .free) (hle : pad + size ≤ s.length) (hsize : 0 < size) :
    ArenaInv Span R (carve A s pad size) ∧
      (held (carve A s pad size).allSegs).Perm (s.carved pad size :: held A.allSegs) := by
  obtain ⟨a, b, hab, ha, hb⟩ := h.split_at hs
  have hbins := h.bins
  have htotal := h.total
  rw [hab, freeOf_append, freeOf_cons_free hfree] at hbins htotal
  have hseg : (carve A s pad size).allSegs = a ++ (leftover s.start pad s.spanStart ++
      s.carved pad size ::
        leftover (s.start + pad + size) (s.length - pad - size) s.spanStart) ++ b := by
    simp only [carve, foldl_binInsert Arena.allSegs (fun _ _ => rfl)]
    rw [show (binRemove A s).allSegs = a ++ s :: b from hab, replaceSeg_split ha hb]
  have hbusy : (s.carved pad size).type ≠ .free := by simp [carved]
  have hnew := carve_tiles hle hsize
  have hsegs : SegsOk Span R (carve A s pad size).allSegs := by
    rw [hseg]
    refine SegsOk.replace (o := [s]) ?_ (Tiles.single (h.pos hs)) hnew fun t ht => ?_
    · simpa [hab] using h.segs
    have hts := (hnew.subset (mem_map_of_mem ht)).trans (h.spans s hs)
    simp only [mem_append, mem_cons] at ht
    rcases ht with ht | rfl | ht
    · rw [mem_leftover ht] at hts ⊢
      exact ⟨hts, fun _ => rfl⟩
    · exact ⟨hts, fun _ => h.freeSlot s hs hfree⟩
    · rw [mem_leftover ht] at hts ⊢
      exact ⟨hts, fun _ => rfl⟩
  refine ⟨⟨h.range, hsegs.tiles, fun t ht => (hsegs.each t ht).1, fun t ht => (hsegs.each t ht).2,
    ?_, ?_⟩, ?_⟩
  · -- the bins lose `s` and gain what is left of it
    have hrm := hbins.remove (s := s) (G := freeOf a ++ freeOf b) perm_middle
    have hins := (hrm.insertAll (leftover s.start pad s.spanStart)).insertAll
      (leftover (s.start + pad + size) (s.length - pad - size) s.spanStart)
    refine BinsOk.congr (hins.perm ?_) rfl rfl
    rw [hseg]
    simp only [freeOf_append, freeOf_cons_held hbusy, freeOf_leftover]
    grind
  · have htot : (carve A s pad size).totalFree = A.totalFree - size := by
      simp only [carve, foldl_binInsert Arena.totalFree (fun _ _ => rfl)]
      rfl
    rw [htot, htotal, hseg]
    simp only [freeOf_append, freeOf_cons_held hbusy, freeOf_leftover, map_append,
      sum_append, map_cons, sum_cons, sum_leftover]
    omega
  · rw [hseg, hab]
    simp only [held_append, held_cons_held hbusy, held_cons_free hfree, held_leftover,
      nil_append, append_assoc, cons_append]
    exact perm_middle

/-- The arena `A'` is `A` with one more busy segment `m`, of `size` bytes at `align`. -/
structure Allocated (Span : ℕ → Set ℕ) (R : Set ℕ) (size align : ℕ) (A A' : Arena) (m : Segment) :
    Prop where
  inv : ArenaInv Span R A'
  held : (held A'.allSegs).Perm (m :: held A.allSegs)
  magazines : A'.magazines = A.magazines
  length : m.length = size
  type : m.type = .busy
  slot : m.magSlot = none
  dvd : align ∣ m.start

/-- `arena_alloc` either leaves the arena alone or carves the segment that the search found. -/
private theorem arenaAlloc_cases (A : Arena) (tags : List Bool) (size align : ℕ) :
    ((arenaAlloc A tags size align).seg = none ∧ (arenaAlloc A tags size align).arena = A ∧
      ((arenaAlloc A tags size align).metadataFailed = false → firstFit A size align = none)) ∨
    ∃ s, firstFit A size align = some s ∧
      (arenaAlloc A tags size align).seg = some (s.start + alignPad s.start align) ∧
      (arenaAlloc A tags size align).metadataFailed = false ∧
      (arenaAlloc A tags size align).arena = carve A s (alignPad s.start align) size := by
  simp only [arenaAlloc]
  split
  · rename_i hf
    exact .inl ⟨rfl, rfl, fun _ => hf⟩
  rename_i s hf
  split
  · exact .inl ⟨rfl, rfl, fun hc => Bool.noConfusion hc⟩
  · split
    · exact .inl ⟨rfl, rfl, fun hc => Bool.noConfusion hc⟩
    · exact .inr ⟨s, hf, rfl, rfl, rfl⟩

/-- `arena_alloc` finds a segment, or leaves the arena alone; without a missing descriptor it then
held no free segment that fits. -/
theorem arenaAlloc_spec (h : ArenaInv Span R A) (hsize : 0 < size) (ha : isPow2 align = true)
    (hlt : align < 2 ^ 64) (tags : List Bool) :
    ((arenaAlloc A tags size align).seg = none ∧ (arenaAlloc A tags size align).arena = A ∧
      ((arenaAlloc A tags size align).metadataFailed = false → NoFit A size align)) ∨
    ∃ m, (arenaAlloc A tags size align).seg = some m.start ∧
      (arenaAlloc A tags size align).metadataFailed = false ∧
      Allocated Span R size align A (arenaAlloc A tags size align).arena m := by
  rcases arenaAlloc_cases A tags size align with ⟨h₁, h₂, h₃⟩ | ⟨s, hf, h₁, h₂, h₃⟩
  · exact .inl ⟨h₁, h₂, fun hm => firstFit_none h hsize (h₃ hm)⟩
  obtain ⟨hs, hfree, hfits⟩ := firstFit_some h hf
  obtain ⟨hinv, hheld⟩ := carve_spec h hs hfree hfits.le hsize
  refine .inr ⟨s.carved (alignPad s.start align) size, h₁, h₂, ?_⟩
  rw [h₃]
  refine ⟨hinv, hheld, ?_, rfl, rfl, h.freeSlot s hs hfree, ?_⟩
  · simp only [carve, foldl_binInsert Arena.magazines (fun _ _ => rfl)]
    rfl
  · exact dvd_add_alignPad ha hlt (h.start_range hs).1 (h.start_range hs).2

end Alloc

/-! ### `arena_release` -/

section Release

/-- The arena in the middle of `arena_release`: `s` is free and stands between the segments `a`
and `b`, but is in no bin yet. -/
structure Releasing (Span : ℕ → Set ℕ) (R : Set ℕ) (A : Arena) (a : List Segment) (s : Segment)
    (b : List Segment) : Prop where
  range : R ⊆ Set.Ioo 0 (2 ^ 64)
  tiles : Tiles R ((a ++ s :: b).map extent)
  spans : ∀ t ∈ a ++ s :: b, t.extent.toSet ⊆ Span t.spanStart
  freeSlot : ∀ t ∈ a ++ s :: b, t.type = .free → t.magSlot = none
  free : s.type = .free
  bins : BinsOk A (freeOf (a ++ b))
  total : A.totalFree = s.length + ((freeOf (a ++ b)).map Segment.length).sum

/-- Two neighbours that may merge tile what the joined segment tiles. -/
private theorem mergeable_tiles {l r : Segment} (h : segmentsMergeable l r = true)
    (hl : 0 < l.length) (hr : 0 < r.length) :
    Tiles (extent { l with length := l.length + r.length }).toSet
      ([l, r].map extent) := by
  simp only [segmentsMergeable, Bool.and_eq_true, decide_eq_true_eq] at h
  have hstart : r.start = l.start + l.length := by omega
  have := Tiles.pair (p := l.start) hl hr
  simpa [extent, hstart] using this

private theorem mergeable_iff {l r : Segment} : segmentsMergeable l r = true ↔
    l.type = .free ∧ r.type = .free ∧ l.spanStart = r.spanStart ∧
      l.length = r.start - l.start := by
  simp only [segmentsMergeable, Bool.and_eq_true, decide_eq_true_eq, and_assoc]

/-- Joining two neighbours keeps the segments a tiling inside their spans. -/
private theorem join_segs {l r : Segment} (hm : segmentsMergeable l r = true)
    (h : SegsOk Span R (a ++ [l, r] ++ b)) :
    SegsOk Span R (a ++ [{ l with length := l.length + r.length }] ++ b) := by
  have hl := h.tiles.pos l.extent (mem_map_of_mem (by simp))
  have hr := h.tiles.pos r.extent (mem_map_of_mem (by simp))
  have hpair := mergeable_tiles hm hl hr
  refine h.replace hpair (Tiles.single (by simp only [extent] at hl ⊢; omega))
    fun t ht => ?_
  obtain rfl := mem_singleton.mp ht
  refine ⟨fun x hx => ?_, (h.each l (by simp)).2⟩
  obtain ⟨e, he, hxe⟩ := (hpair.cover x).mp hx
  obtain ⟨u, hu, rfl⟩ := mem_map.mp he
  rcases mem_pair.mp hu with rfl | rfl
  · exact (h.each u (by simp)).1 hxe
  · have hus := (h.each u (by simp)).1 hxe
    rwa [← (mergeable_iff.mp hm).2.2.1] at hus

/-- `A'`, `a'`, `s'`, `b'` come from `A`, `a`, `s`, `b` by joining `s` with a neighbour. -/
structure Joined (A A' : Arena) (a b a' b' : List Segment) (s s' : Segment) : Prop where
  held : held (a' ++ b') = held (a ++ b)
  magazines : A'.magazines = A.magazines
  sub : s.extent.toSet ⊆ s'.extent.toSet
  mem : ∀ t ∈ a' ++ b', t ∈ a ++ b

private theorem Joined.refl (A : Arena) (a b : List Segment) (s : Segment) :
    Joined A A a b a b s s := ⟨rfl, rfl, subset_rfl, fun _ ht => ht⟩

theorem Releasing.segs (h : Releasing Span R A a s b) : SegsOk Span R (a ++ s :: b) :=
  ⟨h.tiles, fun t ht => ⟨h.spans t ht, h.freeSlot t ht⟩⟩

/-- The segment takes over a free neighbour `m`, which leaves the bins. -/
private theorem Releasing.join {m s' : Segment} {a' b' : List Segment}
    (h : Releasing Span R A a s b) (hsegs : SegsOk Span R (a' ++ s' :: b')) (hs' : s'.type = .free)
    (hperm : (freeOf (a ++ b)).Perm (m :: freeOf (a' ++ b')))
    (hlen : s'.length = s.length + m.length) : Releasing Span R (binRemove A m) a' s' b' where
  range := h.range
  tiles := hsegs.tiles
  spans t ht := (hsegs.each t ht).1
  freeSlot t ht := (hsegs.each t ht).2
  free := hs'
  bins := h.bins.remove hperm
  total := by
    change A.totalFree = _
    rw [h.total, (hperm.map _).sum_eq, map_cons, sum_cons, hlen, Nat.add_assoc]

private theorem mergePrev_spec (h : Releasing Span R A a s b) :
    Releasing Span R (mergePrev A a s).1 (mergePrev A a s).2.1 (mergePrev A a s).2.2 b ∧
      Joined A (mergePrev A a s).1 a b (mergePrev A a s).2.1 b s (mergePrev A a s).2.2 := by
  rcases eq_nil_or_concat' a with rfl | ⟨c, prev, rfl⟩
  · exact ⟨h, Joined.refl ..⟩
  simp only [mergePrev, getLast?_concat, dropLast_concat]
  by_cases hm : segmentsMergeable prev s = true
  · rw [if_pos hm]
    have hpf : prev.type = .free := (mergeable_iff.mp hm).1
    have hlist : c ++ [prev] ++ b = c ++ prev :: b := by simp
    have hsegs := join_segs (b := b) hm (by simpa using h.segs)
    refine ⟨h.join (by simpa using hsegs) hpf ?_ (add_comm ..), ⟨?_, rfl, ?_, ?_⟩⟩
    · rw [hlist]
      exact freeOf_middle hpf
    · rw [hlist, held_skip hpf]
    · have hpos := fun t ht => h.tiles.pos (extent t) (mem_map_of_mem ht)
      exact (mergeable_tiles hm (hpos prev (by simp)) (hpos s (by simp))).subset (by simp)
    · intro t ht
      rcases mem_append.mp ht with ht | ht <;> simp [ht]
  · rw [if_neg hm]
    exact ⟨h, Joined.refl ..⟩

private theorem mergeNext_spec (h : Releasing Span R A a s b) :
    Releasing Span R (mergeNext A s b).1 a (mergeNext A s b).2.1 (mergeNext A s b).2.2 ∧
      Joined A (mergeNext A s b).1 a b a (mergeNext A s b).2.2 s (mergeNext A s b).2.1 := by
  cases b with
  | nil => exact ⟨h, Joined.refl ..⟩
  | cons next rest =>
    simp only [mergeNext]
    by_cases hm : segmentsMergeable s next = true
    · rw [if_pos hm]
      have hnf : next.type = .free := (mergeable_iff.mp hm).2.1
      have hsegs := join_segs (a := a) (b := rest) hm (by simpa using h.segs)
      refine ⟨h.join (by simpa using hsegs) h.free (freeOf_middle hnf) rfl,
        ⟨(held_skip hnf).symm, rfl, ?_, ?_⟩⟩
      · intro x hx
        simp only [extent, Extent.mem_toSet] at hx ⊢
        omega
      · intro t ht
        rcases mem_append.mp ht with ht | ht <;> simp [ht]
    · rw [if_neg hm]
      exact ⟨h, Joined.refl ..⟩

/-- Entering the bins ends the release. -/
private theorem Releasing.finish (h : Releasing Span R A a s b) :
    ArenaInv Span R (binInsert { A with allSegs := a ++ s :: b } s) := by
  have hfree : (freeOf (a ++ s :: b)).Perm (s :: freeOf (a ++ b)) := freeOf_middle h.free
  refine ⟨h.range, h.tiles, h.spans, h.freeSlot, ?_, ?_⟩
  · have hbins : BinsOk { A with allSegs := a ++ s :: b } (freeOf (a ++ b)) := h.bins.congr rfl rfl
    exact (hbins.insert s).perm hfree.symm
  · change A.totalFree = ((freeOf (a ++ s :: b)).map Segment.length).sum
    rw [h.total, (hfree.map _).sum_eq, map_cons, sum_cons]

/-- `arena_release` takes one segment out of the held ones; every free segment it leaves was
there before or contains the one released. -/
theorem arenaRelease_spec (h : ArenaInv Span R A) (hs : s ∈ A.allSegs) (hheld : s.type ≠ .free)
    (hslot : s.magSlot = none) :
    ArenaInv Span R (arenaRelease A s.start) ∧
      (held A.allSegs).Perm (s :: held (arenaRelease A s.start).allSegs) ∧
      (arenaRelease A s.start).magazines = A.magazines ∧
      ∀ t ∈ (arenaRelease A s.start).allSegs,
        t ∈ A.allSegs ∨ s.extent.toSet ⊆ t.extent.toSet := by
  obtain ⟨a, b, hab, ha, hb⟩ := h.split_at hs
  have htake : A.allSegs.takeWhile (·.start != s.start) = a := by
    rw [hab]
    exact takeWhile_split (fun t ht => by simpa using (ha t ht).ne) (by simp)
  have hdrop : A.allSegs.dropWhile (·.start != s.start) = s :: b := by
    rw [hab]
    exact dropWhile_split (fun t ht => by simpa using (ha t ht).ne) (by simp)
  have hfree : freeOf A.allSegs = freeOf (a ++ b) := hab ▸ freeOf_skip hheld
  have hmem : ∀ t ∈ a ++ b, t ∈ A.allSegs := by
    intro t ht
    rw [hab]
    rcases mem_append.mp ht with ht | ht <;> simp [ht]
  have hstart : Releasing Span R { A with totalFree := A.totalFree + s.length } a
      { s with type := .free } b := by
    have hbins := h.bins
    rw [hfree] at hbins
    have hsegs : SegsOk Span R (a ++ { s with type := .free } :: b) :=
      (hab ▸ h.segs).modify rfl rfl fun _ => hslot
    refine ⟨h.range, hsegs.tiles, fun t ht => (hsegs.each t ht).1, fun t ht => (hsegs.each t ht).2,
      rfl, hbins.congr rfl rfl, ?_⟩
    · rw [h.total, hfree, add_comm]
  obtain ⟨hprev, hjoin₁⟩ := mergePrev_spec hstart
  obtain ⟨hnext, hjoin₂⟩ := mergeNext_spec hprev
  simp only [arenaRelease, hdrop, htake]
  refine ⟨hnext.finish, ?_, hjoin₂.magazines.trans hjoin₁.magazines, ?_⟩
  · have hrest := hjoin₂.held.trans hjoin₁.held
    simp only [binInsert]
    rw [held_skip hnext.free, hrest, hab]
    exact held_middle hheld
  · intro t ht
    simp only [binInsert, mem_append, mem_cons] at ht
    rcases ht with ht | rfl | ht
    · exact .inl (hmem t (hjoin₁.mem t (hjoin₂.mem t (by simp [ht]))))
    · exact .inr (hjoin₁.sub.trans hjoin₂.sub)
    · exact .inl (hmem t (hjoin₁.mem t (hjoin₂.mem t (by simp [ht]))))

end Release

/-! ### Other changes of an arena -/

section Change

/-- Changing the state of a held segment keeps the arena. -/
theorem modifySeg_spec (h : ArenaInv Span R A) (hs : s ∈ A.allSegs) (hheld : s.type ≠ .free)
    {f : Segment → Segment} (hext : (f s).extent = s.extent) (hspan : (f s).spanStart = s.spanStart)
    (hf : (f s).type ≠ .free) :
    ArenaInv Span R (modifySeg A s.start f) ∧
      (∀ H, (held A.allSegs).Perm (s :: H) →
        (held (modifySeg A s.start f).allSegs).Perm (f s :: H)) ∧
      ∀ t ∈ (modifySeg A s.start f).allSegs, t ∈ A.allSegs ∨ t = f s := by
  obtain ⟨a, b, hab, ha, hb⟩ := h.split_at hs
  have hsegs : (modifySeg A s.start f).allSegs = a ++ f s :: b := by
    simp only [modifySeg, hab]
    exact map_split f ha hb
  have hfree : freeOf (a ++ f s :: b) = freeOf A.allSegs := by
    rw [hab, freeOf_skip hf, freeOf_skip hheld]
  have hmem : ∀ t ∈ a ++ f s :: b, t ∈ A.allSegs ∨ t = f s := by
    intro t ht
    rw [hab]
    simp only [mem_append, mem_cons] at ht ⊢
    tauto
  have hok := (hab ▸ h.segs).modify hext hspan fun hc => absurd hc hf
  rw [← hsegs] at hok
  refine ⟨⟨h.range, hok.tiles, fun t ht => (hok.each t ht).1, fun t ht => (hok.each t ht).2, ?_,
    ?_⟩, ?_, ?_⟩
  · rw [hsegs, hfree]
    exact h.bins.congr rfl rfl
  · rw [hsegs, hfree]
    exact h.total
  · intro H hH
    rw [hsegs]
    rw [hab] at hH
    exact (held_middle hf).trans (((held_middle hheld).symm.trans hH).cons_inv.cons _)
  · rwa [hsegs]

/-- A free segment apart from the arena's addresses may enter it. -/
theorem insertFree_spec (h : ArenaInv Span R A) (hpos : 0 < s.length) (hfree : s.type = .free)
    (hslot : s.magSlot = none) (hrange : s.extent.toSet ⊆ Set.Ioo 0 (2 ^ 64))
    (hspan : s.extent.toSet ⊆ Span s.spanStart) (hdisj : Disjoint R s.extent.toSet) :
    ArenaInv Span (R ∪ s.extent.toSet) (insertFree A s) ∧
      held (insertFree A s).allSegs = held A.allSegs ∧ s ∈ (insertFree A s).allSegs := by
  set a := A.allSegs.takeWhile fun t => decide (t.start < s.start) with hadef
  set b := A.allSegs.dropWhile fun t => decide (t.start < s.start) with hbdef
  have hab : A.allSegs = a ++ b := takeWhile_append_dropWhile.symm
  have hsegs : (insertFree A s).allSegs = a ++ s :: b := rfl
  have hcases : ∀ t ∈ A.allSegs, t.extent.Before s.extent ∨ s.extent.Before t.extent := by
    intro t ht
    have hd : Disjoint t.extent.toSet s.extent.toSet := hdisj.mono_left (h.subset ht)
    exact Extent.apart_of_disjoint (h.pos ht) hpos hd
  have ha : ∀ t ∈ a, t.extent.Before s.extent := by
    intro t ht
    have hlt : t.start < s.start := by simpa using mem_takeWhile_imp ht
    refine (hcases t (by rw [hab]; simp [ht])).resolve_right fun hc => ?_
    simp only [Extent.Before, extent] at hc
    omega
  have hb : ∀ t ∈ b, s.extent.Before t.extent := by
    intro t ht
    refine (hcases t (by rw [hab]; simp [ht])).resolve_left fun hc => ?_
    -- the first of the rest does not start below `s`, and the others start even higher
    have hle : s.start ≤ t.start := by
      cases hbl : b with
      | nil => simp [hbl] at ht
      | cons u l =>
        have hu : ¬ u.start < s.start := by
          have hhead := head?_dropWhile_not (fun t : Segment => decide (t.start < s.start))
            A.allSegs
          rw [← hbdef, hbl] at hhead
          simpa using hhead
        have hord := h.ordered
        rw [hab, pairwise_append, hbl, pairwise_cons] at hord
        rw [hbl] at ht
        rcases mem_cons.mp ht with rfl | ht
        · omega
        · have := hord.2.1.1 t ht
          omega
    simp only [Extent.Before, extent] at hc
    have := h.pos (show t ∈ A.allSegs by rw [hab]; simp [ht])
    omega
  have hperm : (freeOf (a ++ s :: b)).Perm (s :: freeOf A.allSegs) := hab ▸ freeOf_middle hfree
  have hmem : ∀ t ∈ a ++ s :: b, t ∈ A.allSegs ∨ t = s := by
    intro t ht
    rw [hab]
    simp only [mem_append, mem_cons] at ht ⊢
    tauto
  refine ⟨⟨Set.union_subset h.range hrange, ?_, ?_, ?_, ?_, ?_⟩, ?_, ?_⟩
  · have htiles := h.tiles
    rw [hab, map_append] at htiles
    have hins := htiles.insert (Tiles.single hpos) (l := [s.extent])
      (by simpa using ha) (by simpa using hb)
    rw [hsegs]
    simpa using hins
  · intro t ht
    rcases hmem t ht with ht | rfl
    · exact h.spans t ht
    · exact hspan
  · intro t ht htf
    rcases hmem t ht with ht | rfl
    · exact h.freeSlot t ht htf
    · exact hslot
  · rw [hsegs]
    exact BinsOk.congr ((h.bins.insert s).perm hperm.symm) rfl rfl
  · rw [hsegs, (hperm.map _).sum_eq, map_cons, sum_cons, ← h.total]
    exact add_comm ..
  · rw [hsegs, hab, held_skip hfree]
  · rw [hsegs]
    simp

theorem mem_insertFree {t : Segment} (ht : t ∈ (insertFree A s).allSegs) :
    t ∈ A.allSegs ∨ t = s := by
  have hsplit : A.allSegs = A.allSegs.takeWhile (fun t => decide (t.start < s.start)) ++
      A.allSegs.dropWhile (fun t => decide (t.start < s.start)) :=
    takeWhile_append_dropWhile.symm
  rw [hsplit]
  simp only [insertFree, binInsert, mem_append, mem_cons] at ht ⊢
  tauto

/-- A free segment may leave the arena together with its addresses. -/
theorem deleteFree_spec (h : ArenaInv Span R A) (hs : s ∈ A.allSegs) (hfree : s.type = .free) :
    ArenaInv Span (R \ s.extent.toSet) (deleteFree A s) ∧
      held (deleteFree A s).allSegs = held A.allSegs ∧
      ∀ t, t ∈ (deleteFree A s).allSegs ↔ t ∈ A.allSegs ∧ t ≠ s := by
  obtain ⟨a, b, hab, ha, hb⟩ := h.split_at hs
  have hsegs : (deleteFree A s).allSegs = a ++ b := by
    simp only [deleteFree]
    rw [show (binRemove A s).allSegs = a ++ s :: b from hab, replaceSeg_split ha hb, append_nil]
  have hperm : (freeOf A.allSegs).Perm (s :: freeOf (a ++ b)) := hab ▸ freeOf_middle hfree
  have hmem : ∀ t, t ∈ a ++ b ↔ t ∈ A.allSegs ∧ t ≠ s := by
    intro t
    rw [hab]
    constructor
    · intro ht
      rcases mem_append.mp ht with ht | ht
      · exact ⟨by simp [ht], fun he => absurd (ha t ht) (by simp [he])⟩
      · exact ⟨by simp [ht], fun he => absurd (hb t ht) (by simp [he])⟩
    · rintro ⟨ht, hne⟩
      simp only [mem_append, mem_cons] at ht ⊢
      tauto
  refine ⟨⟨Set.sdiff_subset.trans h.range, ?_, ?_, ?_, ?_, ?_⟩, ?_, ?_⟩
  · have htiles := h.tiles
    rw [hab, map_append, map_cons] at htiles
    rw [hsegs, map_append]
    exact htiles.remove
  · rw [hsegs]
    exact fun t ht => h.spans t ((hmem t).mp ht).1
  · rw [hsegs]
    exact fun t ht => h.freeSlot t ((hmem t).mp ht).1
  · rw [hsegs]
    exact BinsOk.congr (h.bins.remove hperm) rfl rfl
  · have htot : (deleteFree A s).totalFree = A.totalFree - s.length := rfl
    rw [htot, h.total, (hperm.map _).sum_eq, map_cons, sum_cons, hsegs, Nat.add_sub_cancel_left]
  · rw [hsegs, hab, held_skip hfree]
  · rwa [hsegs]

end Change

end Charmos.Vas
