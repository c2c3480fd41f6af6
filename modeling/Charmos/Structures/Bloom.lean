import Mathlib

/-!
# The counting Bloom filter

An element increments the counters at its positions when it is added and decrements them when it is
removed. The counters have four bits, two of them in a byte, and stay at their maximum once they
have reached it: an element with such a counter is not removed. So every counter holds the number
of times that a live element has its position, cut off at the maximum, and a live element is found
(`bloomRun_sound`).
-/

namespace Charmos.Bloom

open List Relation

/-- The bytes of a C string, without the terminator. -/
abbrev Element := List (BitVec 8)

/-- `COUNTER_MAX`. -/
def counterMax : ℕ := 15

/-- `struct counting_bloom_filter`. -/
structure CountingBloomFilter where
  counters : ℕ → BitVec 8
  numCounters : ℕ
  numHashes : ℕ
  liveElements : ℕ

/-- `enum bloom_remove_result`. -/
inductive BloomRemoveResult where
  | ok
  | notFound
  | saturated
deriving DecidableEq

/-! ### Hashes -/

def murmurMix64 (k : BitVec 64) : BitVec 64 :=
  let k := k ^^^ k >>> 33
  let k := k * 0xff51afd7ed558ccd#64
  let k := k ^^^ k >>> 33
  let k := k * 0xc4ceb9fe1a85ec53#64
  k ^^^ k >>> 33

def djb264 (data : Element) : BitVec 64 :=
  murmurMix64 (data.foldl (fun hash b => hash * 33#64 ^^^ b.setWidth 64) 5381#64)

/-- `hash_fnv1a_64`. -/
def hashFnv1a64 (data : Element) : BitVec 64 :=
  data.foldl (fun hash b => (hash ^^^ b.setWidth 64) * 0x100000001b3#64) 0xcbf29ce484222325#64

def computePositions (cbf : CountingBloomFilter) (element : Element) : List ℕ :=
  (range cbf.numHashes).map fun i =>
    (hashFnv1a64 element + BitVec.ofNat 64 i * djb264 element).toNat % cbf.numCounters

/-! ### Counters -/

def counterGet (counters : ℕ → BitVec 8) (idx : ℕ) : ℕ :=
  let byte := counters (idx / 2)
  if idx % 2 = 0 then (byte &&& 0x0F#8).toNat else (byte >>> 4).toNat

def counterSet (counters : ℕ → BitVec 8) (idx val : ℕ) : ℕ → BitVec 8 :=
  let val := BitVec.ofNat 8 (min val counterMax)
  let byte := counters (idx / 2)
  Function.update counters (idx / 2)
    (if idx % 2 = 0 then (byte &&& 0xF0#8) ||| (val &&& 0x0F#8)
      else (byte &&& 0x0F#8) ||| (val &&& 0x0F#8) <<< 4)

def counterIncrement (counters : ℕ → BitVec 8) (idx : ℕ) : ℕ → BitVec 8 :=
  let v := counterGet counters idx
  if v < counterMax then counterSet counters idx (v + 1) else counters

def counterDecrement (counters : ℕ → BitVec 8) (idx : ℕ) : ℕ → BitVec 8 :=
  let v := counterGet counters idx
  if 0 < v then counterSet counters idx (v - 1) else counters

/-! ### Operations -/

def cbfAdd (cbf : CountingBloomFilter) (element : Element) : CountingBloomFilter :=
  { cbf with
    counters := (computePositions cbf element).foldl counterIncrement cbf.counters
    liveElements := (cbf.liveElements + 1) % 2 ^ 64 }

def cbfContains (cbf : CountingBloomFilter) (element : Element) : Bool :=
  (computePositions cbf element).all fun p => counterGet cbf.counters p ≠ 0

/-- The loop of `cbf_remove` that checks the counters. -/
def removeCheck (counters : ℕ → BitVec 8) : List ℕ → BloomRemoveResult
  | [] => .ok
  | p :: positions =>
    let v := counterGet counters p
    if v = 0 then .notFound
    else if v = counterMax then .saturated
    else removeCheck counters positions

def cbfRemove (cbf : CountingBloomFilter) (element : Element) :
    BloomRemoveResult × CountingBloomFilter :=
  let positions := computePositions cbf element
  match removeCheck cbf.counters positions with
  | .ok => (.ok, { cbf with
      counters := positions.foldl counterDecrement cbf.counters
      liveElements := cbf.liveElements - 1 })
  | res => (res, cbf)

/-! ### What the counters hold -/

section Counters

variable {c : ℕ → BitVec 8} {i j v : ℕ}

/-- The two counters of a byte, after one of them was set. -/
private theorem nibbles : ∀ (b : BitVec 8) (v : Fin 16),
    let val := BitVec.ofNat 8 v &&& 0x0F#8
    ((b &&& 0xF0#8 ||| val) &&& 0x0F#8).toNat = v ∧
      ((b &&& 0xF0#8 ||| val) >>> 4).toNat = (b >>> 4).toNat ∧
      ((b &&& 0x0F#8 ||| val <<< 4) >>> 4).toNat = v ∧
      ((b &&& 0x0F#8 ||| val <<< 4) &&& 0x0F#8).toNat = (b &&& 0x0F#8).toNat := by
  decide +kernel

theorem counterGet_le : counterGet c i ≤ counterMax := by
  have hlow : ∀ b : BitVec 8, (b &&& 0x0F#8).toNat ≤ 15 ∧ (b >>> 4).toNat ≤ 15 := by decide +kernel
  unfold counterGet counterMax
  split_ifs
  · exact (hlow _).1
  · exact (hlow _).2

theorem counterGet_counterSet (hv : v ≤ counterMax) :
    counterGet (counterSet c i v) j = if j = i then v else counterGet c j := by
  obtain ⟨h1, h2, h3, h4⟩ := nibbles (c (i / 2)) ⟨v, by unfold counterMax at hv; omega⟩
  simp only [counterGet, counterSet, min_eq_left hv, Function.update_apply]
  by_cases hb : j / 2 = i / 2
  · have hji : j = i ↔ j % 2 = i % 2 := by omega
    rw [if_pos hb, hb]
    rcases Nat.mod_two_eq_zero_or_one i with hi | hi <;>
      rcases Nat.mod_two_eq_zero_or_one j with hj | hj <;> simp [hji, hi, hj, h1, h2, h3, h4]
  · rw [if_neg hb, if_neg fun h : j = i => hb (h ▸ rfl)]

theorem counterGet_foldl_increment (positions : List ℕ) :
    counterGet (positions.foldl counterIncrement c) j =
      min counterMax (counterGet c j + positions.count j) := by
  induction positions generalizing c with
  | nil => simp [counterGet_le]
  | cons p positions ih =>
    have hle := counterGet_le (c := c) (i := j)
    have hstep : counterGet (counterIncrement c p) j =
        min counterMax (counterGet c j + if p = j then 1 else 0) := by
      simp only [counterIncrement]
      split_ifs with hlt hj hj
      · subst hj
        rw [counterGet_counterSet hlt, if_pos rfl]
        omega
      · rw [counterGet_counterSet hlt, if_neg (Ne.symm hj)]
        omega
      · subst hj
        omega
      · omega
    rw [foldl_cons, ih, hstep, count_cons]
    simp only [beq_iff_eq]
    omega

theorem counterGet_foldl_decrement (positions : List ℕ) :
    counterGet (positions.foldl counterDecrement c) j = counterGet c j - positions.count j := by
  induction positions generalizing c with
  | nil => simp
  | cons p positions ih =>
    have hle := counterGet_le (c := c) (i := p)
    have hstep : counterGet (counterDecrement c p) j =
        counterGet c j - if p = j then 1 else 0 := by
      simp only [counterDecrement]
      split_ifs with hlt hj hj
      · rw [counterGet_counterSet (by omega), if_pos hj.symm, hj]
      · rw [counterGet_counterSet (by omega), if_neg (Ne.symm hj), Nat.sub_zero]
      · subst hj
        omega
      · rfl
    rw [foldl_cons, ih, hstep, count_cons]
    simp only [beq_iff_eq]
    omega

theorem removeCheck_eq_ok {positions : List ℕ} : removeCheck c positions = .ok ↔
    ∀ p ∈ positions, 0 < counterGet c p ∧ counterGet c p < counterMax := by
  induction positions with
  | nil => simp [removeCheck]
  | cons p positions ih =>
    have hle := counterGet_le (c := c) (i := p)
    simp only [removeCheck, forall_mem_cons, ← ih]
    split_ifs with h0 hmax
    · simp [h0]
    · simp [hmax]
    · exact (and_iff_right ⟨by omega, by omega⟩).symm

end Counters

/-! ### Runs -/

/-- The filter, with the elements that were added more often than removed. -/
structure BloomSys where
  cbf : CountingBloomFilter
  live : Multiset Element

/-- An empty filter of any geometry. -/
def bloomInit (numCounters numHashes : ℕ) : BloomSys := ⟨⟨fun _ => 0, numCounters, numHashes, 0⟩, 0⟩

/-- One call. Only a live element is removed, and it stays live unless the call succeeds. -/
inductive BloomStep : BloomSys → BloomSys → Prop
  | add (s : BloomSys) (x : Element) : BloomStep s ⟨cbfAdd s.cbf x, x ::ₘ s.live⟩
  | contains (s : BloomSys) : BloomStep s s
  | remove (s : BloomSys) (x : Element) : x ∈ s.live → BloomStep s ⟨(cbfRemove s.cbf x).2,
      if (cbfRemove s.cbf x).1 = .ok then s.live.erase x else s.live⟩

/-- How often the live elements have the position. -/
def weight (s : BloomSys) (p : ℕ) : ℕ :=
  (s.live.map fun x => (computePositions s.cbf x).count p).sum

theorem cbfRemove_of_ok {cbf : CountingBloomFilter} {x : Element}
    (h : removeCheck cbf.counters (computePositions cbf x) = .ok) :
    cbfRemove cbf x = (.ok, { cbf with
      counters := (computePositions cbf x).foldl counterDecrement cbf.counters
      liveElements := cbf.liveElements - 1 }) := by
  rw [cbfRemove, h]

/-- A call that does not succeed changes nothing. -/
theorem cbfRemove_of_not_ok {cbf : CountingBloomFilter} {x : Element}
    (h : removeCheck cbf.counters (computePositions cbf x) ≠ .ok) :
    (cbfRemove cbf x).1 ≠ .ok ∧ (cbfRemove cbf x).2 = cbf := by
  cases hres : removeCheck cbf.counters (computePositions cbf x) with
  | ok => exact absurd hres h
  | notFound | saturated => simp [cbfRemove, hres]

/-- A counter at its maximum stays there. -/
theorem BloomStep.sticky {s s' : BloomSys} {p : ℕ} (h : BloomStep s s')
    (hp : counterGet s.cbf.counters p = counterMax) :
    counterGet s'.cbf.counters p = counterMax := by
  cases h with
  | add x =>
    refine (counterGet_foldl_increment _).trans ?_
    omega
  | contains => exact hp
  | remove x hx =>
    by_cases hok : removeCheck s.cbf.counters (computePositions s.cbf x) = .ok
    · have hnot : p ∉ computePositions s.cbf x := fun hm =>
        (removeCheck_eq_ok.mp hok p hm).2.ne hp
      rw [cbfRemove_of_ok hok]
      refine (counterGet_foldl_decrement _).trans ?_
      rw [count_eq_zero_of_not_mem hnot, hp, Nat.sub_zero]
    · rw [(cbfRemove_of_not_ok hok).2]
      exact hp

/-- Every counter holds the weight of its position, cut off at the maximum. -/
def BloomInv (s : BloomSys) : Prop := ∀ p, counterGet s.cbf.counters p = min counterMax (weight s p)

theorem BloomInv.step {s s' : BloomSys} (h : BloomInv s) (hstep : BloomStep s s') :
    BloomInv s' := by
  intro p
  have hp := h p
  cases hstep with
  | add x =>
    refine (counterGet_foldl_increment _).trans ?_
    have hw : weight ⟨cbfAdd s.cbf x, x ::ₘ s.live⟩ p =
        (computePositions s.cbf x).count p + weight s p := by
      simp only [weight, Multiset.map_cons, Multiset.sum_cons]
      rfl
    omega
  | contains => exact hp
  | remove x hx =>
    by_cases hok : removeCheck s.cbf.counters (computePositions s.cbf x) = .ok
    · rw [cbfRemove_of_ok hok, if_pos rfl]
      refine (counterGet_foldl_decrement _).trans ?_
      have hw : weight s p = (computePositions s.cbf x).count p +
          ((s.live.erase x).map fun y => (computePositions s.cbf y).count p).sum := by
        rw [weight, ← Multiset.sum_map_erase hx]
      change _ = min _ ((s.live.erase x).map fun y => (computePositions s.cbf y).count p).sum
      by_cases hm : p ∈ computePositions s.cbf x
      · have := (removeCheck_eq_ok.mp hok p hm).2
        omega
      · rw [count_eq_zero_of_not_mem hm] at hw ⊢
        omega
    · obtain ⟨hne, hsame⟩ := cbfRemove_of_not_ok hok
      rw [if_neg hne, hsame]
      exact hp

theorem BloomInv.contains {s : BloomSys} (h : BloomInv s) {x : Element} (hx : x ∈ s.live) :
    cbfContains s.cbf x = true := by
  refine all_eq_true.mpr fun p hp => decide_eq_true ?_
  have hle : (computePositions s.cbf x).count p ≤ weight s p :=
    Multiset.single_le_sum (fun _ _ => Nat.zero_le _) _ (Multiset.mem_map_of_mem _ hx)
  have hpos := count_pos_iff.mpr hp
  rw [h p]
  unfold counterMax
  omega

theorem bloomRun_inv {numCounters numHashes : ℕ} {s : BloomSys}
    (h : ReflTransGen BloomStep (bloomInit numCounters numHashes) s) : BloomInv s := by
  induction h with
  | refl =>
    intro p
    simp [counterGet, bloomInit, weight]
  | tail _ hstep ih => exact ih.step hstep

/-- In every run a live element is found, a call of `cbf_remove` that does not succeed changes
nothing, and a counter that has reached its maximum stays there. -/
theorem bloomRun_sound {numCounters numHashes : ℕ} {s : BloomSys}
    (h : ReflTransGen BloomStep (bloomInit numCounters numHashes) s) :
    (∀ x ∈ s.live, cbfContains s.cbf x = true) ∧
    (∀ x, (cbfRemove s.cbf x).1 ≠ .ok → (cbfRemove s.cbf x).2 = s.cbf) ∧
    ∀ s', ReflTransGen BloomStep s s' → ∀ p, counterGet s.cbf.counters p = counterMax →
      counterGet s'.cbf.counters p = counterMax := by
  refine ⟨fun x hx => (bloomRun_inv h).contains hx, fun x hne => ?_, fun s' hrun p hp => ?_⟩
  · refine (cbfRemove_of_not_ok fun hok => hne ?_).2
    rw [cbfRemove_of_ok hok]
  · induction hrun with
    | refl => exact hp
    | tail _ hstep ih => exact hstep.sticky ih

theorem bloomRun_add (s : BloomSys) (x : Element) (n : ℕ) :
    ReflTransGen BloomStep s ((fun s => ⟨cbfAdd s.cbf x, x ::ₘ s.live⟩)^[n] s) := by
  induction n with
  | zero => exact .refl
  | succ n ih =>
    rw [Function.iterate_succ_apply']
    exact ih.tail (.add _ x)

/-- An element is added until its counters are full. Its removal fails and changes nothing, and its
counters stay full when another element is added. -/
theorem bloomRun_sound_full : ∃ s, ReflTransGen BloomStep (bloomInit 8 2) s ∧
    cbfContains s.cbf [97] = true ∧ (cbfRemove s.cbf [97]).1 = .saturated ∧
    (cbfRemove s.cbf [97]).2 = s.cbf ∧ ∀ p ∈ computePositions (bloomInit 8 2).cbf [97],
      counterGet (cbfAdd s.cbf [98]).counters p = counterMax := by
  have hrun := bloomRun_add (bloomInit 8 2) [97] 15
  obtain ⟨s, hs⟩ : ∃ s, s =
    (fun s : BloomSys => ⟨cbfAdd s.cbf [97], [97] ::ₘ s.live⟩)^[15] (bloomInit 8 2) := ⟨_, rfl⟩
  rw [← hs] at hrun
  obtain ⟨hlive, hres, hfull⟩ : [97] ∈ s.live ∧ (cbfRemove s.cbf [97]).1 = .saturated ∧
      ∀ p ∈ computePositions (bloomInit 8 2).cbf [97],
        counterGet s.cbf.counters p = counterMax := by
    rw [hs]
    decide +kernel
  obtain ⟨hfound, hfail, hsticky⟩ := bloomRun_sound hrun
  exact ⟨s, hrun, hfound _ hlive, hres, hfail _ (by rw [hres]; decide),
    fun p hp => hsticky _ (.single (.add s [98])) p (hfull p hp)⟩

/-- In every run, an element is found exactly if live elements cover all of its positions. -/
theorem bloomRun_contains_iff {numCounters numHashes : ℕ} {s : BloomSys}
    (h : ReflTransGen BloomStep (bloomInit numCounters numHashes) s) (x : Element) :
    cbfContains s.cbf x = true ↔
      ∀ p ∈ computePositions s.cbf x, ∃ y ∈ s.live, p ∈ computePositions s.cbf y := by
  refine all_eq_true.trans (forall₂_congr fun p _ => ?_)
  have hzero : weight s p = 0 ↔ ∀ y ∈ s.live, p ∉ computePositions s.cbf y := by
    simp [weight, Multiset.sum_eq_zero_iff, count_eq_zero]
  rw [decide_eq_true_iff, bloomRun_inv h p, ← not_iff_not]
  push Not
  rw [← hzero, counterMax]
  omega

/-- Two elements are added and one of them is removed, and is not found any more. -/
theorem bloomRun_contains_iff_removed : ∃ s, ReflTransGen BloomStep (bloomInit 8 2) s ∧
    cbfContains s.cbf [97] = false ∧ cbfContains s.cbf [98] = true := by
  obtain ⟨s, hrun, hlive, hmiss⟩ : ∃ s, ReflTransGen BloomStep (bloomInit 8 2) s ∧
      s.live = {[98]} ∧ ¬ computePositions s.cbf [97] ⊆ computePositions s.cbf [98] :=
    ⟨_, (bloomRun_add (bloomInit 8 2) [97] 1).trans
      ((bloomRun_add _ [98] 1).tail (.remove _ [97] (by decide +kernel))), by decide +kernel,
      by decide +kernel⟩
  refine ⟨s, hrun, ?_, (bloomRun_contains_iff hrun [98]).mpr fun p hp => ⟨[98], ?_, hp⟩⟩
  · rw [← Bool.not_eq_true, bloomRun_contains_iff hrun, hlive]
    simpa [List.subset_def] using hmiss
  · simp [hlive]

end Charmos.Bloom
