import Charmos.Lib.SortedBy

/-!
# Queues ordered by a key

A queue in non-decreasing order of a key, as the in-order sequence of a search tree gives it. A new
element goes behind those with an equal key (`insertByKey`). An element whose key has changed keeps
its place if its neighbours allow it, and is taken out and inserted again otherwise (`reinsert`).
Neither changes which elements there are, and both keep the queue sorted.
-/

namespace Charmos

open List

variable {α κ : Type} [LinearOrder κ] (key : α → κ)

/-- The queue is in non-decreasing order of the key. -/
def SortedByKey (l : List α) : Prop := l.Pairwise fun x y => key x ≤ key y

/-- The search for the place of `a` goes to the right of an equal key. -/
def insertByKey (a : α) (l : List α) : List α :=
  l.takeWhile (fun x => key x ≤ key a) ++ a :: l.dropWhile (fun x => key x ≤ key a)

variable {key} {a : α} {l : List α}

theorem insertByKey_perm : (insertByKey key a l).Perm (a :: l) := by
  unfold insertByKey
  refine perm_middle.trans ?_
  rw [takeWhile_append_dropWhile]

theorem SortedByKey.insert (h : SortedByKey key l) : SortedByKey key (insertByKey key a l) := by
  induction l with
  | nil => exact pairwise_singleton _ _
  | cons b l ih =>
    obtain ⟨hb, hl⟩ := pairwise_cons.mp h
    by_cases hba : key b ≤ key a
    · have hstep : insertByKey key a (b :: l) = b :: insertByKey key a l := by
        simp [insertByKey, hba]
      rw [hstep]
      refine pairwise_cons.mpr ⟨?_, ih hl⟩
      intro x hx
      rcases mem_cons.mp (insertByKey_perm.mem_iff.mp hx) with rfl | hx
      · exact hba
      · exact hb x hx
    · have hstep : insertByKey key a (b :: l) = a :: b :: l := by
        simp [insertByKey, hba]
      rw [hstep]
      have hab : key a ≤ key b := le_of_not_ge hba
      refine pairwise_cons.mpr ⟨?_, h⟩
      intro x hx
      rcases mem_cons.mp hx with rfl | hx
      · exact hab
      · exact le_trans hab (hb x hx)

/-- Another key that agrees on the queue orders it alike. -/
theorem SortedByKey.congr {key' : α → κ} (h : SortedByKey key l) (hk : ∀ x ∈ l, key' x = key x) :
    SortedByKey key' l :=
  (sortedBy_congr hk).mpr h

variable [DecidableEq α] (key) (a l)

/-- The elements before `a`. -/
def beforeIn : List α := l.takeWhile (· ≠ a)

/-- The elements behind `a`. -/
def behindIn : List α := (l.dropWhile (· ≠ a)).tail

/-- The neighbours of `a` are in order with it. -/
def positionValid : Bool :=
  ((beforeIn a l).getLast?.all fun x => key x ≤ key a) &&
    (behindIn a l).head?.all fun x => key a ≤ key x

/-- The queue after the key of its element `a` has changed. -/
def reinsert : List α :=
  if positionValid key a l then l else insertByKey key a (l.erase a)

variable {key} {a l}

theorem before_append_behind (h : a ∈ l) : l = beforeIn a l ++ a :: behindIn a l := by
  unfold beforeIn behindIn
  induction l with
  | nil => cases h
  | cons b l ih =>
    by_cases hb : b = a
    · simp [hb]
    have hmem : a ∈ l := (mem_cons.mp h).resolve_left fun he => hb he.symm
    have hrec := ih hmem
    simp only [takeWhile_cons, dropWhile_cons, hb, ne_eq, not_false_eq_true,
      decide_true, if_true, cons_append]
    exact congrArg (b :: ·) hrec

theorem reinsert_perm (h : a ∈ l) : (reinsert key a l).Perm l := by
  unfold reinsert
  split
  · exact .refl l
  · exact insertByKey_perm.trans (perm_cons_erase h).symm

/-- If the queue without `a` is sorted, it is after the reinsertion of `a`. -/
theorem SortedByKey.reinsert (h : a ∈ l) (hs : SortedByKey key (l.erase a)) (hn : l.Nodup) :
    SortedByKey key (reinsert key a l) := by
  unfold Charmos.reinsert
  split
  case isFalse => exact hs.insert
  case isTrue hv =>
    have hl := before_append_behind h
    have hna : a ∉ beforeIn a l := by
      intro hm
      rw [hl] at hn
      have := (nodup_append.mp hn).2.2 a hm a mem_cons_self
      exact this rfl
    have herase : l.erase a = beforeIn a l ++ behindIn a l := by
      conv_lhs => rw [hl]
      rw [erase_append_right _ hna, erase_cons_head]
    rw [herase] at hs
    simp only [positionValid, Bool.and_eq_true, Option.all_eq_true, decide_eq_true_eq] at hv
    rw [hl]
    exact sortedBy_middle_iff.mpr ⟨hs, hv⟩

end Charmos
