import Mathlib

/-!
# Search with marks

A search that keeps the states it still has to look at on a stack. A state is marked with the number
of the search when it is pushed, and a state that has the mark is not pushed again, so that the
marks of earlier searches need not be cleared. The stack has a capacity, and pushing beyond it
fails. If the states lie in a finite set that is no larger than the capacity, the search ends with
an answer, which says whether a goal can be reached (`markedSearch_spec`).
-/

namespace Charmos

open Function List Relation

variable {α : Type} [DecidableEq α]

/-- Push a state, unless it has the mark. -/
def pushMarked (cap gen : ℕ) (st : List α × (α → ℕ)) (x : α) : Option (List α × (α → ℕ)) :=
  if st.2 x = gen then some st
  else if st.1.length < cap then some (x :: st.1, Function.update st.2 x gen)
  else none

/-- Take states off the stack and push their successors, until one of them is a goal. -/
def markedSearch (succ : α → List α) (goal : α → Bool) (cap gen : ℕ) :
    ℕ → List α → (α → ℕ) → Option (Bool × (α → ℕ))
  | 0, _, _ => none
  | _ + 1, [], mark => some (false, mark)
  | fuel + 1, x :: stack, mark =>
    if goal x then some (true, mark)
    else ((succ x).foldlM (pushMarked cap gen) (stack, mark)).bind fun r =>
      markedSearch succ goal cap gen fuel r.1 r.2

/-- The states of a set that do not have the mark. -/
private def unmarked (S : Finset α) (mark : α → ℕ) (gen : ℕ) : Finset α :=
  S.filter fun x => mark x ≠ gen

variable {succ : α → List α} {goal : α → Bool} {cap gen fuel : ℕ} {S : Finset α}
  {stack : List α} {mark : α → ℕ} {start x : α}

private theorem unmarked_update (hx : x ∈ S) (hm : mark x ≠ gen) :
    (unmarked S (update mark x gen) gen).card + 1 = (unmarked S mark gen).card := by
  have herase : unmarked S (update mark x gen) gen = (unmarked S mark gen).erase x := by
    ext y
    by_cases hy : y = x
    · subst hy
      simp [unmarked]
    · simp [unmarked, hy]
  have hmem : x ∈ unmarked S mark gen := Finset.mem_filter.mpr ⟨hx, hm⟩
  rw [herase, Finset.card_erase_of_mem hmem]
  exact Nat.sub_add_cancel (Finset.card_pos.mpr ⟨x, hmem⟩)

/-- The stack holds marked states of the set, each of them once. -/
private structure StackOk (S : Finset α) (gen : ℕ) (stack : List α) (mark : α → ℕ) : Prop where
  nodup : stack.Nodup
  marked : ∀ x ∈ stack, mark x = gen
  mem : ∀ x ∈ stack, x ∈ S

private theorem StackOk.push (h : StackOk S gen stack mark) (hx : x ∈ S) (hm : mark x ≠ gen) :
    StackOk S gen (x :: stack) (update mark x gen) := by
  have hnew : x ∉ stack := fun hmem => hm (h.marked x hmem)
  refine ⟨nodup_cons.mpr ⟨hnew, h.nodup⟩, ?_, ?_⟩
  · intro y hy
    by_cases hyx : y = x
    · rw [hyx, update_self]
    · rw [update_of_ne hyx]
      exact h.marked y ((mem_cons.mp hy).resolve_left hyx)
  · intro y hy
    rcases mem_cons.mp hy with rfl | hy
    · exact hx
    · exact h.mem y hy

/-- A state that has no mark leaves room on the stack. -/
private theorem StackOk.room (h : StackOk S gen stack mark) (hx : x ∈ S) (hm : mark x ≠ gen)
    (hcap : S.card ≤ cap) : stack.length < cap := by
  have hok := h.push hx hm
  have hsub : (x :: stack).toFinset ⊆ S := fun y hy => hok.mem y (mem_toFinset.mp hy)
  have hcard := Finset.card_le_card hsub
  rw [toFinset_card_of_nodup hok.nodup, length_cons] at hcard
  omega

/-- Pushing a list of states marks them all, and pushes those that had no mark. -/
private theorem push_all {xs : List α} (h : StackOk S gen stack mark) (hxs : ∀ y ∈ xs, y ∈ S)
    (hcap : S.card ≤ cap) :
    ∃ r, xs.foldlM (pushMarked cap gen) (stack, mark) = some r ∧ StackOk S gen r.1 r.2 ∧
      (∀ y, r.2 y = gen ↔ mark y = gen ∨ y ∈ xs) ∧
      (∀ y ∈ stack, y ∈ r.1) ∧ (∀ y, r.2 y = gen → mark y ≠ gen → y ∈ r.1) ∧
      (unmarked S r.2 gen).card + r.1.length = (unmarked S mark gen).card + stack.length ∧
      ∀ y, r.2 y = gen ∨ r.2 y = mark y := by
  induction xs generalizing stack mark with
  | nil =>
    refine ⟨(stack, mark), rfl, h, ?_, fun _ hy => hy, fun y hy hne => absurd hy hne, rfl,
      fun _ => .inr rfl⟩
    simp
  | cons x xs ih =>
    have hx := hxs x mem_cons_self
    have hrest : ∀ y ∈ xs, y ∈ S := fun y hy => hxs y (mem_cons_of_mem _ hy)
    by_cases hm : mark x = gen
    · obtain ⟨r, hr, hok, hmark, hkeep, hnew, hcard, hold⟩ := ih h hrest
      refine ⟨r, ?_, hok, ?_, hkeep, hnew, hcard, hold⟩
      · rw [foldlM_cons, pushMarked, if_pos hm]
        exact hr
      intro y
      rw [hmark, mem_cons]
      refine ⟨?_, ?_⟩
      · rintro (hy | hy)
        · exact .inl hy
        · exact .inr (.inr hy)
      · rintro (hy | rfl | hy)
        · exact .inl hy
        · exact .inl hm
        · exact .inr hy
    · obtain ⟨r, hr, hok, hmark, hkeep, hnew, hcard, hold⟩ := ih (h.push hx hm) hrest
      refine ⟨r, ?_, hok, ?_, ?_, ?_, ?_, ?_⟩
      · rw [foldlM_cons, pushMarked, if_neg hm, if_pos (h.room hx hm hcap)]
        exact hr
      · intro y
        rw [hmark, mem_cons]
        by_cases hy : y = x
        · subst hy
          simp
        · simp [hy]
      · exact fun y hy => hkeep y (mem_cons_of_mem _ hy)
      · intro y hy hne
        by_cases hyx : y = x
        · rw [hyx]
          exact hkeep x mem_cons_self
        · refine hnew y hy ?_
          rw [update_of_ne hyx]
          exact hne
      · have := unmarked_update (S := S) hx hm
        rw [length_cons] at hcard
        omega
      · intro y
        by_cases hyx : y = x
        · rw [hyx]
          exact .inl ((hmark x).mpr (.inl (update_self _ _ _)))
        · have hy := hold y
          rw [update_of_ne hyx] at hy
          exact hy

/-- What holds each time a state is taken off the stack: the marked states can be reached, and those
of them that are off the stack are no goals and have marked successors. -/
private structure SearchOk (succ : α → List α) (goal : α → Bool) (S : Finset α) (gen : ℕ)
    (start : α) (stack : List α) (mark : α → ℕ) : Prop where
  stackOk : StackOk S gen stack mark
  startMarked : mark start = gen
  reached : ∀ x, mark x = gen → ReflTransGen (fun a b => b ∈ succ a) start x ∧ x ∈ S
  closed : ∀ x, mark x = gen → x ∉ stack → goal x = false ∧ ∀ y ∈ succ x, mark y = gen

private theorem SearchOk.step {stack : List α}
    (h : SearchOk succ goal S gen start (x :: stack) mark)
    (hsucc : ∀ x ∈ S, ∀ y ∈ succ x, y ∈ S) (hcap : S.card ≤ cap) (hgoal : goal x = false) :
    ∃ r, (succ x).foldlM (pushMarked cap gen) (stack, mark) = some r ∧
      SearchOk succ goal S gen start r.1 r.2 ∧
      (unmarked S r.2 gen).card + r.1.length = (unmarked S mark gen).card + stack.length ∧
      ∀ y, r.2 y = gen ∨ r.2 y = mark y := by
  have hx := h.stackOk.marked x mem_cons_self
  obtain ⟨hreach, hxS⟩ := h.reached x hx
  have hstack : StackOk S gen stack mark :=
    ⟨(nodup_cons.mp h.stackOk.nodup).2,
      fun y hy => h.stackOk.marked y (mem_cons_of_mem _ hy),
      fun y hy => h.stackOk.mem y (mem_cons_of_mem _ hy)⟩
  obtain ⟨r, hr, hok, hmark, hkeep, hnew, hcard, hold⟩ := push_all hstack (hsucc x hxS) hcap
  refine ⟨r, hr, ⟨hok, (hmark start).mpr (.inl h.startMarked), ?_, ?_⟩, hcard, hold⟩
  · intro y hy
    rcases (hmark y).mp hy with hy | hy
    · exact h.reached y hy
    · exact ⟨hreach.tail hy, hsucc x hxS y hy⟩
  intro y hy hoff
  have hym : mark y = gen := by
    by_contra hne
    exact hoff (hnew y hy hne)
  by_cases hyx : y = x
  · subst hyx
    exact ⟨hgoal, fun z hz => (hmark z).mpr (.inr hz)⟩
  have hoff' : y ∉ x :: stack := by
    intro hmem
    exact hoff (hkeep y ((mem_cons.mp hmem).resolve_left hyx))
  obtain ⟨hg, hs⟩ := h.closed y hym hoff'
  exact ⟨hg, fun z hz => (hmark z).mpr (.inl (hs z hz))⟩

private theorem SearchOk.search (h : SearchOk succ goal S gen start stack mark)
    (hsucc : ∀ x ∈ S, ∀ y ∈ succ x, y ∈ S) (hcap : S.card ≤ cap)
    (hfuel : (unmarked S mark gen).card + stack.length < fuel) :
    ∃ b mark', markedSearch succ goal cap gen fuel stack mark = some (b, mark') ∧
      (b = true ↔ ∃ y, ReflTransGen (fun a b => b ∈ succ a) start y ∧ goal y = true) ∧
      ∀ y, mark' y = gen ∨ mark' y = mark y := by
  induction fuel generalizing stack mark with
  | zero => omega
  | succ fuel ih =>
    cases stack with
    | nil =>
      -- the marked states contain the start and are closed, so they are all that can be reached
      have hall : ∀ y, ReflTransGen (fun a b => b ∈ succ a) start y → mark y = gen := by
        intro y hy
        induction hy with
        | refl => exact h.startMarked
        | tail _ hstep ih => exact (h.closed _ ih not_mem_nil).2 _ hstep
      refine ⟨false, mark, rfl, iff_of_false (by decide) ?_, fun _ => .inr rfl⟩
      rintro ⟨y, hy, hg⟩
      rw [(h.closed y (hall y hy) not_mem_nil).1] at hg
      cases hg
    | cons x stack =>
      cases hgoal : goal x with
      | true =>
        refine ⟨true, mark, ?_, iff_of_true rfl ⟨x, ?_, hgoal⟩, fun _ => .inr rfl⟩
        · rw [markedSearch, if_pos hgoal]
        · exact (h.reached x (h.stackOk.marked x mem_cons_self)).1
      | false =>
        obtain ⟨r, hr, hok, hcard, hold⟩ := h.step hsucc hcap hgoal
        rw [length_cons] at hfuel
        obtain ⟨b, mark', hb, hiff, hold'⟩ := ih hok (by omega)
        refine ⟨b, mark', ?_, hiff, ?_⟩
        · simp only [markedSearch, hgoal, hr, Option.bind_some]
          exact hb
        intro y
        rcases hold' y with hy | hy
        · exact .inl hy
        · rw [hy]
          exact hold y

/-- The search ends, with its stack within the capacity, and finds a goal if and only if one can be
reached, provided that no state has the mark before. -/
theorem markedSearch_spec (goal : α → Bool) (hstart : start ∈ S)
    (hsucc : ∀ x ∈ S, ∀ y ∈ succ x, y ∈ S) (hcap : S.card ≤ cap)
    (hfuel : S.card < fuel) (hfresh : ∀ y, mark y ≠ gen) :
    ∃ b mark', markedSearch succ goal cap gen fuel [start] (update mark start gen) =
        some (b, mark') ∧
      (b = true ↔ ∃ y, ReflTransGen (fun a b => b ∈ succ a) start y ∧ goal y = true) ∧
      ∀ y, mark' y = gen ∨ mark' y = mark y := by
  have hempty : StackOk S gen [] mark := ⟨nodup_nil, nofun, nofun⟩
  have hmarked : ∀ y, update mark start gen y = gen → y = start := by
    intro y hy
    by_contra hne
    rw [update_of_ne hne] at hy
    exact hfresh y hy
  have hok : SearchOk succ goal S gen start [start] (update mark start gen) := by
    refine ⟨hempty.push hstart (hfresh start), update_self _ _ _, ?_, ?_⟩
    · intro y hy
      rw [hmarked y hy]
      exact ⟨.refl, hstart⟩
    · intro y hy hoff
      exact absurd (mem_singleton.mpr (hmarked y hy)) hoff
  have hcard := unmarked_update hstart (hfresh start)
  have hle : (unmarked S mark gen).card ≤ S.card := Finset.card_le_card (Finset.filter_subset _ _)
  have hleft : (unmarked S (update mark start gen) gen).card + [start].length < fuel := by
    rw [length_singleton]
    omega
  obtain ⟨b, mark', hb, hiff, hold⟩ := hok.search hsucc hcap hleft
  refine ⟨b, mark', hb, hiff, fun y => ?_⟩
  rcases hold y with hy | hy
  · exact .inl hy
  by_cases hys : y = start
  · rw [hys, update_self] at hy
    rw [hys]
    exact .inl hy
  · rw [update_of_ne hys] at hy
    exact .inr hy

end Charmos
