import Charmos.Lib.DoublyLinked
import Charmos.Mem.Buddy.Page

/-!
# The free lists of the buddy allocator

One `struct buddy_free_area` per order heads an intrusive doubly linked list of free blocks.
The forward link lives in the page word and the back link in the free page. This file models
the three surgeries the allocator performs (`buddy_fa_push_tail`, `buddy_fa_pop_head`,
`buddy_fa_remove`) and shows that they act on the list of blocks as snoc, `tail` and removal,
touching nothing but the links of the blocks on the list and of the block itself.
-/

namespace Charmos.Mem

open DoublyLinked Function List

/-- `struct buddy_free_area`. -/
structure BuddyFreeArea where
  head : Option ℕ
  tail : Option ℕ
  nrFree : ℕ
  deriving DecidableEq, Repr

/-- `buddy_fa_push_tail`. -/
def buddyFaPushTail (m : PageMem) (area : BuddyFreeArea) (page : ℕ) : PageMem × BuddyFreeArea :=
  let m := buddyPageSetNext m page none
  let m := buddyPageSetPrev m page area.tail
  match area.tail with
  | some oldTail =>
    (buddyPageSetNext m oldTail (some page), ⟨area.head, some page, area.nrFree + 1⟩)
  | none => (m, ⟨some page, some page, area.nrFree + 1⟩)

/-- `buddy_fa_pop_head`; the first component is the block taken, if any. -/
def buddyFaPopHead (m : PageMem) (area : BuddyFreeArea) :
    Option ℕ × PageMem × BuddyFreeArea :=
  match area.head with
  | none => (none, m, area)
  | some page =>
    match buddyPageGetNext m page with
    | some next =>
      (some page, buddyPageSetNext (buddyPageSetPrev m next none) page none,
        ⟨some next, area.tail, area.nrFree - 1⟩)
    | none => (some page, buddyPageSetNext m page none, ⟨none, none, area.nrFree - 1⟩)

/-- The memory half of `buddy_fa_remove`: the neighbours are joined, then the links of the
removed block are cleared. -/
def buddyFaUnlink (m : PageMem) (prev next : Option ℕ) (page : ℕ) : PageMem :=
  let m := match prev with
    | some p => buddyPageSetNext m p next
    | none => m
  let m := match next with
    | some n => buddyPageSetPrev m n prev
    | none => m
  buddyPageSetPrev (buddyPageSetNext m page none) page none

/-- `buddy_fa_remove`. -/
def buddyFaRemove (m : PageMem) (area : BuddyFreeArea) (page : ℕ) : PageMem × BuddyFreeArea :=
  let prev := buddyPageGetPrev m page
  let next := buddyPageGetNext m page
  (buddyFaUnlink m prev next page,
    ⟨if prev.isSome then area.head else next, if next.isSome then area.tail else prev,
      area.nrFree - 1⟩)

/-! ### Links as functions of the memory -/

/-- A link the page word can hold: the null link, or a frame of the page array. -/
def ValidLink (m : PageMem) (link : Option ℕ) : Prop := ∀ p ∈ link, 0 < p ∧ p < m.lastPfn

theorem buddyPageGetNext_congr {m m' : PageMem} {q : ℕ} (hlast : m'.lastPfn = m.lastPfn)
    (hnext : m'.get q .nextPfn = m.get q .nextPfn) :
    buddyPageGetNext m' q = buddyPageGetNext m q := by
  rw [buddyPageGetNext, buddyPageGetNext, buddyPageGetNextPfn, buddyPageGetNextPfn, pageForPfn,
    pageForPfn, hlast, hnext]

theorem buddyPageGetNext_setNext {m : PageMem} (hm : m.lastPfn ≤ 2 ^ 52) {link : Option ℕ}
    (hl : ValidLink m link) (p : ℕ) :
    buddyPageGetNext (buddyPageSetNext m p link) =
      update (buddyPageGetNext m) p link := by
  funext q
  by_cases hq : q = p
  · subst hq
    rw [update_self]
    cases link with
    | none =>
      simp [buddyPageGetNext, buddyPageSetNext, buddyPageGetNextPfn, buddyPageSetNextPfn]
    | some n =>
      obtain ⟨h0, h1⟩ := hl n rfl
      have hmod : n % 2 ^ 52 = n := Nat.mod_eq_of_lt (by omega)
      have hn : n ≠ 0 := by omega
      simp only [buddyPageGetNext, buddyPageSetNext, buddyPageGetNextPfn, buddyPageSetNextPfn,
        PageMem.get_set, and_self, ↓reduceIte, MetaField.bits, hmod, hn, pageForPfn,
        PageMem.lastPfn_set]
      rw [if_neg (by omega)]
  · rw [update_of_ne hq]
    cases link <;>
      exact buddyPageGetNext_congr rfl (by simp [buddyPageSetNext, buddyPageSetNextPfn, hq])

@[simp] theorem buddyPageGetNext_setPrev (m : PageMem) (p : ℕ) (link : Option ℕ) :
    buddyPageGetNext (buddyPageSetPrev m p link) = buddyPageGetNext m := rfl

@[simp] theorem buddyPageGetPrev_setPrev (m : PageMem) (p : ℕ) (link : Option ℕ) :
    buddyPageGetPrev (buddyPageSetPrev m p link) =
      update (buddyPageGetPrev m) p link := rfl

@[simp] theorem buddyPageGetPrev_setNext (m : PageMem) (p : ℕ) (link : Option ℕ) :
    buddyPageGetPrev (buddyPageSetNext m p link) = buddyPageGetPrev m := by
  cases link <;> rfl

@[simp] theorem lastPfn_setNext (m : PageMem) (p : ℕ) (link : Option ℕ) :
    (buddyPageSetNext m p link).lastPfn = m.lastPfn := by
  cases link <;> rfl

@[simp] theorem lastPfn_buddyPageSetPrev (m : PageMem) (p : ℕ) (link : Option ℕ) :
    (buddyPageSetPrev m p link).lastPfn = m.lastPfn := rfl

/-! ### Frames -/

/-- Only the words and back links of the frames in `S` may have changed. -/
structure Touches (m m' : PageMem) (S : Set ℕ) : Prop where
  lastPfn : m'.lastPfn = m.lastPfn
  word : ∀ q ∉ S, m'.word q = m.word q
  freeLink : ∀ q ∉ S, m'.freeLink q = m.freeLink q

/-- Only links changed, and only those of the frames in `S`. -/
structure Relinks (m m' : PageMem) (S : Set ℕ) : Prop extends Touches m m' S where
  field : ∀ q f, f ≠ MetaField.nextPfn → m'.get q f = m.get q f

namespace Touches

variable {m m' m'' : PageMem} {S T : Set ℕ} {q : ℕ}

theorem refl (m : PageMem) (S : Set ℕ) : Touches m m S := ⟨rfl, fun _ _ => rfl, fun _ _ => rfl⟩

theorem trans (h : Touches m m' S) (h' : Touches m' m'' S) : Touches m m'' S :=
  ⟨h'.lastPfn.trans h.lastPfn, fun q hq => (h'.word q hq).trans (h.word q hq),
    fun q hq => (h'.freeLink q hq).trans (h.freeLink q hq)⟩

theorem mono (h : Touches m m' S) (hST : S ⊆ T) : Touches m m' T :=
  ⟨h.lastPfn, fun q hq => h.word q (fun hs => hq (hST hs)),
    fun q hq => h.freeLink q (fun hs => hq (hST hs))⟩

theorem set (m : PageMem) {p : ℕ} (hp : p ∈ S) (f : MetaField) (v : ℕ) :
    Touches m (m.set p f v) S := by
  refine ⟨rfl, fun q hq => ?_, fun _ _ => rfl⟩
  have hqp : q ≠ p := fun h => hq (h ▸ hp)
  exact PageMem.word_set_of_ne m hqp f v

theorem get_eq (h : Touches m m' S) (hq : q ∉ S) (f : MetaField) : m'.get q f = m.get q f := by
  rw [PageMem.get, PageMem.get, h.word q hq]

theorem getNext_eq (h : Touches m m' S) (hq : q ∉ S) :
    buddyPageGetNext m' q = buddyPageGetNext m q :=
  buddyPageGetNext_congr h.lastPfn (h.get_eq hq _)

end Touches

namespace Relinks

variable {m m' m'' : PageMem} {S T : Set ℕ} {p : ℕ}

theorem refl (m : PageMem) (S : Set ℕ) : Relinks m m S := ⟨Touches.refl m S, fun _ _ _ => rfl⟩

theorem trans (h : Relinks m m' S) (h' : Relinks m' m'' S) : Relinks m m'' S :=
  ⟨h.toTouches.trans h'.toTouches, fun q f hf => (h'.field q f hf).trans (h.field q f hf)⟩

theorem setNext (m : PageMem) (hp : p ∈ S) (link : Option ℕ) :
    Relinks m (buddyPageSetNext m p link) S := by
  cases link <;>
    exact ⟨Touches.set m hp _ _, fun q f hf => by
      simp [buddyPageSetNext, buddyPageSetNextPfn, hf]⟩

theorem setPrev (m : PageMem) (hp : p ∈ S) (link : Option ℕ) :
    Relinks m (buddyPageSetPrev m p link) S := by
  refine ⟨⟨rfl, fun _ _ => rfl, fun q hq => ?_⟩, fun _ _ _ => rfl⟩
  have hqp : q ≠ p := fun h => hq (h ▸ hp)
  exact update_of_ne hqp _ _

end Relinks

/-! ### Represented lists -/

/-- The free list headed by `area` holds exactly the blocks of `l`, in order. -/
structure FreeList (m : PageMem) (area : BuddyFreeArea) (l : List ℕ) : Prop where
  dlist : DList (buddyPageGetNext m) (buddyPageGetPrev m) area.head area.tail l
  nrFree : area.nrFree = l.length
  valid : ∀ p ∈ l, 0 < p ∧ p < m.lastPfn

namespace FreeList

variable {m m' : PageMem} {area : BuddyFreeArea} {l : List ℕ} {S : Set ℕ} {p : ℕ}

/-- A list none of whose blocks is touched is unchanged. -/
theorem touches (h : FreeList m area l) (hr : Touches m m' S) (hl : ∀ p ∈ l, p ∉ S) :
    FreeList m' area l where
  dlist := h.dlist.congr (fun p hp => hr.getNext_eq (hl p hp)) fun p hp => hr.freeLink p (hl p hp)
  nrFree := h.nrFree
  valid p hp := by
    rw [hr.lastPfn]
    exact h.valid p hp

theorem validLink (h : FreeList m area l) {link : Option ℕ} (hl : ∀ p ∈ link, p ∈ l) :
    ValidLink m link := fun p hp => h.valid p (hl p hp)

theorem nrFree_eq_zero_iff (h : FreeList m area l) : area.nrFree = 0 ↔ l = [] := by
  rw [h.nrFree, length_eq_zero_iff]

/-- `buddy_fa_push_tail` appends the block. -/
theorem pushTail (h : FreeList m area l) (hm : m.lastPfn ≤ 2 ^ 52) (hp : p ∉ l) (h0 : 0 < p)
    (h1 : p < m.lastPfn) :
    FreeList (buddyFaPushTail m area p).1 (buddyFaPushTail m area p).2 (l ++ [p]) := by
  have hd := h.dlist.pushBack hp
  have hnone : ValidLink m none := fun _ hq => by cases hq
  have hvalid : ∀ q ∈ l ++ [p], 0 < q ∧ q < m.lastPfn := by
    simp only [mem_append, mem_singleton]
    rintro q (hq | rfl)
    · exact h.valid q hq
    · exact ⟨h0, h1⟩
  cases ht : area.tail with
  | none =>
    have hl : l = [] := by
      have := h.dlist.tail_eq
      rw [ht] at this
      exact getLast?_eq_none_iff.mp this.symm
    have hhead : area.head = none := (h.dlist.eq_nil_iff).mpr hl
    rw [ht, hhead] at hd
    simp only [buddyFaPushTail, ht]
    refine ⟨?_, by simp [h.nrFree], hvalid⟩
    rw [buddyPageGetNext_setPrev, buddyPageGetPrev_setPrev, buddyPageGetPrev_setNext,
      buddyPageGetNext_setNext hm hnone]
    exact hd
  | some t =>
    have hhead : area.head ≠ none := by
      intro hnone
      have hnil := (h.dlist.eq_nil_iff).mp hnone
      have := h.dlist.tail_eq
      simp [ht, hnil] at this
    obtain ⟨hd0, hd1⟩ := Option.ne_none_iff_exists'.mp hhead
    have hlink : ValidLink (buddyPageSetPrev (buddyPageSetNext m p none) p (some t)) (some p) := by
      intro q hq
      cases hq
      exact ⟨h0, h1⟩
    rw [ht, hd1] at hd
    simp only [buddyFaPushTail, ht, hd1]
    refine ⟨?_, by simp [h.nrFree], ?_⟩
    · rw [buddyPageGetNext_setNext (by exact hm) hlink, buddyPageGetPrev_setNext,
        buddyPageGetNext_setPrev, buddyPageGetPrev_setPrev, buddyPageGetPrev_setNext,
        buddyPageGetNext_setNext hm hnone]
      exact hd
    · simpa using hvalid

/-- `buddy_fa_remove` removes a block of the list. -/
theorem remove {a b : List ℕ} (h : FreeList m area (a ++ p :: b)) (hm : m.lastPfn ≤ 2 ^ 52) :
    FreeList (buddyFaRemove m area p).1 (buddyFaRemove m area p).2 (a ++ b) := by
  obtain ⟨hprev, hnext⟩ := h.dlist.links
  have hd := h.dlist.unlink
  have hnd := h.dlist.nodup
  have hvb : ValidLink m b.head? := h.validLink fun q hq => by
    simp [mem_of_head? hq]
  have hnone : ValidLink m none := fun _ hq => by cases hq
  have hpab : ∀ q ∈ a ++ b, q ≠ p := by
    rw [nodup_append] at hnd
    obtain ⟨-, hpb, hdis⟩ := hnd
    intro q hq hqp
    rcases mem_append.mp hq with hq | hq
    · exact hdis q hq p (by simp) hqp
    · exact (nodup_cons.mp hpb).1 (hqp ▸ hq)
  -- The links of the joined neighbours, before those of the removed block are cleared.
  have hgetNext : ∀ q ∈ a ++ b, buddyPageGetNext (buddyFaUnlink m a.getLast? b.head? p) q =
      storeAt (buddyPageGetNext m) a.getLast? b.head? q := by
    intro q hq
    have hqp := hpab q hq
    simp only [buddyFaUnlink, buddyPageGetNext_setPrev]
    rw [buddyPageGetNext_setNext (m := match b.head? with
        | some n => _ | none => _) (by cases a.getLast? <;> cases b.head? <;> simpa using hm)
        (fun _ hq => by cases hq), update_of_ne hqp]
    cases ha : a.getLast? <;> cases hb : b.head? <;>
      simp only [buddyPageGetNext_setPrev, storeAt_none, storeAt_some]
    all_goals rw [buddyPageGetNext_setNext hm (by first | exact hnone | exact hb ▸ hvb)]
  have hgetPrev : ∀ q ∈ a ++ b, buddyPageGetPrev (buddyFaUnlink m a.getLast? b.head? p) q =
      storeAt (buddyPageGetPrev m) b.head? a.getLast? q := by
    intro q hq
    have hqp := hpab q hq
    simp only [buddyFaUnlink, buddyPageGetPrev_setPrev, buddyPageGetPrev_setNext, update_of_ne hqp]
    cases ha : a.getLast? <;> cases hb : b.head? <;> simp
  have hlast : (buddyFaRemove m area p).1.lastPfn = m.lastPfn := by
    simp only [buddyFaRemove, buddyFaUnlink, hprev, hnext, lastPfn_buddyPageSetPrev,
      lastPfn_setNext]
    cases a.getLast? <;> cases b.head? <;> simp
  refine ⟨?_, ?_, fun q hq => ?_⟩
  · have hh : (if a = [] then b.head? else area.head) = (buddyFaRemove m area p).2.head := by
      simp only [buddyFaRemove, hprev, hnext]
      rcases eq_nil_or_concat a with rfl | ⟨a, x, rfl⟩ <;> simp
    have ht : (if b = [] then a.getLast? else area.tail) = (buddyFaRemove m area p).2.tail := by
      simp only [buddyFaRemove, hprev, hnext]
      cases b <;> simp
    rw [hh, ht] at hd
    refine hd.congr (fun q hq => ?_) fun q hq => ?_
    · simp only [buddyFaRemove, hprev, hnext]
      exact hgetNext q hq
    · simp only [buddyFaRemove, hprev, hnext]
      exact hgetPrev q hq
  · simp [buddyFaRemove, h.nrFree]
  · rw [hlast]
    exact h.valid q (by
      rcases mem_append.mp hq with hq | hq <;> simp [hq])

/-- `buddy_fa_pop_head` takes the first block. -/
theorem popHead (h : FreeList m area (p :: l)) (hm : m.lastPfn ≤ 2 ^ 52) :
    (buddyFaPopHead m area).1 = some p ∧
      FreeList (buddyFaPopHead m area).2.1 (buddyFaPopHead m area).2.2 l := by
  have hhead : area.head = some p := h.dlist.head_eq
  have hnext : buddyPageGetNext m p = l.head? := (h.dlist.links (a := [])).2
  have hd := h.dlist.popFront
  have hnone : ValidLink m none := fun _ hq => by cases hq
  have hpl : ∀ q ∈ l, q ≠ p := fun q hq hqp => (nodup_cons.mp h.dlist.nodup).1 (hqp ▸ hq)
  cases l with
  | nil =>
    simp only [buddyFaPopHead, hhead, hnext, head?_nil]
    exact ⟨trivial, DList.nil, by simp [h.nrFree], by simp⟩
  | cons n l =>
    simp only [buddyFaPopHead, hhead, hnext, head?_cons]
    refine ⟨trivial, ?_, by simp [h.nrFree], fun q hq => ?_⟩
    · refine hd.congr (fun q hq => ?_) fun q _ => ?_
      · have hm' : (buddyPageSetPrev m n none).lastPfn ≤ 2 ^ 52 := hm
        rw [buddyPageGetNext_setNext hm' (by exact hnone), update_of_ne (hpl q hq),
          buddyPageGetNext_setPrev]
      · simp
    · simpa using h.valid q (mem_cons_of_mem _ hq)

end FreeList

/-! ### What the surgeries leave alone -/

section Frames

variable {m : PageMem} {area : BuddyFreeArea} {l : List ℕ} {p : ℕ}

theorem buddyFaPushTail_relinks (h : FreeList m area l) (p : ℕ) :
    Relinks m (buddyFaPushTail m area p).1 {q | q = p ∨ q ∈ l} := by
  have hp : p ∈ {q | q = p ∨ q ∈ l} := .inl rfl
  have h1 : Relinks m (buddyPageSetPrev (buddyPageSetNext m p none) p area.tail)
      {q | q = p ∨ q ∈ l} := (Relinks.setNext m hp none).trans (Relinks.setPrev _ hp _)
  cases ht : area.tail with
  | none =>
    simp only [buddyFaPushTail, ht]
    rwa [ht] at h1
  | some t =>
    simp only [buddyFaPushTail, ht]
    rw [ht] at h1
    refine h1.trans (Relinks.setNext _ (Or.inr ?_) _)
    exact mem_of_getLast? (h.dlist.tail_eq ▸ ht)

theorem buddyFaRemove_relinks {a b : List ℕ} (h : FreeList m area (a ++ p :: b)) :
    Relinks m (buddyFaRemove m area p).1 {q | q ∈ a ++ p :: b} := by
  obtain ⟨hprev, hnext⟩ := h.dlist.links
  have hp : p ∈ {q | q ∈ a ++ p :: b} := by simp
  simp only [buddyFaRemove, hprev, hnext, buddyFaUnlink]
  refine Relinks.trans ?_ ((Relinks.setNext _ hp _).trans (Relinks.setPrev _ hp _))
  have h1 : Relinks m (match a.getLast? with
      | some q => buddyPageSetNext m q b.head? | none => m) {q | q ∈ a ++ p :: b} := by
    cases ha : a.getLast? with
    | none => exact Relinks.refl _ _
    | some q => exact Relinks.setNext m (by simp [mem_of_getLast? ha]) _
  refine h1.trans ?_
  cases hb : b.head? with
  | none => exact Relinks.refl _ _
  | some q => exact Relinks.setPrev _ (by simp [mem_of_head? hb]) _

theorem buddyFaPopHead_relinks (h : FreeList m area (p :: l)) :
    Relinks m (buddyFaPopHead m area).2.1 {q | q ∈ p :: l} := by
  have hhead : area.head = some p := h.dlist.head_eq
  have hnext : buddyPageGetNext m p = l.head? := (h.dlist.links (a := [])).2
  have hp : p ∈ {q | q ∈ p :: l} := by simp
  cases l with
  | nil =>
    simp only [buddyFaPopHead, hhead, hnext, head?_nil]
    exact Relinks.setNext m hp none
  | cons n l =>
    simp only [buddyFaPopHead, hhead, hnext, head?_cons]
    exact (Relinks.setPrev m (by simp) none).trans (Relinks.setNext _ hp none)

end Frames

end Charmos.Mem
