import Mathlib.Data.List.Nodup
import Mathlib.Logic.Function.Basic

/-!
# Doubly linked lists in a heap of links

The links of all nodes are two functions `next prev : α → Option α`, `none` being the null
pointer. `Segment next prev p l n` says that the nodes of `l` are chained in order, that the
first points back to `p` and the last forward to `n`; segments split and join along list
concatenation (`segment_append`). A list with its head and tail pointers is a `DList`, and the
link surgeries (`pushBack`, `popFront`, `unlink`) act on the represented list as snoc, `tail` and
removal.
-/

namespace Charmos.DoublyLinked

open Function List

variable {α β : Type*} [DecidableEq α]

/-- Store `v` at the node `k`, doing nothing for the null pointer. -/
def storeAt (f : α → β) (k : Option α) (v : β) : α → β :=
  match k with
  | none => f
  | some x => Function.update f x v

@[simp] theorem storeAt_none (f : α → β) (v : β) : storeAt f none v = f := rfl

@[simp] theorem storeAt_some (f : α → β) (x : α) (v : β) :
    storeAt f (some x) v = update f x v := rfl

theorem storeAt_of_ne (f : α → β) {k : Option α} (v : β) {x : α} (h : k ≠ some x) :
    storeAt f k v x = f x := by
  cases k with
  | none => rfl
  | some y => exact update_of_ne (fun hxy => h (by rw [hxy])) _ _

/-- The nodes of `l` chained in order, entered from `p` and left towards `n`. -/
def Segment (next prev : α → Option α) : Option α → List α → Option α → Prop
  | _, [], _ => True
  | p, x :: xs, n => prev x = p ∧ next x = xs.head?.or n ∧ Segment next prev (some x) xs n

variable {next prev next' prev' : α → Option α} {p n head tail : Option α} {l : List α}

section

omit [DecidableEq α]

theorem segment_append (a b : List α) :
    Segment next prev p (a ++ b) n ↔
      Segment next prev p a (b.head?.or n) ∧ Segment next prev (a.getLast?.or p) b n := by
  induction a generalizing p with
  | nil => simp [Segment]
  | cons x a ih =>
    have hhead : (a ++ b).head?.or n = a.head?.or (b.head?.or n) := by
      rw [head?_append, Option.or_assoc]
    have hlast : (x :: a).getLast?.or p = a.getLast?.or (some x) := by
      rw [getLast?_cons]
      cases a.getLast? <;> rfl
    simp only [cons_append, Segment, ih, hhead, hlast, and_assoc]

/-- Only the links of the nodes of a segment matter. -/
theorem Segment.congr (h : Segment next prev p l n)
    (hn : ∀ x ∈ l, next' x = next x) (hp : ∀ x ∈ l, prev' x = prev x) :
    Segment next' prev' p l n := by
  induction l generalizing p with
  | nil => trivial
  | cons x l ih =>
    obtain ⟨h1, h2, h3⟩ := h
    refine ⟨by rw [hp x (by simp), h1], by rw [hn x (by simp), h2], ih h3 ?_ ?_⟩
    · exact fun y hy => hn y (mem_cons_of_mem _ hy)
    · exact fun y hy => hp y (mem_cons_of_mem _ hy)

end

/-- Redirecting the forward link of the last node changes the exit of the segment. -/
theorem Segment.redirect (h : Segment next prev p l n) (hl : l.Nodup) (n' : Option α) :
    Segment (storeAt next l.getLast? n') prev p l n' := by
  rcases eq_nil_or_concat l with rfl | ⟨a, x, rfl⟩
  · trivial
  rw [concat_eq_append] at h hl ⊢
  rw [segment_append] at h
  have hx : x ∉ a := fun hx => (disjoint_of_nodup_append hl) hx (by simp)
  rw [getLast?_concat, storeAt_some, segment_append]
  refine ⟨h.1.congr (fun y hy => ?_) fun _ _ => rfl, h.2.1, ?_, trivial⟩
  · have hyx : y ≠ x := fun hyx => hx (hyx ▸ hy)
    exact update_of_ne hyx _ _
  · simp

/-- Redirecting the backward link of the first node changes the entry of the segment. -/
theorem Segment.reenter (h : Segment next prev p l n) (hl : l.Nodup) (p' : Option α) :
    Segment next (storeAt prev l.head? p') p' l n := by
  cases l with
  | nil => trivial
  | cons x l =>
    obtain ⟨-, h2, h3⟩ := h
    refine ⟨by simp, h2, h3.congr (fun _ _ => rfl) fun y hy => ?_⟩
    have hyx : y ≠ x := fun hyx => (nodup_cons.mp hl).1 (hyx ▸ hy)
    exact update_of_ne hyx _ _

/-- A doubly linked list: head and tail pointers and the chain between them. -/
structure DList (next prev : α → Option α) (head tail : Option α) (l : List α) : Prop where
  head_eq : head = l.head?
  tail_eq : tail = l.getLast?
  segment : Segment next prev none l none
  nodup : l.Nodup

namespace DList

section

omit [DecidableEq α]

theorem congr (h : DList next prev head tail l)
    (hn : ∀ x ∈ l, next' x = next x) (hp : ∀ x ∈ l, prev' x = prev x) :
    DList next' prev' head tail l :=
  ⟨h.head_eq, h.tail_eq, h.segment.congr hn hp, h.nodup⟩

theorem nil : DList next prev none none ([] : List α) := ⟨rfl, rfl, trivial, nodup_nil⟩

theorem eq_nil_iff (h : DList next prev head tail l) : head = none ↔ l = [] := by
  rw [h.head_eq, head?_eq_none_iff]

end

variable {x : α}

omit [DecidableEq α] in
/-- The neighbours of a node in the list are what its links hold. -/
theorem links {a b : List α} (h : DList next prev head tail (a ++ x :: b)) :
    prev x = a.getLast? ∧ next x = b.head? := by
  obtain ⟨-, h1, h2, -⟩ := (segment_append a (x :: b)).mp h.segment
  simpa using And.intro h1 h2

/-- Linking a fresh node behind the tail. -/
theorem pushBack (h : DList next prev head tail l) (hx : x ∉ l) :
    DList (storeAt (update next x none) tail (some x))
      (update prev x tail) (head.or (some x)) (some x) (l ++ [x]) := by
  have hne : ∀ y ∈ l, y ≠ x := fun y hy hyx => hx (hyx ▸ hy)
  have hseg : Segment (update next x none) (update prev x tail) none l none :=
    h.segment.congr (fun y hy => update_of_ne (hne y hy) _ _)
      fun y hy => update_of_ne (hne y hy) _ _
  have htail : tail ≠ some x := by
    rw [h.tail_eq]
    exact fun hl => hx (mem_of_getLast? hl)
  refine ⟨by rw [h.head_eq, head?_append]; rfl, by simp, ?_, ?_⟩
  · rw [segment_append]
    refine ⟨?_, ?_, ?_, trivial⟩
    · rw [h.tail_eq]
      simpa using (hseg.redirect h.nodup (some x)).congr (fun _ _ => rfl)
        fun y _ => by rw [← h.tail_eq]
    · simp [h.tail_eq]
    · rw [storeAt_of_ne _ _ htail]
      simp
  · exact nodup_append.mpr ⟨h.nodup, by simp, by simpa using fun y hy => hne y hy⟩

/-- Unlinking a node that the list holds anywhere. -/
theorem unlink {a b : List α} (h : DList next prev head tail (a ++ x :: b)) :
    DList (storeAt next a.getLast? b.head?) (storeAt prev b.head? a.getLast?)
      (if a = [] then b.head? else head) (if b = [] then a.getLast? else tail) (a ++ b) := by
  obtain ⟨ha, -, -, hb⟩ := (segment_append a (x :: b)).mp h.segment
  have hnd := h.nodup
  rw [nodup_append] at hnd
  obtain ⟨hnda, hndxb, hdis⟩ := hnd
  have hndb : b.Nodup := (nodup_cons.mp hndxb).2
  have hab : ∀ y ∈ a, ∀ z ∈ b, y ≠ z := fun y hy z hz =>
    hdis y hy z (mem_cons_of_mem _ hz)
  refine ⟨?_, ?_, ?_, ?_⟩
  · split_ifs with hnil
    · simp [hnil]
    rw [h.head_eq, head?_append, head?_append]
    cases a with
    | nil => exact absurd rfl hnil
    | cons y a => rfl
  · split_ifs with hnil
    · simp [hnil]
    rw [h.tail_eq, getLast?_append, getLast?_append, getLast?_cons]
    cases hl : b.getLast? with
    | none => exact absurd (getLast?_eq_none_iff.mp hl) hnil
    | some y => rfl
  · rw [segment_append]
    constructor
    · rw [Option.or_none]
      refine (ha.redirect hnda b.head?).congr (fun _ _ => rfl) fun y hy => storeAt_of_ne _ _ ?_
      exact fun hz => hab y hy y (mem_of_head? hz) rfl
    · rw [Option.or_none]
      refine (hb.reenter hndb a.getLast?).congr (fun y hy => storeAt_of_ne _ _ ?_) fun _ _ => rfl
      exact fun hz => hab y (mem_of_getLast? hz) y hy rfl
  · exact nodup_append.mpr ⟨hnda, hndb, hab⟩

/-- Unlinking the first node. -/
theorem popFront {b : List α} (h : DList next prev head tail (x :: b)) :
    DList next (storeAt prev b.head? none) b.head? (if b = [] then none else tail) b :=
  unlink (a := []) h

end DList

end Charmos.DoublyLinked
