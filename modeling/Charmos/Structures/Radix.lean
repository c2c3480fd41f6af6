import Mathlib

/-!
# The radix tree

`radix.c` keeps items in nodes of 64 slots. A key is read in digits of six bits, and a tree of
height `n + 1` reads the digits `n` to `0`. As long as the keys have no more digits than that, the
tree is a map: its operations return what the map says, a failed insertion leaves the tree as it
was, and no empty node remains (`radixRun_sound`). A longer key is confused with the one that has
its last digits (`radixRun_alias`).
-/

namespace Charmos.Radix

open BitVec Function Option Relation

/-- `struct radix_node`. The link to the parent is the way down to the node. -/
structure Node (X : Type) where
  presentMask : BitVec 64
  slots : Fin 64 → Option X

/-- What the slots of a node hold that is `n` levels above the last. -/
@[reducible] def Sub (V : Type) : ℕ → Type
  | 0 => V
  | n + 1 => Node (Sub V n)

/-- The root of a tree of height `n + 1`. -/
abbrev Tree (V : Type) (n : ℕ) := Option (Node (Sub V n))

/-- What `radix_insert` returns. -/
inductive InsertRet
  | ok
  | exist
  | noMem
  deriving DecidableEq

def radixIndex (key : BitVec 64) (level : ℕ) : Fin 64 :=
  ⟨((key >>> (level * 6)) &&& 63#64).toNat, by
    exact Nat.lt_of_le_of_lt Nat.and_le_right (by decide)⟩

namespace Node

variable {X : Type}

/-- A new node. -/
def zero : Node X := ⟨0#64, fun _ => none⟩

def set (node : Node X) (i : Fin 64) (x : X) : Node X :=
  ⟨node.presentMask ||| twoPow 64 i, update node.slots i (some x)⟩

def clear (node : Node X) (i : Fin 64) : Node X :=
  ⟨node.presentMask &&& ~~~twoPow 64 i, update node.slots i none⟩

/-- The node in a slot, or a new one, with the allocations that still succeed. -/
def enter (slot : Option (Node X)) (room : ℕ) : Option (Node X × ℕ) :=
  match slot, room with
  | some node, room => some (node, room)
  | none, 0 => none
  | none, room + 1 => some (zero, room)

/-- What becomes of a node when `radix_prune_up` has come to it, or has stopped below it. -/
def kept (r : Node X × Bool) : Option (Node X) :=
  if r.2 = true ∧ r.1.presentMask = 0#64 then none else some r.1

/-- A turn of `radix_prune_up`: the node below in the slot `i` is removed, or has changed. -/
def pruneUp (node : Node (Node X)) (i : Fin 64) (r : Node X × Bool) : Node (Node X) × Bool :=
  match kept r with
  | none => (node.clear i, true)
  | some child => ({ node with slots := update node.slots i (some child) }, false)

/-- The check of a node in `radix_verify_node`. -/
def verify (node : Node X) (check : Fin 64 → X → Bool) : Bool :=
  decide (∀ i : Fin 64, node.presentMask.getLsbD i = (node.slots i).isSome) &&
    (List.finRange 64).all fun i => (node.slots i).all (check i)

end Node

section Operations

variable {V : Type}

/-- The loop of `radix_insert` from a node on, for a key with these digits. The first `room`
allocations succeed. With the node it says whether `radix_prune_up` has come to it. -/
def insertFrom (index : ℕ → Fin 64) (item : V) :
    (n : ℕ) → ℕ → Node (Sub V n) → InsertRet × Node (Sub V n) × Bool
  | 0, _, node =>
    match node.slots (index 0) with
    | some _ => (.exist, node, false)
    | none => (.ok, node.set (index 0) item, false)
  | n + 1, room, node =>
    match Node.enter (node.slots (index (n + 1))) room with
    | none => (.noMem, node, true)
    | some (child, room) =>
      let r := insertFrom index item n room child
      let node := if (node.slots (index (n + 1))).isNone then node.set
        (index (n + 1)) child else node
      (r.1, node.pruneUp (index (n + 1)) r.2)

def lookupFrom (index : ℕ → Fin 64) : (n : ℕ) → Node (Sub V n) → Option V
  | 0, node => node.slots (index 0)
  | n + 1, node => (node.slots (index (n + 1))).bind (lookupFrom index n)

def deleteFrom (index : ℕ → Fin 64) : (n : ℕ) → Node (Sub V n) → Option V × Node (Sub V n) × Bool
  | 0, node =>
    match node.slots (index 0) with
    | none => (none, node, false)
    | some item => (some item, node.clear (index 0), true)
  | n + 1, node =>
    match node.slots (index (n + 1)) with
    | none => (none, node, false)
    | some child =>
      let r := deleteFrom index n child
      (r.1, node.pruneUp (index (n + 1)) r.2)

/-- The part of a key that a slot stands for. -/
def digit (i : Fin 64) (level : ℕ) : BitVec 64 := BitVec.ofNat 64 i <<< (level * 6)

/-- `radix_verify_node`, for the keys that begin with `pre`. -/
def verifyFrom (keyFn : V → BitVec 64) : (n : ℕ) → BitVec 64 → Node (Sub V n) → Bool
  | 0, pre, node => node.verify fun i item => decide (keyFn item = pre ||| digit i 0)
  | n + 1, pre, node =>
    node.verify fun i child => verifyFrom keyFn n (pre ||| digit i (n + 1)) child

variable {n : ℕ} (keyFn : V → BitVec 64)

def radixVerifyTree (t : Tree V n) : Bool := t.all (verifyFrom keyFn n 0#64)

/-- `radix_insert`; without a value it panics. -/
def radixInsert (t : Tree V n) (item : V) (room : ℕ) : Option (InsertRet × Tree V n) :=
  match Node.enter t room with
  | none => some (.noMem, t)
  | some (node, room) =>
    let r := insertFrom (radixIndex (keyFn item)) item n room node
    if r.1 = .noMem ∨ radixVerifyTree keyFn (Node.kept r.2) = true then some (r.1, Node.kept r.2)
    else none

def radixLookup (t : Tree V n) (key : BitVec 64) : Option V :=
  t.bind (lookupFrom (radixIndex key) n)

/-- `radix_delete`; without a value it panics. -/
def radixDelete (t : Tree V n) (key : BitVec 64) : Option (Option V × Tree V n) :=
  match t with
  | none => some (none, none)
  | some node =>
    let r := deleteFrom (radixIndex key) n node
    if r.1.isNone ∨ radixVerifyTree keyFn (Node.kept r.2) = true then some (r.1, Node.kept r.2)
    else none

end Operations

/-! ### Masks -/

section Masks

variable {X : Type} {node node' : Node X} {i : Fin 64}

/-- The mask is that of the slots. -/
def Node.Masked (node : Node X) : Prop :=
  ∀ i : Fin 64, node.presentMask.getLsbD i = (node.slots i).isSome

theorem Node.Masked.set (h : node.Masked) (i : Fin 64) (x : X) : (node.set i x).Masked := by
  intro j
  simp only [Node.set, getLsbD_or, getLsbD_twoPow, h j]
  by_cases hj : j = i <;> simp [hj, Fin.val_inj, Ne.symm]

theorem Node.Masked.mask_eq_zero (h : node.Masked) :
    node.presentMask = 0#64 ↔ ∀ i, node.slots i = none := by
  refine ⟨fun h0 i => ?_, fun hall => eq_of_getLsbD_eq fun j hj => ?_⟩
  · simpa [h0] using (h i).symm
  · simpa [hall] using h ⟨j, hj⟩

/-- A node is what its slots are. -/
theorem Node.Masked.ext (h : node.Masked) (h' : node'.Masked) (hslots : node'.slots = node.slots) :
    node' = node := by
  have hmask : node'.presentMask = node.presentMask :=
    eq_of_getLsbD_eq fun j hj => (h' ⟨j, hj⟩).trans (by rw [hslots, h ⟨j, hj⟩])
  cases node
  cases node'
  simp_all

theorem Node.Masked.clear (h : node.Masked) (i : Fin 64) : (node.clear i).Masked := by
  intro j
  simp only [Node.clear, getLsbD_and, getLsbD_not, getLsbD_twoPow, h j]
  by_cases hj : j = i <;> simp [hj, Fin.val_inj, Ne.symm]

/-- A turn of `radix_prune_up` at a node with one below: the slot then has what is kept, and the
loop goes on if the node is empty. -/
theorem Node.Masked.pruneUp {node : Node (Node X)} (h : node.Masked) (hi : node.slots i ≠ none)
    (r : Node X × Bool) : (node.pruneUp i r).1.slots = update node.slots i (kept r) ∧
      (node.pruneUp i r).1.Masked ∧
      ((node.pruneUp i r).1.presentMask = 0#64 → (node.pruneUp i r).2 = true) := by
  unfold Node.pruneUp
  cases kept r with
  | none => exact ⟨rfl, h.clear i, fun _ => rfl⟩
  | some child =>
    have hmask : Node.Masked ⟨node.presentMask, update node.slots i (some child)⟩ := by
      intro j
      rw [h j]
      by_cases hj : j = i
      · simpa [hj] using isSome_iff_ne_none.mpr hi
      · simp [hj]
    exact ⟨rfl, hmask, fun h0 => by simpa using hmask.mask_eq_zero.mp h0 i⟩

end Masks

/-! ### One operation -/

section Specs

variable {V : Type} {n room : ℕ} {p q : ℕ → Fin 64} {item : V} {keyFn : V → BitVec 64}
  {node : Node (Sub V n)}

/-- Every mask below the node is right, and no node below it is empty. -/
def Tidy : (n : ℕ) → Node (Sub V n) → Prop
  | 0, node => node.Masked
  | n + 1, node => node.Masked ∧ ∀ i c, node.slots i = some c → Tidy n c ∧ c.presentMask ≠ 0#64

/-- So it is with what a slot holds. -/
def SlotOk (slot : Tree V n) : Prop := ∀ c, slot = some c → Tidy n c ∧ c.presentMask ≠ 0#64

/-- The keys have the same last digits. -/
def SameLow (n : ℕ) (p q : ℕ → Fin 64) : Prop := ∀ j ≤ n, p j = q j

instance : Decidable (SameLow n p q) := inferInstanceAs (Decidable (∀ j ≤ n, p j = q j))

/-- The nodes that an insertion below the node has to allocate. -/
def missing (p : ℕ → Fin 64) : (n : ℕ) → Node (Sub V n) → ℕ
  | 0, _ => 0
  | n + 1, node => (node.slots (p (n + 1))).elim (n + 1) (missing p n)

/-- The key with these digits. -/
def low : ℕ → (ℕ → Fin 64) → BitVec 64
  | 0, p => digit (p 0) 0
  | n + 1, p => digit (p (n + 1)) (n + 1) ||| low n p

theorem Tidy.masked (h : Tidy n node) : node.Masked := by
  cases n with
  | zero => exact h
  | succ n => exact h.1

theorem Tidy.zero : Tidy n (Node.zero : Node (Sub V n)) := by
  cases n with
  | zero => exact fun _ => by simp [Node.zero]
  | succ n => exact ⟨fun _ => by simp [Node.zero], nofun⟩

theorem Tidy.lookup_of_mask (h : Tidy n node) (h0 : node.presentMask = 0#64) :
    lookupFrom p n node = none := by
  have hnone := h.masked.mask_eq_zero.mp h0
  cases n with
  | zero => exact hnone _
  | succ n => rw [lookupFrom, hnone, bind_none]

theorem SameLow.refl : SameLow n p p := fun _ _ => rfl

theorem sameLow_zero : SameLow 0 p q ↔ p 0 = q 0 := by simp [SameLow]

theorem sameLow_succ : SameLow (n + 1) p q ↔ p (n + 1) = q (n + 1) ∧ SameLow n p q := by
  refine ⟨fun h => ⟨h _ le_rfl, fun j hj => h j (by omega)⟩, fun h j hj => ?_⟩
  rcases Nat.le_succ_iff.mp hj with hj | rfl
  · exact h.2 j hj
  · exact h.1

theorem lookupFrom_congr (h : SameLow n p q) (node : Node (Sub V n)) :
    lookupFrom p n node = lookupFrom q n node := by
  induction n with
  | zero => rw [lookupFrom, lookupFrom, sameLow_zero.mp h]
  | succ n ih =>
    obtain ⟨htop, hlow⟩ := sameLow_succ.mp h
    rw [lookupFrom, lookupFrom, htop, funext (ih hlow)]

theorem low_congr (h : SameLow n p q) : low n p = low n q := by
  induction n with
  | zero => rw [low, low, sameLow_zero.mp h]
  | succ n ih =>
    obtain ⟨htop, hlow⟩ := sameLow_succ.mp h
    rw [low, low, htop, ih hlow]

/-- An insertion goes on at a node that stands for the slot, or fails. -/
theorem enter_cases (p : ℕ → Fin 64) (slot : Tree V n) (room : ℕ) (h : SlotOk slot) :
    Node.enter slot room = none ∧ slot = none ∧ room < slot.elim (n + 1) (missing p n) ∨
    ∃ node room', Node.enter slot room = some (node, room') ∧ Tidy n node ∧
      (∀ q, lookupFrom q n node = slot.bind (lookupFrom q n)) ∧
      (room' < missing p n node ↔ room < slot.elim (n + 1) (missing p n)) ∧
      ∀ b, (node.presentMask = 0#64 → b = true) → Node.kept (node, b) = slot := by
  cases slot with
  | some node =>
    obtain ⟨htidy, hne⟩ := h node rfl
    exact .inr ⟨node, room, rfl, htidy, fun _ => rfl, Iff.rfl, fun b _ => by simp [Node.kept, hne]⟩
  | none =>
    cases room with
    | zero => exact .inl ⟨rfl, rfl, Nat.succ_pos n⟩
    | succ room =>
      refine .inr ⟨_, room, rfl, Tidy.zero, fun q => Tidy.zero.lookup_of_mask rfl, ?_,
        fun b hb => ?_⟩
      · cases n <;> simp [missing, Node.zero]
      · rw [hb rfl]
        rfl

/-- The slot on the way of the key is replaced. -/
theorem Tidy.update {node node' : Node (Sub V (n + 1))} (h : Tidy (n + 1) node) {slot : Tree V n}
    (hslots : node'.slots = update node.slots (p (n + 1)) slot) (hmask : node'.Masked)
    (hslot : SlotOk slot) {f : Option V} (hlook : ∀ q, slot.bind (lookupFrom q n) =
      if SameLow n q p then f else (node.slots (p (n + 1))).bind (lookupFrom q n)) :
    Tidy (n + 1) node' ∧ ∀ q, lookupFrom q (n + 1) node' =
      if SameLow (n + 1) q p then f else lookupFrom q (n + 1) node := by
  refine ⟨⟨hmask, fun j c hj => ?_⟩, fun q => ?_⟩
  · rw [hslots] at hj
    by_cases hji : j = p (n + 1)
    · subst hji
      exact hslot c (by simpa using hj)
    · exact h.2 j c (by simpa [hji] using hj)
  · simp only [lookupFrom, hslots, sameLow_succ]
    by_cases hq : q (n + 1) = p (n + 1)
    · rw [hq, update_self, hlook]
      simp
    · simp [hq]

/-- What `radix_prune_up` keeps is in order and has the same items. -/
theorem Tidy.kept (h : Tidy n node) {b : Bool} (hb : node.presentMask = 0#64 → b = true) :
    SlotOk (Node.kept (node, b)) ∧
      ∀ q, (Node.kept (node, b)).bind (lookupFrom q n) = lookupFrom q n node := by
  by_cases h0 : node.presentMask = 0#64
  · have hkept : Node.kept (node, b) = none := by simp [Node.kept, h0, hb h0]
    rw [hkept]
    exact ⟨nofun, fun q => (h.lookup_of_mask h0).symm⟩
  · have hkept : Node.kept (node, b) = some node := by simp [Node.kept, h0]
    rw [hkept]
    refine ⟨fun c hc => ?_, fun _ => rfl⟩
    obtain ⟨⟩ := hc
    exact ⟨h, h0⟩

/-- What an insertion returns and does, for `few` allocations or enough, with the items `f` before
and `f'` after it; it may leave all as it was. -/
def Inserted (n : ℕ) (p : ℕ → Fin 64) (item : V) (few same : Prop)
    (f f' : (ℕ → Fin 64) → Option V) : InsertRet → Prop
  | .noMem => few ∧ f p = none ∧ same
  | .exist => ¬ few ∧ f p ≠ none ∧ same
  | .ok => ¬ few ∧ f p = none ∧ ∀ q, f' q = if SameLow n q p then some item else f q

theorem insertFrom_spec (p : ℕ → Fin 64) (item : V) (room : ℕ) (h : Tidy n node) :
    ∃ ret node' b, insertFrom p item n room node = (ret, node', b) ∧ Tidy n node' ∧
      (node'.presentMask = 0#64 → b = true) ∧ Inserted n p item (room < missing p n node)
        (node' = node) (lookupFrom · n node) (lookupFrom · n node') ret := by
  induction n generalizing room with
  | zero =>
    unfold insertFrom
    cases hs : node.slots (p 0) with
    | some x =>
      refine ⟨.exist, node, false, rfl, h, fun h0 => ?_, Nat.not_lt_zero _, by simp
        [lookupFrom, hs], rfl⟩
      rw [h.mask_eq_zero.mp h0] at hs
      exact absurd hs nofun
    | none =>
      have hmask := Node.Masked.set h (p 0) item
      refine ⟨.ok, _, false, rfl, hmask, fun h0 => ?_, Nat.not_lt_zero _, hs, fun q => ?_⟩
      · simpa [Node.set] using hmask.mask_eq_zero.mp h0 (p 0)
      · simp only [lookupFrom, sameLow_zero]
        by_cases hq : q 0 = p 0 <;> simp [Node.set, hq]
  | succ n ih =>
    unfold insertFrom
    rcases enter_cases p (node.slots (p (n + 1))) room (h.2 _) with
      ⟨henter, hslot, hfew⟩ | ⟨child, room', henter, htidy, hlook, hroom, hback⟩
    · refine ⟨.noMem, node, true, by rw [henter], h, fun _ => rfl, hfew, ?_, rfl⟩
      simp only [lookupFrom, hslot, bind_none]
    obtain ⟨ret, c, b, heq, hc, hb, hins⟩ := ih room' htidy
    obtain ⟨node₁, hnode₁⟩ : ∃ node₁, node₁ = if (node.slots (p (n + 1))).isNone then
      node.set (p (n + 1)) child else node := ⟨_, rfl⟩
    have hfirst : node₁.Masked ∧ node₁.slots (p (n + 1)) ≠ none ∧
        ∀ slot, update node₁.slots (p (n + 1)) slot =
          update node.slots (p (n + 1)) slot := by
      rw [hnode₁]
      split
      case isTrue => exact ⟨h.1.set _ child, by simp [Node.set], by simp [Node.set]⟩
      case isFalse hs => exact ⟨h.1, by simpa using hs, fun _ => rfl⟩
    obtain ⟨hslots, hmask, hflag⟩ := hfirst.1.pruneUp hfirst.2.1 (c, b)
    rw [hfirst.2.2] at hslots
    obtain ⟨hkept, hitems⟩ := hc.kept hb
    refine ⟨ret, (node₁.pruneUp (p (n + 1)) (c, b)).1, (node₁.pruneUp (p (n + 1)) (c, b)).2,
      by simp only [henter, heq, ← hnode₁], ?_⟩
    have hfound : lookupFrom p (n + 1) node = lookupFrom p n child := (hlook p).symm
    -- where the node below is as it was, so is the node
    have hsame : c = child → (node₁.pruneUp (p (n + 1)) (c, b)).1 = node := by
      rintro rfl
      refine h.1.ext hmask (hslots.trans ?_)
      rw [hback b hb, update_eq_self]
    cases ret with
    | noMem =>
      obtain ⟨hfew, hnone, rfl⟩ := hins
      exact ⟨by rwa [hsame rfl], hflag, hroom.mp hfew, hfound.trans hnone, hsame rfl⟩
    | exist =>
      obtain ⟨hfew, hsome, rfl⟩ := hins
      exact ⟨by rwa [hsame rfl], hflag, mt hroom.mpr hfew, hfound.trans_ne hsome, hsame rfl⟩
    | ok =>
      obtain ⟨hfew, hnone, hall⟩ := hins
      obtain ⟨htidy', hlook'⟩ := h.update hslots hmask hkept (f := some item) fun q => by
        rw [hitems, ← hlook]
        exact hall q
      exact ⟨htidy', hflag, mt hroom.mpr hfew, hfound.trans hnone, hlook'⟩

/-- A deletion returns what a lookup returns, and removes it with the nodes that it leaves empty. -/
theorem deleteFrom_spec (h : Tidy n node) (hne : node.presentMask ≠ 0#64) : ∃ node' b,
      deleteFrom p n node = (lookupFrom p n node, node', b) ∧ Tidy n node' ∧
      (node'.presentMask = 0#64 → b = true) ∧
      ∀ q, lookupFrom q n node' = if SameLow n q p then none else lookupFrom q n node := by
  induction n with
  | zero =>
    unfold deleteFrom
    rw [lookupFrom]
    cases hs : node.slots (p 0) with
    | none =>
      refine ⟨node, false, rfl, h, fun h0 => absurd h0 hne, fun q => ?_⟩
      simp only [lookupFrom, sameLow_zero]
      by_cases hq : q 0 = p 0 <;> simp [hq, hs]
    | some item =>
      refine ⟨_, true, rfl, h.clear _, fun _ => rfl, fun q => ?_⟩
      simp only [lookupFrom, sameLow_zero]
      by_cases hq : q 0 = p 0 <;> simp [Node.clear, hq]
  | succ n ih =>
    unfold deleteFrom
    rw [lookupFrom]
    cases hs : node.slots (p (n + 1)) with
    | none =>
      refine ⟨node, false, rfl, h, fun h0 => absurd h0 hne, fun q => ?_⟩
      simp only [lookupFrom, sameLow_succ]
      by_cases hq : q (n + 1) = p (n + 1) <;> simp [hq, hs]
    | some child =>
      obtain ⟨htidy, hchild⟩ := h.2 _ child hs
      obtain ⟨c, b, heq, hc, hb, hlook⟩ := ih htidy hchild
      obtain ⟨hslots, hmask, hflag⟩ := h.1.pruneUp (i := p (n + 1)) (by simp [hs]) (c, b)
      obtain ⟨hkept, hitems⟩ := hc.kept hb
      obtain ⟨htidy', hlook'⟩ := h.update hslots hmask hkept fun q => by rw [hitems, hlook, hs]; rfl
      exact ⟨_, _, by simp only [heq]; rfl, htidy', hflag, hlook'⟩

theorem Node.verify_iff {X : Type} {node : Node X} {check : Fin 64 → X → Bool}
    (h : node.Masked) : node.verify check = true ↔ ∀ i x, node.slots i = some x → check i x =
    true := by
  have hmask : ∀ i : Fin 64, node.presentMask.getLsbD i = (node.slots i).isSome := h
  simp only [verify, hmask, implies_true, decide_true, Bool.true_and, List.all_eq_true,
    List.mem_finRange, true_imp_iff, all_eq_true]

/-- The check passes when the items have the keys that they are found under. -/
theorem verifyFrom_iff (h : Tidy n node) (pre : BitVec 64) :
    verifyFrom keyFn n pre node = true ↔
      ∀ q item, lookupFrom q n node = some item → keyFn item = pre ||| low n q := by
  induction n generalizing pre with
  | zero =>
    rw [verifyFrom, Node.verify_iff h]
    simp only [decide_eq_true_eq]
    exact ⟨fun hall q item hq => hall (q 0) item hq, fun hall i item hi => hall
      (fun _ => i) item hi⟩
  | succ n ih =>
    rw [verifyFrom, Node.verify_iff h.1]
    refine ⟨fun hall q item hq => ?_, fun hall i c hi => (ih (h.2 i c hi).1 _).mpr
      fun q item hq => ?_⟩
    · obtain ⟨c, hc, hq⟩ := bind_eq_some_iff.mp hq
      rw [(ih (h.2 _ c hc).1 _).mp (hall _ c hc) q item hq, low, BitVec.or_assoc]
    have hlow : SameLow n (update q (n + 1) i) q := fun j hj => update_of_ne (by omega) _ _
    have hkey := hall (update q (n + 1) i) item (by
      rw [lookupFrom, update_self, hi]
      exact (lookupFrom_congr hlow c).trans hq)
    rwa [low, update_self, low_congr hlow, ← BitVec.or_assoc] at hkey

end Specs

/-! ### Keys -/

/-- The key that the tree reads in the place of a key. -/
def lastDigits (n : ℕ) (key : BitVec 64) : BitVec 64 := BitVec.ofNat 64
    (key.toNat % 2 ^ (6 * (n + 1)))

theorem digit_getLsbD (key : BitVec 64) (level j : ℕ) : (digit
    (radixIndex key level) level).getLsbD j =
    (decide (6 * level ≤ j ∧ j < 6 * (level + 1)) && key.getLsbD j) := by
  have h63 : (63#64).getLsbD (j - level * 6) = decide (j - level * 6 < 6) := by
    rw [getLsbD_ofNat, show 63 = 2 ^ 6 - 1 from rfl, Nat.testBit_two_pow_sub_one]
    by_cases h : j - level * 6 < 6
    · simp [h, show j - level * 6 < 64 by omega]
    · simp [h]
  have hidx : BitVec.ofNat 64 (radixIndex key level).val = (key >>> (level * 6)) &&& 63#64 := by
    rw [radixIndex, BitVec.ofNat_toNat, BitVec.setWidth_eq]
  rw [digit, hidx, getLsbD_shiftLeft, getLsbD_and, h63, getLsbD_ushiftRight]
  by_cases hj : j < level * 6
  · simp [hj, show ¬ 6 * level ≤ j by omega]
  rw [show level * 6 + (j - level * 6) = j by omega]
  by_cases h6 : j - level * 6 < 6
  · by_cases h64 : j < 64
    · simp [hj, h6, h64, show 6 * level ≤ j ∧ j < 6 * (level + 1) by omega]
    · simp [h64, getLsbD_of_ge key j (by omega)]
  · simp [h6, show ¬ (6 * level ≤ j ∧ j < 6 * (level + 1)) by omega]

theorem low_eq_lastDigits (n : ℕ) (key : BitVec 64) :
    low n (radixIndex key) = lastDigits n key := by
  have hbits : ∀ j, (low n (radixIndex key)).getLsbD j =
      (decide (j < 6 * (n + 1)) && key.getLsbD j) := by
    intro j
    induction n with
    | zero => simp [low, digit_getLsbD]
    | succ n ih =>
      rw [low, getLsbD_or, digit_getLsbD, ih, ← Bool.and_or_distrib_right, ← Bool.decide_or]
      congr 2
      exact propext (by omega)
  refine eq_of_getLsbD_eq fun j hj => ?_
  rw [hbits, lastDigits, getLsbD_ofNat, Nat.testBit_mod_two_pow]
  simp [hj, getLsbD]

theorem lastDigits_eq_iff {n : ℕ} {key : BitVec 64} : lastDigits n key = key ↔ key.toNat < 2 ^
    (6 * (n + 1)) := by
  refine ⟨fun h => ?_, fun h => ?_⟩
  · rw [← h, lastDigits, toNat_ofNat]
    exact Nat.lt_of_le_of_lt (Nat.mod_le _ _) (Nat.mod_lt _ (by positivity))
  · rw [lastDigits, Nat.mod_eq_of_lt h, ofNat_toNat, setWidth_eq]

/-- A key and the one that is read have the same digits. -/
theorem sameLow_lastDigits (n : ℕ) (key : BitVec 64) :
    SameLow n (radixIndex (lastDigits n key)) (radixIndex key) := by
  intro j hj
  have hval : ∀ k : BitVec 64, (radixIndex k j).val = k.toNat / 2 ^ (6 * j) % 64 := by
    intro k
    simp only [radixIndex, toNat_and, toNat_ushiftRight, Nat.shiftRight_eq_div_pow, mul_comm j 6]
    exact Nat.and_two_pow_sub_one_eq_mod _ 6
  refine Fin.ext ?_
  rw [hval, hval, lastDigits, toNat_ofNat, Nat.mod_eq_of_lt
    (Nat.lt_of_le_of_lt (Nat.mod_le _ _) key.isLt),
    show 6 * (n + 1) = 6 * j + 6 * (n + 1 - j) by omega, pow_add, Nat.mod_mul_right_div_self]
  refine Nat.mod_mod_of_dvd _ ?_
  rw [show 64 = 2 ^ 6 by rfl]
  exact pow_dvd_pow 2 (by omega)


/-! ### Runs -/

section Runs

variable {V : Type} {n room : ℕ} {keyFn : V → BitVec 64} {t : Tree V n} {item : V}

/-- The tree is in order, and its items have the keys that they are found under. -/
structure TreeOk (keyFn : V → BitVec 64) (t : Tree V n) : Prop where
  tidy : SlotOk t
  keys : ∀ q item, t.bind (lookupFrom q n) = some item → keyFn item = low n q

/-- The nodes that an insertion of the key has to allocate. -/
def nodesMissing (t : Tree V n) (key : BitVec 64) : ℕ := t.elim (n + 1) (missing (radixIndex key) n)

theorem radixVerifyTree_iff (h : SlotOk t) : radixVerifyTree keyFn t = true ↔
    ∀ q item, t.bind (lookupFrom q n) = some item → keyFn item = low n q := by
  cases t with
  | none => exact iff_of_true rfl nofun
  | some node =>
    refine (verifyFrom_iff (h node rfl).1 0#64).trans ?_
    simp only [zero_or, bind_some]

/-- An insertion panics when the key is too long for the place where it has put the item. -/
theorem TreeOk.insert (h : TreeOk keyFn t) (item : V) (room : ℕ) : ∃ ret t',
    radixInsert keyFn t item room = (if ret = .ok ∧ lastDigits n (keyFn item) ≠ keyFn item then none
      else some (ret, t')) ∧
    Inserted n (radixIndex (keyFn item)) item (room < nodesMissing t (keyFn item)) (t' = t)
      (fun q => t.bind (lookupFrom q n)) (fun q => t'.bind (lookupFrom q n)) ret ∧
    (lastDigits n (keyFn item) = keyFn item → TreeOk keyFn t') := by
  unfold radixInsert nodesMissing
  rcases enter_cases (radixIndex (keyFn item)) t room h.tidy with
    ⟨henter, hslot, hfew⟩ | ⟨node, room', henter, htidy, hlook, hroom, hback⟩
  · exact ⟨.noMem, t, by simp [henter], ⟨hfew, by simp [hslot], rfl⟩, fun _ => h⟩
  obtain ⟨ret, node', b, heq, htidy', hb, hins⟩ :=
    insertFrom_spec (radixIndex (keyFn item)) item room' htidy
  obtain ⟨hkept, hitems⟩ := htidy'.kept hb
  refine ⟨ret, Node.kept (node', b), ?_⟩
  simp only [henter, heq]
  cases ret with
  | noMem =>
    obtain ⟨hfew, hnone, rfl⟩ := hins
    rw [hback b hb]
    exact ⟨by simp, ⟨hroom.mp hfew, (hlook _).symm.trans hnone, rfl⟩, fun _ => h⟩
  | exist =>
    obtain ⟨hfew, hsome, rfl⟩ := hins
    rw [hback b hb, (radixVerifyTree_iff h.tidy).mpr h.keys]
    exact ⟨by simp, ⟨mt hroom.mpr hfew, (hlook _).symm.trans_ne hsome, rfl⟩, fun _ => h⟩
  | ok =>
    obtain ⟨hfew, hnone, hall⟩ := hins
    have hnew : ∀ q, (Node.kept (node', b)).bind (lookupFrom q n) =
        if SameLow n q (radixIndex (keyFn item)) then some item else t.bind (lookupFrom q n) := by
      intro q
      rw [hitems, ← hlook]
      exact hall q
    have hkeys : (∀ q x, (Node.kept (node', b)).bind (lookupFrom q n) = some x → keyFn x =
        low n q) ↔ lastDigits n (keyFn item) = keyFn item := by
      rw [← low_eq_lastDigits]
      refine ⟨fun hall => (hall (radixIndex (keyFn item)) item ?_).symm, fun hkey q x hq => ?_⟩
      · rw [hnew, if_pos SameLow.refl]
      rw [hnew] at hq
      split at hq
      case isTrue hsame =>
        obtain ⟨⟩ := hq
        rw [low_congr hsame, hkey]
      case isFalse => exact h.keys q x hq
    refine ⟨?_, ⟨mt hroom.mpr hfew, (hlook _).symm.trans hnone, hnew⟩, fun hkey =>
      ⟨hkept, hkeys.mpr hkey⟩⟩
    simp only [(radixVerifyTree_iff hkept).trans hkeys]
    by_cases hkey : lastDigits n (keyFn item) = keyFn item <;> simp [hkey]

/-- A deletion returns what a lookup returns, and removes it. -/
theorem TreeOk.delete (h : TreeOk keyFn t) (key : BitVec 64) :
    ∃ t', radixDelete keyFn t key = some (radixLookup t key, t') ∧ TreeOk keyFn t' ∧
      ∀ q, t'.bind (lookupFrom q n) =
        if SameLow n q (radixIndex key) then none else t.bind (lookupFrom q n) := by
  cases t with
  | none => exact ⟨none, rfl, h, fun q => by simp⟩
  | some node =>
    obtain ⟨htidy, hne⟩ := h.tidy node rfl
    obtain ⟨node', b, heq, htidy', hb, hlook⟩ := deleteFrom_spec (p := radixIndex key) htidy hne
    obtain ⟨hkept, hitems⟩ := htidy'.kept hb
    simp only [← hitems] at hlook
    have hkeys : ∀ q x, (Node.kept (node', b)).bind (lookupFrom q n) = some x →
        keyFn x = low n q := by
      intro q x hx
      rw [hlook] at hx
      exact h.keys q x (ite_none_left_eq_some.mp hx).2
    refine ⟨_, ?_, ⟨hkept, hkeys⟩, hlook⟩
    simp only [radixDelete, heq, (radixVerifyTree_iff hkept).mpr hkeys, or_true, if_true]
    rfl

/-- A tree, and the map that the calls have built. -/
structure RadixSys (V : Type) (n : ℕ) where
  tree : Tree V n
  map : BitVec 64 → Option V

/-- The calls; an insertion gets `room` nodes before an allocation fails. -/
inductive RadixAct (V : Type)
  | insert (item : V) (room : ℕ)
  | delete (key : BitVec 64)
  | lookup (key : BitVec 64)

/-- One call. After a panic there is no state. -/
def radixStep (keyFn : V → BitVec 64) (s : RadixSys V n) : RadixAct V → Option (RadixSys V n)
  | .insert item room => (radixInsert keyFn s.tree item room).map fun r =>
    ⟨r.2, if r.1 = .ok then update s.map (keyFn item) (some item) else s.map⟩
  | .delete key => (radixDelete keyFn s.tree key).map fun r => ⟨r.2, update s.map key none⟩
  | .lookup _ => some s

/-- The call returns what the map says, and an insertion that fails leaves the tree as it was. -/
def Right (keyFn : V → BitVec 64) (s : RadixSys V n) : RadixAct V → Prop
  | .insert item room => ∃ ret t, radixInsert keyFn s.tree item room = some (ret, t) ∧
    (ret = .exist ↔ s.map (keyFn item) ≠ none) ∧ (ret ≠ .ok → t = s.tree)
  | .delete key => ∃ t, radixDelete keyFn s.tree key = some (s.map key, t)
  | .lookup key => radixLookup s.tree key = s.map key

/-- The key has no more digits than the tree reads, or nothing is stored under the digits that it
reads; or an insertion runs out of memory. -/
def Fits (keyFn : V → BitVec 64) (s : RadixSys V n) : RadixAct V → Prop
  | .insert item room =>
    (keyFn item).toNat < 2 ^ (6 * (n + 1)) ∨ room < nodesMissing s.tree (keyFn item)
  | .delete key | .lookup key =>
    key.toNat < 2 ^ (6 * (n + 1)) ∨ s.map (lastDigits n key) = none

/-- One call with a key that fits. -/
def RadixStep (keyFn : V → BitVec 64) (s s' : RadixSys V n) : Prop :=
  ∃ act, Fits keyFn s act ∧ radixStep keyFn s act = some s'

/-- The invariant: the map has the items of the tree. -/
structure RadixOk (keyFn : V → BitVec 64) (s : RadixSys V n) : Prop where
  tree : TreeOk keyFn s.tree
  map : ∀ key, s.map key =
    if key.toNat < 2 ^ (6 * (n + 1)) then radixLookup s.tree key else none

variable {s s' : RadixSys V n} {key : BitVec 64}

theorem RadixOk.map_lastDigits (h : RadixOk keyFn s) (key : BitVec 64) :
    s.map (lastDigits n key) = radixLookup s.tree key := by
  have hfits : (lastDigits n key).toNat < 2 ^ (6 * (n + 1)) := by
    exact Nat.lt_of_le_of_lt (Nat.mod_le _ _) (Nat.mod_lt _ (by positivity))
  rw [h.map, if_pos hfits]
  unfold radixLookup
  rw [funext (lookupFrom_congr (sameLow_lastDigits n key))]

theorem RadixOk.lookup_iff (h : RadixOk keyFn s) : radixLookup s.tree key = s.map key ↔
    key.toNat < 2 ^ (6 * (n + 1)) ∨ s.map (lastDigits n key) = none := by
  rw [h.map_lastDigits, h.map]
  by_cases hk : key.toNat < 2 ^ (6 * (n + 1)) <;> simp [hk]

/-- A call is answered as the map says exactly if its key fits. -/
theorem RadixOk.right_iff (h : RadixOk keyFn s) (act : RadixAct V) :
    Right keyFn s act ↔ Fits keyFn s act := by
  cases act with
  | insert item room =>
    obtain ⟨ret, t', heq, hins, -⟩ := h.tree.insert item room
    rw [Right, Fits, h.map, heq]
    simp only [radixLookup, ← lastDigits_eq_iff]
    cases ret with
    | noMem => simp [hins.1, hins.2.1, hins.2.2]
    | exist =>
      by_cases hk : lastDigits n (keyFn item) = keyFn item <;>
        simp [hk, hins.1, hins.2.1, hins.2.2]
    | ok => by_cases hk : lastDigits n (keyFn item) = keyFn item <;> simp [hk, hins.1, hins.2.1]
  | delete key =>
    obtain ⟨t', heq, -⟩ := h.tree.delete key
    rw [Fits, ← h.lookup_iff]
    simp [Right, heq]
  | lookup key => exact h.lookup_iff

theorem sameLow_iff {k : BitVec 64} (hk : k.toNat < 2 ^ (6 * (n + 1)))
    (hkey : key.toNat < 2 ^ (6 * (n + 1))) :
    SameLow n (radixIndex k) (radixIndex key) ↔ k = key := by
  refine ⟨fun h => ?_, fun h _ _ => by rw [h]⟩
  have hlow := low_congr h
  rwa [low_eq_lastDigits, low_eq_lastDigits, lastDigits_eq_iff.mpr hk,
    lastDigits_eq_iff.mpr hkey] at hlow

theorem RadixOk.step {act : RadixAct V} (h : RadixOk keyFn s) (hfits : Fits keyFn s act)
    (hs : radixStep keyFn s act = some s') : RadixOk keyFn s' := by
  cases act with
  | insert item room =>
    obtain ⟨⟨ret, t⟩, hr, rfl⟩ := map_eq_some_iff.mp hs
    obtain ⟨ret', t', heq, hins, hok⟩ := h.tree.insert item room
    obtain ⟨-, ⟨⟩⟩ := ite_none_left_eq_some.mp (heq.symm.trans hr)
    cases ret with
    | noMem | exist =>
      obtain rfl := hins.2.2
      exact ⟨h.tree, h.map⟩
    | ok =>
      have hk := hfits.resolve_right hins.1
      refine ⟨hok (lastDigits_eq_iff.mpr hk), fun k => ?_⟩
      simp only [if_true, radixLookup, hins.2.2]
      by_cases hkey : k = keyFn item
      · subst hkey
        rw [update_self, if_pos hk, if_pos SameLow.refl]
      rw [update_of_ne hkey, h.map]
      split
      case isTrue hk' =>
        rw [if_neg (by rwa [sameLow_iff hk' hk])]
        rfl
      case isFalse => rfl
  | delete key =>
    obtain ⟨r, hdel, rfl⟩ := map_eq_some_iff.mp hs
    obtain ⟨t', heq, hok, hlook⟩ := h.tree.delete key
    obtain rfl := some.inj (hdel.symm.trans heq)
    refine ⟨hok, fun k => ?_⟩
    simp only [radixLookup, hlook]
    by_cases hkey : k = key
    · subst hkey
      simp [SameLow]
    rw [update_of_ne hkey, h.map]
    split
    case isFalse => rfl
    case isTrue hk =>
      split
      case isFalse => rfl
      case isTrue hsame =>
        -- the key that is deleted is longer, and nothing is stored under its last digits
        have hnone : s.map (lastDigits n key) = none :=
          hfits.resolve_left fun hfit => hkey ((sameLow_iff hk hfit).mp hsame)
        rw [h.map_lastDigits] at hnone
        rw [radixLookup, funext (lookupFrom_congr hsame)]
        exact hnone
  | lookup key =>
    obtain ⟨⟩ := hs
    exact h

/-- What holds after calls with keys that fit. -/
structure RadixSound (keyFn : V → BitVec 64) (s : RadixSys V n) : Prop where
  /-- The masks are those of the slots, and no node is empty. -/
  tidy : SlotOk s.tree
  keys : ∀ key item, s.map key = some item → keyFn item = key
  right : ∀ act, Right keyFn s act ↔ Fits keyFn s act

/-- In every run of calls with keys that fit, the masks are right and no empty node remains; and the
calls that are answered right, as the map says and without a trace of a failed insertion, are those
with a key that fits. -/
theorem radixRun_sound {V : Type} (n : ℕ) (keyFn : V → BitVec 64) (s : RadixSys V n)
    (h : ReflTransGen (RadixStep keyFn) ⟨none, fun _ => none⟩ s) : RadixSound keyFn s := by
  have hok : RadixOk keyFn s := by
    induction h with
    | refl => exact ⟨⟨nofun, nofun⟩, fun key => by simp [radixLookup]⟩
    | tail _ hstep ih =>
      obtain ⟨act, hfits, hs⟩ := hstep
      exact ih.step hfits hs
  refine ⟨hok.tree.tidy, fun key item hkey => ?_, hok.right_iff⟩
  rw [hok.map] at hkey
  obtain ⟨hk, hkey⟩ := ite_none_right_eq_some.mp hkey
  rw [hok.tree.keys _ item hkey, low_eq_lastDigits, lastDigits_eq_iff.mpr hk]

/-- Two items are inserted into a tree of height 2, and one of them is deleted. -/
theorem radixRun_sound_deleted : ∃ s : RadixSys (BitVec 64) 1,
    ReflTransGen (RadixStep id) ⟨none, fun _ => none⟩ s ∧ s.map 70#64 = none ∧
      s.map 6#64 = some 6#64 ∧ RadixSound id s := by
  have hobs : ((radixStep id (⟨none, fun _ => none⟩ : RadixSys (BitVec 64) 1)
      (.insert 70#64 2)).bind fun s => (radixStep id s (.insert 6#64 2)).bind fun s =>
        radixStep id s (.delete 70#64)).map (fun s => (s.map 70#64, s.map 6#64)) =
      some (none, some 6#64) := by decide +kernel
  obtain ⟨s, hs, hmap⟩ := map_eq_some_iff.mp hobs
  obtain ⟨s₁, h₁, hs⟩ := bind_eq_some_iff.mp hs
  obtain ⟨s₂, h₂, hs⟩ := bind_eq_some_iff.mp hs
  have hrun : ReflTransGen (RadixStep id) ⟨none, fun _ => none⟩ s :=
    ((ReflTransGen.single ⟨.insert 70#64 2, .inl (by decide), h₁⟩).tail
      ⟨.insert 6#64 2, .inl (by decide), h₂⟩).tail ⟨.delete 70#64, .inl (by decide), hs⟩
  exact ⟨s, hrun, (Prod.mk.inj hmap).1, (Prod.mk.inj hmap).2, radixRun_sound 1 id s hrun⟩

/-- In a tree of height 1 that has the item 5, the item is also found under the key 69. -/
theorem radixRun_alias : ∃ s : RadixSys (BitVec 64) 0,
    radixStep id ⟨none, fun _ => none⟩ (.insert 5#64 1) = some s ∧ s.map 69#64 = none ∧
      radixLookup s.tree 69#64 = some 5#64 := by
  have hobs : (radixStep id (⟨none, fun _ => none⟩ : RadixSys (BitVec 64) 0)
      (.insert 5#64 1)).map (fun s => (s.map 69#64, radixLookup s.tree 69#64)) =
        some (none, some 5#64) := by decide +kernel
  obtain ⟨s, hs, hmap⟩ := map_eq_some_iff.mp hobs
  obtain ⟨hnone, hfound⟩ := Prod.mk.inj hmap
  exact ⟨s, hs, hnone, hfound⟩

end Runs

end Charmos.Radix
