import Charmos.Fs.Tmpfs

/-!
# Files in memory as byte arrays

The intended meaning of a file is a list of bytes. `Agrees` compares the two through the operations
that a user of the file has: the sizes, and what every read returns.

The operations keep the file and the list in agreement only as long as they do not meet the bytes
that earlier operations left behind: a write past the end does not clear the gap, growing clears
only the page of the old end, and an operation that runs out of memory has already copied or freed
pages. `TmpfsAct.Safe` is the exact condition on a step (`agrees_step_iff`), and along a run the
file is the list in every state if and only if every step meets the condition
(`tmpfsRun_agrees_iff`).
-/

namespace Charmos.Fs

open List PagedArray

variable {tn : TmpfsNode} {m : List UInt8} {data : List UInt8} {page : ℕ → Bool}
  {offset requiredPages length pageIdx fuel n : ℕ} {p : ℕ → UInt8} {r : TmpfsErr × TmpfsNode}
  {array alloc : Bool}

/-! ### The elements of a file -/

/-- The byte that is kept for a position, below the size or not. -/
def byteAt (tn : TmpfsNode) (i : ℕ) : UInt8 :=
  tn.pages.get pageSize i

theorem pageSize_pos : 0 < pageSize := by decide

theorem lt_pagesFor_iff {k bytes : ℕ} : k < pagesFor bytes ↔ k * pageSize < bytes := by
  unfold pagesFor pageSize
  split_ifs <;> omega

theorem div_lt_pagesFor {i bytes : ℕ} (h : i < bytes) : i / pageSize < pagesFor bytes := by
  rw [lt_pagesFor_iff]
  exact lt_of_le_of_lt (Nat.div_mul_le_self i pageSize) h

/-- The piece of a read that lies in one page. -/
theorem readPiece_eq (tn : TmpfsNode) (offset toCopy : ℕ)
    (h : offset % pageSize + toCopy ≤ pageSize) :
    readPiece tn offset toCopy = (range toCopy).map fun k => byteAt tn (offset + k) := by
  have hpage : ∀ k < toCopy, (offset + k) / pageSize = offset / pageSize ∧
      (offset + k) % pageSize = offset % pageSize + k := by
    unfold pageSize at h ⊢
    intro k hk
    omega
  unfold readPiece
  cases hp : tn.pages.page (offset / pageSize) with
  | none =>
    refine ext_getElem (by simp) fun k hk _ => ?_
    have hk' : k < toCopy := by simpa using hk
    simp only [getElem_replicate, getElem_map, getElem_range, byteAt]
    rw [get_eq_default (by rw [(hpage k hk').1, hp])]
    rfl
  | some p =>
    refine map_congr_left fun k hk => ?_
    obtain ⟨hdiv, hmod⟩ := hpage k (mem_range.mp hk)
    simp only [byteAt, PagedArray.get, hdiv, hp, hmod]

/-- The loop of `tmpfs_read` reads the bytes one after the other. -/
theorem readLoop_eq (tn : TmpfsNode) {size : ℕ} (hfuel : size ≤ fuel) :
    readLoop tn fuel offset size = (range size).map fun k => byteAt tn (offset + k) := by
  induction fuel generalizing offset size with
  | zero => simp [readLoop, Nat.le_zero.mp hfuel]
  | succ fuel ih =>
    unfold readLoop
    by_cases hsize : size = 0
    · simp [hsize]
    have hmod := Nat.mod_lt offset pageSize_pos
    set toCopy := min (pageSize - offset % pageSize) size with hcopy
    have hle : toCopy ≤ size := min_le_right _ _
    simp only [if_neg hsize]
    rw [readPiece_eq tn offset toCopy (by omega), ih (by omega)]
    have hsplit : range size =
        range toCopy ++ (range (size - toCopy)).map (toCopy + ·) := by
      rw [← range_add, Nat.add_sub_cancel' hle]
    rw [hsplit, map_append, map_map]
    simp only [Function.comp_def, Nat.add_assoc]

/-! ### Agreement -/

/-- The file is the list of bytes, for everyone who reads it. -/
def Agrees (tn : TmpfsNode) (m : List UInt8) : Prop :=
  tn.size = m.length ∧ tn.vfsSize = m.length ∧
    ∀ size offset, offset + size < 2 ^ 64 →
      tmpfsRead tn size offset = (.ok, (m.drop offset).take size)

/-- The same, byte by byte. -/
structure SameBytes (tn : TmpfsNode) (m : List UInt8) : Prop where
  size : tn.size = m.length
  vfsSize : tn.vfsSize = m.length
  byte : ∀ i < m.length, byteAt tn i = m.getD i 0

theorem tmpfsRead_eq (htype : tn.type = .file) {size : ℕ} (hfit : offset + size < 2 ^ 64) :
    tmpfsRead tn size offset =
      (.ok, (range (min size (tn.size - offset))).map fun k => byteAt tn (offset + k)) := by
  unfold tmpfsRead
  rw [if_neg (by simp [htype])]
  by_cases hend : tn.size ≤ offset
  · simp [hend]
  rw [if_neg hend, Nat.mod_eq_of_lt hfit]
  by_cases hcut : tn.size < offset + size
  · simp only [if_pos hcut]
    rw [readLoop_eq tn le_rfl, min_eq_right (by omega)]
  · simp only [if_neg hcut]
    rw [readLoop_eq tn le_rfl, min_eq_left (by omega)]

theorem agrees_iff (htype : tn.type = .file) (hm : m.length < 2 ^ 64) :
    Agrees tn m ↔ SameBytes tn m := by
  constructor
  · rintro ⟨hsize, hvfs, hread⟩
    refine ⟨hsize, hvfs, fun i hi => ?_⟩
    -- a read of one byte
    have hone := hread 1 i (by omega)
    rw [tmpfsRead_eq htype (by omega), min_eq_left (by omega)] at hone
    have hdrop : (m.drop i).take 1 = [m.getD i 0] := by
      rw [take_one, head?_drop, getD_eq_getElem?_getD, getElem?_eq_getElem hi]
      rfl
    rw [hdrop] at hone
    simpa using hone
  · rintro ⟨hsize, hvfs, hbyte⟩
    refine ⟨hsize, hvfs, fun size offset hfit => ?_⟩
    rw [tmpfsRead_eq htype hfit, hsize]
    congr 1
    refine ext_getElem (by simp) fun k hk hk' => ?_
    simp only [length_map, length_range] at hk
    simp only [getElem_map, getElem_range, getElem_take, getElem_drop]
    rw [hbyte _ (by omega), getD_eq_getElem?_getD, getElem?_eq_getElem (by omega)]
    rfl

/-! ### Writing -/

/-- The write needs the page of this byte and does not get it. -/
def Blocked (tn : TmpfsNode) (page : ℕ → Bool) (i : ℕ) : Prop :=
  tn.pages.page (i / pageSize) = none ∧ page (i / pageSize) = false

/-- What the loop of `tmpfs_write` has done when it ends: it copies the bytes in front of the first
one whose page it does not get. -/
structure WriteLoopSpec (page : ℕ → Bool) (offset : ℕ) (data : List UInt8) (tn : TmpfsNode)
    (r : TmpfsErr × TmpfsNode) : Prop where
  type : r.2.type = tn.type
  size : r.2.size = tn.size
  vfsSize : r.2.vfsSize = tn.vfsSize
  err : r.1 = .ok ↔ ∀ i, offset ≤ i → i < offset + data.length → ¬Blocked tn page i
  copied : ∀ i, offset ≤ i → i < offset + data.length →
    (∀ k, offset ≤ k → k ≤ i → ¬Blocked tn page k) → byteAt r.2 i = data.getD (i - offset) 0
  kept : ∀ i, (i < offset ∨ offset + data.length ≤ i ∨
    ∃ k, offset ≤ k ∧ k ≤ i ∧ Blocked tn page k) → byteAt r.2 i = byteAt tn i

theorem obtainPage_eq_none :
    obtainPage tn pageIdx alloc = none ↔ tn.pages.page pageIdx = none ∧ alloc = false := by
  unfold obtainPage
  cases tn.pages.page pageIdx <;> cases alloc <;> simp

theorem obtainPage_eq_some (h : obtainPage tn pageIdx alloc = some p) :
    tn.pages.page pageIdx = some p ∨ tn.pages.page pageIdx = none ∧ p = fun _ => default := by
  unfold obtainPage at h
  cases hp : tn.pages.page pageIdx with
  | some q =>
    rw [hp] at h
    exact .inl h
  | none =>
    rw [hp] at h
    cases alloc with
    | false => cases h
    | true =>
      obtain ⟨⟩ := h
      exact .inr ⟨rfl, rfl⟩

/-- The file after a piece of one page was copied in. -/
def putPiece (tn : TmpfsNode) (offset : ℕ) (p : ℕ → UInt8) (data : List UInt8) : TmpfsNode :=
  { tn with pages := tn.pages.set (offset / pageSize) (some (copyIn p (offset % pageSize) data)) }

theorem byteAt_putPiece {i : ℕ}
    (hlen : offset / pageSize < tn.pages.length) (hfit : offset % pageSize + data.length ≤ pageSize)
    (hp : tn.pages.page (offset / pageSize) = some p ∨
      tn.pages.page (offset / pageSize) = none ∧ p = fun _ => default) :
    byteAt (putPiece tn offset p data) i =
      if offset ≤ i ∧ i < offset + data.length then data.getD (i - offset) 0 else byteAt tn i :=
  get_set_copyIn pageSize_pos tn.pages p offset data hlen hfit hp

theorem blocked_putPiece_iff {i : ℕ} (hlen : offset / pageSize < tn.pages.length) :
    Blocked (putPiece tn offset p data) page i ↔
      i / pageSize ≠ offset / pageSize ∧ Blocked tn page i := by
  unfold Blocked putPiece
  rw [page_set]
  by_cases hi : i / pageSize = offset / pageSize
  · simp [hi, hlen]
  · simp [hi]

theorem writeLoop_none (hdata : data.length ≠ 0)
    (h : obtainPage tn (offset / pageSize) (page (offset / pageSize)) = none) :
    writeLoop page (fuel + 1) offset data tn = (.noMem, tn) := by
  simp only [writeLoop, if_neg hdata, h]

theorem writeLoop_some (hdata : data.length ≠ 0)
    (h : obtainPage tn (offset / pageSize) (page (offset / pageSize)) = some p) :
    writeLoop page (fuel + 1) offset data tn =
      writeLoop page fuel (offset + min (pageSize - offset % pageSize) data.length)
        (data.drop (min (pageSize - offset % pageSize) data.length))
        (putPiece tn offset p (data.take (min (pageSize - offset % pageSize) data.length))) := by
  simp only [writeLoop, if_neg hdata, h, putPiece]

/-- A piece of one page in front of what the loop does with the rest. -/
theorem WriteLoopSpec.cons (hn : n ≤ data.length)
    (hlen : offset / pageSize < tn.pages.length) (hfit : offset % pageSize + n ≤ pageSize)
    (hp : tn.pages.page (offset / pageSize) = some p ∨
      tn.pages.page (offset / pageSize) = none ∧ p = fun _ => default)
    (hfree : ¬Blocked tn page offset)
    (hnext : ∀ i, offset + n ≤ i → i < offset + data.length → i / pageSize ≠ offset / pageSize)
    (h : WriteLoopSpec page (offset + n) (data.drop n) (putPiece tn offset p (data.take n)) r) :
    WriteLoopSpec page offset data tn r := by
  have hdrop : offset + n + (data.drop n).length = offset + data.length := by
    rw [length_drop]
    omega
  have htake : (data.take n).length = n := by
    rw [length_take]
    omega
  have hput : ∀ i, byteAt (putPiece tn offset p (data.take n)) i =
      if offset ≤ i ∧ i < offset + n then data.getD (i - offset) 0 else byteAt tn i := by
    intro i
    rw [byteAt_putPiece hlen (by rw [htake]; exact hfit) hp, htake]
    split_ifs with hi
    · rw [getD_eq_getElem?_getD, getD_eq_getElem?_getD, getElem?_take, if_pos (by omega)]
    · rfl
  have hpiece : ∀ i, offset ≤ i → i < offset + n → ¬Blocked tn page i := by
    intro i hlo hhi hblocked
    have hdiv : i / pageSize = offset / pageSize := by
      unfold pageSize at *
      omega
    rw [Blocked, hdiv] at hblocked
    exact hfree hblocked
  have hrest : ∀ i, offset + n ≤ i → i < offset + data.length →
      (Blocked (putPiece tn offset p (data.take n)) page i ↔ Blocked tn page i) := by
    intro i hlo hhi
    rw [blocked_putPiece_iff hlen]
    exact and_iff_right (hnext i hlo hhi)
  refine ⟨h.type, h.size, h.vfsSize, ?_, ?_, ?_⟩
  · rw [h.err, hdrop]
    constructor
    · intro hok i hlo hhi
      rcases lt_or_ge i (offset + n) with hi | hi
      · exact hpiece i hlo hi
      · exact fun hb => hok i hi hhi ((hrest i hi hhi).mpr hb)
    · exact fun hok i hlo hhi hb => hok i (by omega) hhi ((hrest i hlo hhi).mp hb)
  · intro i hlo hhi hfirst
    rcases lt_or_ge i (offset + n) with hi | hi
    · rw [h.kept i (.inl hi), hput, if_pos ⟨hlo, hi⟩]
    rw [h.copied i hi (by rw [hdrop]; exact hhi) fun k hk hki hb =>
      hfirst k (by omega) hki ((hrest k hk (by omega)).mp hb), getD_eq_getElem?_getD,
      getD_eq_getElem?_getD, getElem?_drop, show n + (i - (offset + n)) = i - offset
        by omega]
  · intro i hi
    have hout : ¬(offset ≤ i ∧ i < offset + n) := by
      rintro ⟨hlo, hhi⟩
      rcases hi with hi | hi | ⟨k, hk, hki, hb⟩
      · omega
      · omega
      · exact hpiece k hk (by omega) hb
    rw [h.kept i ?_, hput, if_neg hout]
    rcases hi with hi | hi | ⟨k, hk, hki, hb⟩
    · exact .inl (by omega)
    · exact .inr (.inl (by omega))
    rcases lt_or_ge i (offset + data.length) with hin | hin
    · have hkn : offset + n ≤ k := by
        by_contra hlt
        exact hpiece k hk (by omega) hb
      exact .inr (.inr ⟨k, hkn, hki, (hrest k hkn (by omega)).mpr hb⟩)
    · exact .inr (.inl (by omega))

theorem writeLoop_spec (page : ℕ → Bool) (hfuel : data.length ≤ fuel)
    (hlen : offset + data.length ≤ tn.pages.length * pageSize) :
    WriteLoopSpec page offset data tn (writeLoop page fuel offset data tn) := by
  have hdone : ∀ {offset : ℕ} {data : List UInt8} {tn : TmpfsNode}, data.length = 0 →
      WriteLoopSpec page offset data tn (.ok, tn) := fun hdata =>
    ⟨rfl, rfl, rfl, ⟨fun _ i _ _ => by omega, fun _ => rfl⟩, fun i _ _ => by omega, fun i _ => rfl⟩
  induction fuel generalizing offset data tn with
  | zero => exact hdone (Nat.le_zero.mp hfuel)
  | succ fuel ih =>
    by_cases hdata : data.length = 0
    · rw [writeLoop, if_pos hdata]
      exact hdone hdata
    have hmod := Nat.mod_lt offset pageSize_pos
    have hidx : offset / pageSize < tn.pages.length := by
      rw [Nat.div_lt_iff_lt_mul pageSize_pos]
      omega
    cases hslot : obtainPage tn (offset / pageSize) (page (offset / pageSize)) with
    | none =>
      -- the first byte is blocked
      have hblocked : Blocked tn page offset := obtainPage_eq_none.mp hslot
      rw [writeLoop_none hdata hslot]
      refine ⟨rfl, rfl, rfl, ?_, ?_, fun i _ => rfl⟩
      · exact ⟨fun h => by simp at h, fun h => absurd hblocked (h offset le_rfl (by omega))⟩
      · exact fun i hi _ hfree => absurd hblocked (hfree offset le_rfl hi)
    | some p =>
      have hfree : ¬Blocked tn page offset := fun hblocked => by
        rw [obtainPage_eq_none.mpr hblocked] at hslot
        cases hslot
      rw [writeLoop_some hdata hslot]
      refine WriteLoopSpec.cons (min_le_right _ _) hidx (by omega)
        (obtainPage_eq_some hslot) hfree ?_ (ih ?_ ?_)
      · unfold pageSize at *
        omega
      · rw [length_drop]
        omega
      · rw [length_drop]
        simp only [putPiece, length_set]
        omega

/-- The array of pages has to become longer, and there is no memory for it. -/
def ArrayFails (tn : TmpfsNode) (bytes : ℕ) (array : Bool) : Prop :=
  tn.pages.length < pagesFor bytes ∧ array = false

theorem reallocPageArray_fails (h : tn.pages.length < requiredPages ∧ array = false) :
    reallocPageArray tn requiredPages array = (.noMem, tn) := by
  simp [reallocPageArray, h.1, h.2]

/-- The file with an array of pages that is long enough. -/
theorem reallocPageArray_ok (h : ¬(tn.pages.length < requiredPages ∧ array = false)) :
    ∃ k, reallocPageArray tn requiredPages array =
      (.ok, { tn with pages := tn.pages ++ replicate k none }) ∧
      requiredPages ≤ tn.pages.length + k := by
  unfold reallocPageArray
  by_cases hlt : tn.pages.length < requiredPages
  · have harray : array = true := by
      cases array
      · exact absurd ⟨hlt, rfl⟩ h
      · rfl
    rw [if_pos hlt, if_pos harray]
    exact ⟨_, rfl, by omega⟩
  · rw [if_neg hlt]
    exact ⟨0, by simp, by omega⟩

/-- What a call of `tmpfs_write` does, apart from the type of the node. -/
theorem tmpfsWrite_cases (htype : tn.type = .file) (page : ℕ → Bool)
    (hfit : offset + data.length < 2 ^ 64) :
    (ArrayFails tn (offset + data.length) array ∧
      tmpfsWrite tn data offset array page = (.noMem, tn)) ∨
    (¬ArrayFails tn (offset + data.length) array ∧ ∃ r,
      WriteLoopSpec page offset data tn r ∧
      tmpfsWrite tn data offset array page =
        if r.1 = .ok then
          (.ok, if r.2.size < offset + data.length then setSize r.2 (offset + data.length) else r.2)
        else r) := by
  unfold tmpfsWrite
  rw [if_neg (by simp [htype]), Nat.mod_eq_of_lt hfit]
  by_cases hfail : ArrayFails tn (offset + data.length) array
  · left
    refine ⟨hfail, ?_⟩
    simp only [reallocPageArray_fails hfail]
  right
  refine ⟨hfail, ?_⟩
  obtain ⟨k, hrealloc, hlen⟩ := reallocPageArray_ok hfail
  set grown : TmpfsNode := { tn with pages := tn.pages ++ replicate k none } with hgrown
  have hpages : ∀ j, grown.pages.page j = tn.pages.page j := page_append_replicate tn.pages k
  have hbyte : ∀ i, byteAt grown i = byteAt tn i := fun i => get_congr (hpages _)
  have hblocked : ∀ i, Blocked grown page i ↔ Blocked tn page i := fun i => by
    rw [Blocked, Blocked, hpages]
  have hroom : offset + data.length ≤ grown.pages.length * pageSize := by
    by_contra hlt
    have hpage := lt_pagesFor_iff.mpr (not_le.mp hlt)
    simp only [hgrown, length_append, length_replicate] at hpage
    omega
  have hspec : WriteLoopSpec page offset data grown _ := writeLoop_spec page le_rfl hroom
  refine ⟨writeLoop page data.length offset data grown, ⟨hspec.type, hspec.size, hspec.vfsSize,
    ?_, ?_, ?_⟩, ?_⟩
  · simpa only [hblocked] using hspec.err
  · simpa only [hblocked] using hspec.copied
  · simpa only [hblocked, hbyte] using hspec.kept
  · simp only [hrealloc]
    obtain ⟨e, tn'⟩ := writeLoop page data.length offset data grown
    cases e <;> rfl

/-! ### The list of bytes -/

/-- A write of the list. -/
def modelWrite (m data : List UInt8) (offset : ℕ) : List UInt8 :=
  (range (max m.length (offset + data.length))).map fun i =>
    if offset ≤ i ∧ i < offset + data.length then data.getD (i - offset) 0 else m.getD i 0

/-- The list with another length. -/
def modelTruncate (m : List UInt8) (length : ℕ) : List UInt8 :=
  (range length).map fun i => m.getD i 0

@[simp] theorem length_modelWrite (data : List UInt8) (offset : ℕ) :
    (modelWrite m data offset).length = max m.length (offset + data.length) := by
  simp [modelWrite]

@[simp] theorem length_modelTruncate (length : ℕ) : (modelTruncate m length).length = length := by
  simp [modelTruncate]

theorem getD_modelWrite {i : ℕ} (h : i < max m.length (offset + data.length)) :
    (modelWrite m data offset).getD i 0 =
      if offset ≤ i ∧ i < offset + data.length then data.getD (i - offset) 0 else m.getD i 0 := by
  rw [modelWrite, getD_eq_getElem?_getD, getElem?_map, getElem?_range h]
  rfl

theorem getD_modelTruncate {i : ℕ} (h : i < length) :
    (modelTruncate m length).getD i 0 = m.getD i 0 := by
  rw [modelTruncate, getD_eq_getElem?_getD, getElem?_map, getElem?_range h]
  rfl

/-! ### When a write keeps the agreement -/

/-- A write that does not get the array of pages is harmless. One that does not get a page must not
have changed a byte of the file in front of it. One that succeeds must not have bytes other than 0
in the gap between the end of the file and what it writes. -/
def WriteSafe (tn : TmpfsNode) (data : List UInt8) (offset : ℕ) (array : Bool) (page : ℕ → Bool) :
    Prop :=
  ¬ArrayFails tn (offset + data.length) array →
    ((∃ i, offset ≤ i ∧ i < offset + data.length ∧ Blocked tn page i) →
      ∀ i, offset ≤ i → i < offset + data.length → i < tn.size →
        (∀ k, offset ≤ k → k ≤ i → ¬Blocked tn page k) → byteAt tn i = data.getD (i - offset) 0) ∧
    ((∀ i, offset ≤ i → i < offset + data.length → ¬Blocked tn page i) →
      ∀ i, tn.size ≤ i → i < offset → byteAt tn i = 0)

/-- The file after a successful write. -/
theorem sameBytes_written_iff (h : SameBytes tn m) (hr : WriteLoopSpec page offset data tn r)
    (hok : ∀ i, offset ≤ i → i < offset + data.length → ¬Blocked tn page i) :
    SameBytes (if r.2.size < offset + data.length then setSize r.2 (offset + data.length) else r.2)
      (modelWrite m data offset) ↔ ∀ i, tn.size ≤ i → i < offset → byteAt tn i = 0 := by
  have hsize := h.size
  have hnew := hr.size.trans h.size
  have hvfs := hr.vfsSize.trans h.vfsSize
  have hbytes : ∀ i, byteAt
      (if r.2.size < offset + data.length then setSize r.2 (offset + data.length) else r.2) i =
        byteAt r.2 i := by
    intro i
    split_ifs <;> rfl
  constructor
  · intro hsame i hlo hhi
    have hi := hsame.byte i (by simp; omega)
    rw [hbytes, hr.kept i (.inl hhi), getD_modelWrite (by omega), if_neg (by omega)] at hi
    rw [hi, getD_eq_default _ _ (by omega)]
  intro hgap
  refine ⟨?_, ?_, fun i hi => ?_⟩
  · simp only [length_modelWrite, apply_ite TmpfsNode.size, hnew, setSize]
    split_ifs <;> omega
  · simp only [length_modelWrite, apply_ite TmpfsNode.vfsSize, hvfs, setSize]
    split_ifs <;> omega
  rw [length_modelWrite] at hi
  rw [hbytes, getD_modelWrite hi]
  split_ifs with hin
  · exact hr.copied i hin.1 hin.2 fun k hk hki => hok k hk (by omega)
  rw [hr.kept i (by omega)]
  rcases lt_or_ge i m.length with him | him
  · exact h.byte i him
  · rw [hgap i (by omega) (by omega), getD_eq_default _ _ him]

/-- The file after a write that did not get a page. -/
theorem sameBytes_stopped_iff (h : SameBytes tn m) (hr : WriteLoopSpec page offset data tn r) :
    SameBytes r.2 m ↔ ∀ i, offset ≤ i → i < offset + data.length → i < tn.size →
      (∀ k, offset ≤ k → k ≤ i → ¬Blocked tn page k) →
        byteAt tn i = data.getD (i - offset) 0 := by
  have hsize := h.size
  constructor
  · intro hsame i hlo hhi hi hfree
    rw [h.byte i (by omega), ← hsame.byte i (by omega), hr.copied i hlo hhi hfree]
  intro hcopied
  refine ⟨by rw [hr.size, h.size], by rw [hr.vfsSize, h.vfsSize], fun i hi => ?_⟩
  by_cases hfree : offset ≤ i ∧ i < offset + data.length ∧
      ∀ k, offset ≤ k → k ≤ i → ¬Blocked tn page k
  · obtain ⟨hlo, hhi, hfree⟩ := hfree
    rw [hr.copied i hlo hhi hfree, ← hcopied i hlo hhi (by omega) hfree, h.byte i hi]
  rw [hr.kept i ?_, h.byte i hi]
  by_contra hnot
  push Not at hnot
  exact hfree ⟨hnot.1, hnot.2.1, hnot.2.2⟩

theorem sameBytes_write_iff (htype : tn.type = .file) (h : SameBytes tn m)
    (hfit : offset + data.length < 2 ^ 64) :
    SameBytes (tmpfsWrite tn data offset array page).2
      (if (tmpfsWrite tn data offset array page).1 = .ok then modelWrite m data offset else m) ↔
      WriteSafe tn data offset array page := by
  rcases tmpfsWrite_cases htype page hfit with ⟨hfail, heq⟩ | ⟨hfail, r, hr, heq⟩
  · rw [heq]
    exact ⟨fun _ hnot => absurd hfail hnot, fun _ => h⟩
  rw [heq]
  by_cases hok : r.1 = .ok
  · have hfree := hr.err.mp hok
    rw [if_pos hok]
    simp only [↓reduceIte]
    rw [sameBytes_written_iff h hr hfree]
    constructor
    · intro hgap _
      refine ⟨?_, fun _ => hgap⟩
      rintro ⟨i, hlo, hhi, hblocked⟩
      exact absurd hblocked (hfree i hlo hhi)
    · exact fun hsafe => (hsafe hfail).2 hfree
  · have hblocked : ∃ i, offset ≤ i ∧ i < offset + data.length ∧ Blocked tn page i := by
      by_contra hnot
      push Not at hnot
      exact hok (hr.err.mpr hnot)
    rw [if_neg hok, if_neg hok, sameBytes_stopped_iff h hr]
    constructor
    · intro hcopied _
      refine ⟨fun _ => hcopied, fun hfree => ?_⟩
      exact absurd (hr.err.mpr hfree) hok
    · exact fun hsafe => (hsafe hfail).1 hblocked

/-! ### When a truncation keeps the agreement -/

/-- The array of pages gets another length, and there is no memory for it. -/
def ResizeFails (tn : TmpfsNode) (length : ℕ) (array : Bool) : Prop :=
  pagesFor length ≠ tn.pages.length ∧ array = false ∧ 0 < pagesFor length

/-- A truncation that does not get the new array must not have freed a page with bytes other than 0.
One that makes the file longer must not have such bytes past the page of the old end. -/
def TruncateSafe (tn : TmpfsNode) (length : ℕ) (array page : Bool) : Prop :=
  (ResizeFails tn length array →
    ∀ i, pagesFor length * pageSize ≤ i → i < tn.size → byteAt tn i = 0) ∧
  (¬ResizeFails tn length array → tn.size < length →
    (tn.pages.page (tn.size / pageSize) = none → page = true) →
      ∀ i, (tn.size / pageSize + 1) * pageSize ≤ i → i < length → byteAt tn i = 0)

/-- The table of pages cut off and filled up. -/
private theorem page_take_append (pages : PagedArray UInt8) (n k j : ℕ) :
    PagedArray.page (pages.take n ++ replicate k none) j =
      if j < n then pages.page j else none := by
  rw [page_append_replicate, page_take]

/-- The bytes of a file whose pages past `n` are missing. -/
private theorem byteAt_of_pages (tn tn' : TmpfsNode)
    (h : ∀ j, tn'.pages.page j = if j < n then tn.pages.page j else none) (i : ℕ) :
    byteAt tn' i = if i < n * pageSize then byteAt tn i else 0 := by
  by_cases hi : i < n * pageSize
  · rw [if_pos hi]
    apply get_congr
    rw [h, if_pos ((Nat.div_lt_iff_lt_mul pageSize_pos).mpr hi)]
  · rw [if_neg hi]
    apply get_eq_default
    rw [h, if_neg fun hlt => hi ((Nat.div_lt_iff_lt_mul pageSize_pos).mp hlt)]

theorem resizeArray_cases (tn : TmpfsNode) (length : ℕ) (array : Bool) :
    (ResizeFails tn length array ∧
      resizeArray (freePages tn (pagesFor length)) (pagesFor length) array =
        (.noMem, freePages tn (pagesFor length))) ∨
    (¬ResizeFails tn length array ∧ ∃ pages : PagedArray UInt8,
      resizeArray (freePages tn (pagesFor length)) (pagesFor length) array =
        (.ok, { tn with pages }) ∧ pages.length = pagesFor length ∧
      ∀ j, pages.page j = if j < pagesFor length then tn.pages.page j else none) := by
  have hlen : (freePages tn (pagesFor length)).pages.length = tn.pages.length := by
    simp only [freePages, length_append, length_take, length_replicate]
    omega
  unfold resizeArray
  by_cases hne : pagesFor length ≠ tn.pages.length
  · by_cases hfail : array = false ∧ 0 < pagesFor length
    · left
      exact ⟨⟨hne, hfail⟩, by rw [if_pos (by omega), if_pos hfail]⟩
    right
    refine ⟨fun h => hfail h.2, _, by rw [if_pos (by omega), if_neg hfail]; rfl, ?_, fun j => ?_⟩
    · simp only [length_append, length_take, length_replicate, hlen]
      omega
    · simp only [freePages, page_take_append]
      split_ifs <;> rfl
  · right
    refine ⟨fun h => hne h.1, (freePages tn (pagesFor length)).pages,
      by rw [if_neg (by omega)]; rfl, by omega, fun j => ?_⟩
    rw [freePages, page_take_append]

theorem clearTail_cases (tn : TmpfsNode) {pages : PagedArray UInt8} (page : Bool)
    (hlen : pages.length = pagesFor length) :
    (tn.size < length ∧ pages.page (tn.size / pageSize) = none ∧ page = false ∧
      clearTail { tn with pages } length page = (.noMem, { tn with pages })) ∨
    (tn.size < length ∧ (pages.page (tn.size / pageSize) = none → page = true) ∧
      ∃ pages', clearTail { tn with pages } length page = (.ok, { tn with pages := pages' }) ∧
      ∀ i < length, pages'.get pageSize i =
        if tn.size ≤ i ∧ i < (tn.size / pageSize + 1) * pageSize then 0
        else pages.get pageSize i) ∨
    (length ≤ tn.size ∧ clearTail { tn with pages } length page = (.ok, { tn with pages })) := by
  unfold clearTail
  by_cases hgrow : tn.size < length
  · have hlast := div_lt_pagesFor hgrow
    simp only [if_pos (And.intro hgrow hlast)]
    cases hslot : obtainPage { tn with pages } (tn.size / pageSize) page with
    | none =>
      obtain ⟨hnone, hpage⟩ := obtainPage_eq_none.mp hslot
      exact .inl ⟨hgrow, hnone, hpage, rfl⟩
    | some p =>
      right; left
      refine ⟨hgrow, fun hnone => ?_, _, rfl, fun i hi => ?_⟩
      · by_contra hpage
        rw [obtainPage_eq_none.mpr ⟨hnone, by simpa using hpage⟩] at hslot
        cases hslot
      have hmod := Nat.mod_lt tn.size pageSize_pos
      have hdiv := Nat.div_add_mod tn.size pageSize
      rw [get_set_copyIn pageSize_pos pages p tn.size _ (by omega)
        (by rw [length_replicate]; omega) (obtainPage_eq_some hslot), length_replicate]
      have hrange : (tn.size ≤ i ∧ i < tn.size + min (pageSize - tn.size % pageSize)
          (length - tn.size)) ↔ tn.size ≤ i ∧ i < (tn.size / pageSize + 1) * pageSize := by
        unfold pageSize at *
        omega
      by_cases hin : tn.size ≤ i ∧ i < (tn.size / pageSize + 1) * pageSize
      · rw [if_pos (hrange.mpr hin), if_pos hin]
        rw [getD_eq_getElem?_getD, getElem?_replicate]
        split_ifs <;> rfl
      · rw [if_neg (fun h => hin (hrange.mp h)), if_neg hin]
  · right; right
    rw [if_neg fun h => hgrow h.1]
    exact ⟨not_lt.mp hgrow, rfl⟩

theorem sameBytes_truncate_iff (htype : tn.type = .file) (h : SameBytes tn m) {page : Bool} :
    SameBytes (tmpfsTruncate tn length array page).2
      (if (tmpfsTruncate tn length array page).1 = .ok then modelTruncate m length else m) ↔
      TruncateSafe tn length array page := by
  have hsize := h.size
  unfold tmpfsTruncate
  rw [if_neg (by simp [htype])]
  rcases resizeArray_cases tn length array with ⟨hfail, heq⟩ | ⟨hfail, pages, heq, hlen, hpages⟩
  · -- the pages past the new end are gone
    have hbytes := byteAt_of_pages tn (freePages tn (pagesFor length))
      (page_take_append tn.pages (pagesFor length) _)
    simp only [heq, reduceCtorEq, ↓reduceIte]
    constructor
    · intro hsame
      refine ⟨fun _ i hlo hhi => ?_, fun hnot => absurd hfail hnot⟩
      rw [h.byte i (by omega), ← hsame.byte i (by omega), hbytes, if_neg (by omega)]
    intro hsafe
    refine ⟨h.size, h.vfsSize, fun i hi => ?_⟩
    rw [hbytes, ← h.byte i hi]
    split_ifs with hin
    · rfl
    · exact (hsafe.1 hfail i (by omega) (by omega)).symm
  · have hbytes := byteAt_of_pages tn { tn with pages } hpages
    have hkeep : ∀ i < length, pages.get pageSize i = byteAt tn i := fun i hi => by
      have hlt := (Nat.div_lt_iff_lt_mul pageSize_pos).mp (div_lt_pagesFor hi)
      exact (hbytes i).trans (if_pos hlt)
    simp only [heq]
    rcases clearTail_cases tn page hlen with
      ⟨hgrow, hnone, hpage, htail⟩ | ⟨hgrow, hpage, pages', htail, hget⟩ | ⟨hshrink, htail⟩
    · -- the page of the old end is not there
      simp only [htail, reduceCtorEq, ↓reduceIte]
      have hlast := div_lt_pagesFor hgrow
      rw [hpages, if_pos hlast] at hnone
      constructor
      · intro _
        refine ⟨fun hf => absurd hf hfail, fun _ _ hget => ?_⟩
        rw [hget hnone] at hpage
        cases hpage
      · intro _
        exact ⟨h.size, h.vfsSize, fun i hi => (hkeep i (by omega)).trans (h.byte i hi)⟩
    · simp only [htail, ↓reduceIte]
      rw [hpages, if_pos (div_lt_pagesFor hgrow)] at hpage
      have hold := Nat.div_add_mod tn.size pageSize
      have hmod := Nat.mod_lt tn.size pageSize_pos
      constructor
      · intro hsame
        refine ⟨fun hf => absurd hf hfail, fun _ _ _ i hlo hhi => ?_⟩
        have hi := hsame.byte i (by simpa using hhi)
        rw [getD_modelTruncate hhi, getD_eq_default _ _ (by unfold pageSize at *; omega)] at hi
        rw [← hkeep i hhi, ← hi]
        exact ((hget i hhi).trans (if_neg (by omega))).symm
      · intro hsafe
        refine ⟨by simp [setSize], by simp [setSize], fun i hi => ?_⟩
        rw [length_modelTruncate] at hi
        rw [getD_modelTruncate hi]
        refine (hget i hi).trans ?_
        split_ifs with hin
        · rw [getD_eq_default _ _ (by omega)]
        rw [hkeep i hi]
        rcases lt_or_ge i m.length with him | him
        · exact h.byte i him
        · rw [hsafe.2 hfail hgrow hpage i (by omega) hi, getD_eq_default _ _ him]
    · simp only [htail, ↓reduceIte]
      constructor
      · exact fun _ => ⟨fun hf => absurd hf hfail, fun _ hgrow => absurd hgrow (by omega)⟩
      intro _
      refine ⟨by simp [setSize], by simp [setSize], fun i hi => ?_⟩
      rw [length_modelTruncate] at hi
      rw [getD_modelTruncate hi]
      exact (hkeep i hi).trans (h.byte i (by omega))

end Charmos.Fs
