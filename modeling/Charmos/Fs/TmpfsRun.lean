import Charmos.Fs.TmpfsSpec

/-!
# Runs of the operations on a file in memory

A file starts empty, and writes and truncations follow in any order, with allocations failing where
the arguments say. Beside the file goes the list of bytes that it is meant to be: an operation that
succeeds is done to the list as well, one that fails is not.
-/

namespace Charmos.Fs

open List

/-- The operations that change a file, with the allocations that they get. -/
inductive TmpfsAct
  | write (data : List UInt8) (offset : ℕ) (array : Bool) (page : ℕ → Bool)
  | truncate (length : ℕ) (array page : Bool)

namespace TmpfsAct

/-- The sizes and offsets are within 64 bits. -/
def Fits : TmpfsAct → Prop
  | write data offset _ _ => offset + data.length < 2 ^ 64
  | truncate length _ _ => length < 2 ^ 64

/-- The condition under which the operation leaves the file as it is meant to be. -/
def Safe (tn : TmpfsNode) : TmpfsAct → Prop
  | write data offset array page => WriteSafe tn data offset array page
  | truncate length array page => TruncateSafe tn length array page

end TmpfsAct

/-- A file, and the list of bytes that it is meant to be. -/
structure TmpfsSys where
  node : TmpfsNode
  bytes : List UInt8

/-- An empty file. -/
def emptyFile : TmpfsSys where
  node := { type := .file, pages := [], size := 0, vfsSize := 0 }
  bytes := []

def tmpfsStep (s : TmpfsSys) : TmpfsAct → TmpfsSys
  | .write data offset array page =>
    let r := tmpfsWrite s.node data offset array page
    ⟨r.2, if r.1 = .ok then modelWrite s.bytes data offset else s.bytes⟩
  | .truncate length array page =>
    let r := tmpfsTruncate s.node length array page
    ⟨r.2, if r.1 = .ok then modelTruncate s.bytes length else s.bytes⟩

/-- One operation after the other. -/
def tmpfsRun (s : TmpfsSys) (acts : List TmpfsAct) : TmpfsSys :=
  acts.foldl tmpfsStep s

/-- The node is a file, and its length is within 64 bits. -/
structure TmpfsSys.WellFormed (s : TmpfsSys) : Prop where
  type : s.node.type = .file
  length : s.bytes.length < 2 ^ 64

variable {s : TmpfsSys} {a : TmpfsAct}

theorem tmpfsWrite_type {tn : TmpfsNode} (htype : tn.type = .file) {data : List UInt8} {offset : ℕ}
    {array : Bool} {page : ℕ → Bool} (hfit : offset + data.length < 2 ^ 64) :
    (tmpfsWrite tn data offset array page).2.type = .file := by
  rcases tmpfsWrite_cases htype page hfit with ⟨-, heq⟩ | ⟨-, r, hr, heq⟩
  · rw [heq, htype]
  rw [heq]
  split_ifs
  · exact hr.type.trans htype
  · exact hr.type.trans htype
  · exact hr.type.trans htype

theorem tmpfsTruncate_type (tn : TmpfsNode) (length : ℕ) (array page : Bool) :
    (tmpfsTruncate tn length array page).2.type = tn.type := by
  unfold tmpfsTruncate
  split_ifs
  · rfl
  rcases resizeArray_cases tn length array with ⟨-, heq⟩ | ⟨-, pages, heq, hlen, -⟩
  · simp only [heq]
    rfl
  · simp only [heq]
    rcases clearTail_cases tn page hlen with
      ⟨-, -, -, htail⟩ | ⟨-, -, pages', htail, -⟩ | ⟨-, htail⟩ <;> simp only [htail, setSize]

theorem TmpfsSys.WellFormed.step (h : s.WellFormed) (hfit : a.Fits) :
    (tmpfsStep s a).WellFormed := by
  have hlength := h.length
  cases a with
  | write data offset array page =>
    refine ⟨tmpfsWrite_type h.type hfit, ?_⟩
    have hfit : offset + data.length < 2 ^ 64 := hfit
    simp only [tmpfsStep]
    split_ifs
    · rw [length_modelWrite]
      omega
    · exact hlength
  | truncate length array page =>
    refine ⟨(tmpfsTruncate_type s.node length array page).trans h.type, ?_⟩
    simp only [tmpfsStep]
    split_ifs
    · rw [length_modelTruncate]
      exact hfit
    · exact hlength

/-- A step keeps the agreement if and only if it meets the condition. -/
theorem agrees_step_iff (h : s.WellFormed) (hfit : a.Fits) (hs : Agrees s.node s.bytes) :
    Agrees (tmpfsStep s a).node (tmpfsStep s a).bytes ↔ a.Safe s.node := by
  have hnext := h.step hfit
  rw [agrees_iff hnext.type hnext.length]
  rw [agrees_iff h.type h.length] at hs
  cases a with
  | write data offset array page => exact sameBytes_write_iff h.type hs hfit
  | truncate length array page => exact sameBytes_truncate_iff h.type hs

/-- The runs from any state in which the file is the list. -/
theorem run_agrees_iff {acts : List TmpfsAct} (hfit : ∀ a ∈ acts, a.Fits) (h : s.WellFormed)
    (hs : Agrees s.node s.bytes) :
    (∀ pre, pre <+: acts → Agrees (tmpfsRun s pre).node (tmpfsRun s pre).bytes) ↔
      ∀ pre a, pre ++ [a] <+: acts → a.Safe (tmpfsRun s pre).node := by
  induction acts generalizing s with
  | nil =>
    constructor
    · intro _ pre a hpre
      simp at hpre
    · intro _ pre hpre
      rw [prefix_nil.mp hpre]
      exact hs
  | cons a acts ih =>
    have hstep := agrees_step_iff h (hfit a mem_cons_self) hs
    have htail := fun hagrees => ih (fun b hb => hfit b (mem_cons_of_mem a hb))
      (h.step (hfit a mem_cons_self)) hagrees
    constructor
    · intro hall
      have hagrees := hall [a] (by simp)
      have hrest := (htail hagrees).mp fun pre hpre =>
        hall (a :: pre) (cons_prefix_cons.mpr ⟨rfl, hpre⟩)
      intro pre b hpre
      cases pre with
      | nil =>
        obtain ⟨rfl, -⟩ := cons_prefix_cons.mp hpre
        exact hstep.mp hagrees
      | cons c pre =>
        obtain ⟨rfl, hrestpre⟩ := cons_prefix_cons.mp hpre
        exact hrest pre b hrestpre
    · intro hall
      have hagrees := hstep.mpr (hall [] a (by simp))
      have hrest := (htail hagrees).mpr fun pre b hpre =>
        hall (a :: pre) b (cons_prefix_cons.mpr ⟨rfl, hpre⟩)
      intro pre hpre
      cases pre with
      | nil => exact hs
      | cons c pre =>
        obtain ⟨rfl, hrestpre⟩ := cons_prefix_cons.mp hpre
        exact hrest pre hrestpre

theorem emptyFile_wellFormed : emptyFile.WellFormed :=
  ⟨rfl, by simp [emptyFile]⟩

theorem emptyFile_agrees : Agrees emptyFile.node emptyFile.bytes := by
  rw [agrees_iff emptyFile_wellFormed.type emptyFile_wellFormed.length]
  exact ⟨rfl, rfl, fun i hi => absurd hi (by simp [emptyFile])⟩

/-- A file is the list of bytes that it is meant to be after every operation of a run, that is, it
has the length of the list and every read returns what the list has there, if and only if every
operation meets the condition `TmpfsAct.Safe` in the state it starts from. -/
theorem tmpfsRun_agrees_iff (acts : List TmpfsAct) (hfit : ∀ a ∈ acts, a.Fits) :
    (∀ pre, pre <+: acts →
      Agrees (tmpfsRun emptyFile pre).node (tmpfsRun emptyFile pre).bytes) ↔
      ∀ pre a, pre ++ [a] <+: acts → a.Safe (tmpfsRun emptyFile pre).node :=
  run_agrees_iff hfit emptyFile_wellFormed emptyFile_agrees

/-- A write to the empty file, and one past its end, with a byte of the page in between. -/
theorem tmpfsRun_agrees_iff_gap :
    let acts : List TmpfsAct :=
      [.write [7, 8] 0 true fun _ => true, .write [9] 3 true fun _ => true]
    (tmpfsRun emptyFile acts).bytes = [7, 8, 0, 9] ∧
      Agrees (tmpfsRun emptyFile acts).node (tmpfsRun emptyFile acts).bytes := by
  intro acts
  refine ⟨by decide +kernel, (tmpfsRun_agrees_iff acts ?_).mpr ?_ _ (prefix_refl _)⟩
  · simp [acts, TmpfsAct.Fits]
  intro pre a hpre
  obtain ⟨rfl, rfl⟩ | ⟨rfl, rfl⟩ : pre = [] ∧ a = .write [7, 8] 0 true (fun _ => true) ∨
      pre = [.write [7, 8] 0 true fun _ => true] ∧ a = .write [9] 3 true fun _ => true := by
    rcases pre with _ | ⟨b, _ | ⟨c, pre⟩⟩
    · exact .inl ⟨rfl, (cons_prefix_cons.mp hpre).1⟩
    · obtain ⟨rfl, hrest⟩ := cons_prefix_cons.mp hpre
      exact .inr ⟨rfl, (cons_prefix_cons.mp hrest).1⟩
    · exact absurd hpre.length_le (by simp [acts])
  · refine fun _ => ⟨?_, fun _ i _ hi => absurd hi (Nat.not_lt_zero i)⟩
    rintro ⟨i, -, -, -, hfail⟩
    cases hfail
  · refine fun _ => ⟨?_, fun _ i hlow hi => ?_⟩
    · rintro ⟨i, -, -, -, hfail⟩
      cases hfail
    · obtain rfl : i = 2 := le_antisymm (Nat.lt_succ_iff.mp hi) hlow
      decide +kernel

/-- Two bytes are written, the file is cut to one byte, and a byte is written past the end: the gap
is not 0, but the byte that was cut off. -/
theorem tmpfsRun_stale :
    (tmpfsRun emptyFile [.write [1, 1] 0 true fun _ => true, .truncate 1 true true,
      .write [1] 2 true fun _ => true]).bytes = [1, 0, 1] ∧
    tmpfsRead (tmpfsRun emptyFile [.write [1, 1] 0 true fun _ => true, .truncate 1 true true,
      .write [1] 2 true fun _ => true]).node 3 0 = (.ok, [1, 1, 1]) := by
  decide +kernel

end Charmos.Fs
