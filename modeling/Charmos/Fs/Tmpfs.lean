import Charmos.Lib.PagedArray

/-!
# Files in memory

A file of tmpfs is an array of pages, of which those that were never written are missing.
`tmpfs_write` makes the array long enough, copies page by page and makes the pages that are missing;
`tmpfs_truncate` drops the pages past the new end, and clears the rest of the last page when the
file grows. Every allocation can fail. Which ones do is an argument of the call: `array` for the
array of pages, `page` for each page by its index.

Sizes and offsets are numbers; the sum of an offset and a size is taken modulo `2 ^ 64`.
-/

namespace Charmos.Fs

/-- `enum tmpfs_type`. -/
inductive TmpfsType
  | file
  | dir
  | symlink
  deriving DecidableEq

/-- `enum err`, as far as it occurs here. -/
inductive TmpfsErr
  | ok
  | noMem
  | isDir
  deriving DecidableEq

/-- `struct tmpfs_node`, with the `size` of its `struct vfs_node`. The length of the list is
`num_pages`. -/
structure TmpfsNode where
  type : TmpfsType
  pages : PagedArray UInt8
  size : ℕ
  vfsSize : ℕ

/-- `PAGE_SIZE`. -/
def pageSize : ℕ := 4096

/-- `DIV_ROUND_UP(bytes, PAGE_SIZE)`. -/
def pagesFor (bytes : ℕ) : ℕ :=
  bytes / pageSize + if bytes % pageSize ≠ 0 then 1 else 0

/-- A page after `memset` with 0. -/
def zeroPage : ℕ → UInt8 :=
  fun _ => 0

/-- What `tmpfs_read` copies from one page. -/
def readPiece (tn : TmpfsNode) (offset toCopy : ℕ) : List UInt8 :=
  match tn.pages.page (offset / pageSize) with
  | none => List.replicate toCopy 0
  | some p => (List.range toCopy).map fun k => p (offset % pageSize + k)

/-- The loop of `tmpfs_read`: what it puts into the buffer. -/
def readLoop (tn : TmpfsNode) : (fuel offset size : ℕ) → List UInt8
  | 0, _, _ => []
  | fuel + 1, offset, size =>
    if size = 0 then []
    else
      let toCopy := min (pageSize - offset % pageSize) size
      readPiece tn offset toCopy ++ readLoop tn fuel (offset + toCopy) (size - toCopy)

/-- The error, and what is put into the buffer. -/
def tmpfsRead (tn : TmpfsNode) (size offset : ℕ) : TmpfsErr × List UInt8 :=
  if tn.type ≠ .file then (.isDir, [])
  else if tn.size ≤ offset then (.ok, [])
  else
    let size := if tn.size < (offset + size) % 2 ^ 64 then tn.size - offset else size
    (.ok, readLoop tn size offset size)

/-- `tn->size` and `node->size` are set together. -/
def setSize (tn : TmpfsNode) (size : ℕ) : TmpfsNode :=
  { tn with size, vfsSize := size }

def reallocPageArray (tn : TmpfsNode) (requiredPages : ℕ) (array : Bool) : TmpfsErr × TmpfsNode :=
  if tn.pages.length < requiredPages then
    if array then
      (.ok, { tn with
        pages := tn.pages ++ List.replicate (requiredPages - tn.pages.length) none })
    else (.noMem, tn)
  else (.ok, tn)

/-- The page with an index, made if it is missing. -/
def obtainPage (tn : TmpfsNode) (pageIdx : ℕ) (alloc : Bool) : Option (ℕ → UInt8) :=
  match tn.pages.page pageIdx with
  | some p => some p
  | none => if alloc then some zeroPage else none

/-- The loop of `tmpfs_write`. -/
def writeLoop (page : ℕ → Bool) :
    (fuel offset : ℕ) → List UInt8 → TmpfsNode → TmpfsErr × TmpfsNode
  | 0, _, _, tn => (.ok, tn)
  | fuel + 1, offset, data, tn =>
    if data.length = 0 then (.ok, tn)
    else
      let pageIdx := offset / pageSize
      let toCopy := min (pageSize - offset % pageSize) data.length
      match obtainPage tn pageIdx (page pageIdx) with
      | none => (.noMem, tn)
      | some p =>
        writeLoop page fuel (offset + toCopy) (data.drop toCopy)
          { tn with
            pages := tn.pages.set pageIdx
              (some (PagedArray.copyIn p (offset % pageSize) (data.take toCopy))) }

def tmpfsWrite (tn : TmpfsNode) (data : List UInt8) (offset : ℕ) (array : Bool) (page : ℕ → Bool) :
    TmpfsErr × TmpfsNode :=
  if tn.type ≠ .file then (.isDir, tn)
  else
    let last := (offset + data.length) % 2 ^ 64
    match reallocPageArray tn (pagesFor last) array with
    | (.ok, tn) =>
      match writeLoop page data.length offset data tn with
      | (.ok, tn) => (.ok, if tn.size < last then setSize tn last else tn)
      | (e, tn) => (e, tn)
    | (e, tn) => (e, tn)

/-- The loop of `tmpfs_truncate` that frees the pages past the new end. -/
def freePages (tn : TmpfsNode) (newPages : ℕ) : TmpfsNode :=
  { tn with pages := tn.pages.take newPages ++ List.replicate (tn.pages.length - newPages) none }

/-- The new array of pages in `tmpfs_truncate`. An array of no pages cannot fail. -/
def resizeArray (tn : TmpfsNode) (newPages : ℕ) (array : Bool) : TmpfsErr × TmpfsNode :=
  if newPages ≠ tn.pages.length then
    if array = false ∧ 0 < newPages then (.noMem, tn)
    else
      (.ok, { tn with
        pages := tn.pages.take newPages ++ List.replicate (newPages - tn.pages.length) none })
  else (.ok, tn)

/-- What `tmpfs_truncate` does to the page of the old end when the file grows. -/
def clearTail (tn : TmpfsNode) (length : ℕ) (page : Bool) : TmpfsErr × TmpfsNode :=
  let lastPageIdx := tn.size / pageSize
  let lastOffset := tn.size % pageSize
  if tn.size < length ∧ lastPageIdx < pagesFor length then
    match obtainPage tn lastPageIdx page with
    | none => (.noMem, tn)
    | some p =>
      let toZero := min (pageSize - lastOffset) (length - tn.size)
      (.ok, { tn with
        pages := tn.pages.set lastPageIdx
          (some (PagedArray.copyIn p lastOffset (List.replicate toZero 0))) })
  else (.ok, tn)

def tmpfsTruncate (tn : TmpfsNode) (length : ℕ) (array page : Bool) : TmpfsErr × TmpfsNode :=
  if tn.type ≠ .file then (.isDir, tn)
  else
    match resizeArray (freePages tn (pagesFor length)) (pagesFor length) array with
    | (.ok, tn) =>
      match clearTail tn length page with
      | (.ok, tn) => (.ok, setSize tn length)
      | (e, tn) => (e, tn)
    | (e, tn) => (e, tn)

end Charmos.Fs
