import Charmos.Lib.BitField
import Mathlib.Logic.Function.Basic
import Mathlib.Tactic.Linarith

/-!
# Page structs and buddy metadata

Every page frame has one 64-bit word `meta` in `mem_global.page_array`, shared by all owners
of the frame: bits 0–2 hold the tag of the owner, and a page of the buddy allocator packs its
free flag, its zeroed flag, the order of its block and the frame number of the next block of
its free list into the rest (`mem/page.h`, `mem/buddy/internal.h`). The back link of a free
list does not fit and is stored in the free page itself, reached through the direct map.

A `struct buddy_page *` is modelled by its frame number, which is its index in the page array;
the null pointer is `none`. Frame number `0` doubles as the null link.
-/

namespace Charmos.Mem

open BitField Function

/-- How a call fails to return: a panic, a failed `enforce`, a null dereference, or a loop
that never ends. -/
inductive Crash
  | panic (msg : String)
  | enforce (cond : String)
  | nullDeref
  | diverges
  deriving DecidableEq, Repr

/-- `enforce(cond)`. -/
def enforce (cond : Bool) (text : String) : Except Crash Unit :=
  if cond then .ok () else .error (.enforce text)

/-- `enum page_tag`, the low three bits of the word. -/
inductive PageTag
  | none
  | buddy
  | folio
  | arena
  deriving DecidableEq, Repr

/-- The value of a tag in the word. -/
def PageTag.code : PageTag → ℕ
  | .none => 0
  | .buddy => 1
  | .folio => 2
  | .arena => 3

/-- The fields of `buddy_page::meta`. -/
inductive MetaField
  | tag
  | isFree
  | isZeroed
  | order
  | nextPfn
  deriving DecidableEq, Repr

/-- The first bit of a field. -/
def MetaField.shift : MetaField → ℕ
  | .tag => 0
  | .isFree => 3
  | .isZeroed => 4
  | .order => 5
  | .nextPfn => 12

/-- The number of bits of a field. -/
def MetaField.bits : MetaField → ℕ
  | .tag => 3
  | .isFree => 1
  | .isZeroed => 1
  | .order => 7
  | .nextPfn => 52

theorem MetaField.fits (f : MetaField) : f.shift + f.bits ≤ 64 := by cases f <;> decide

theorem MetaField.apart {f g : MetaField} (h : f ≠ g) : Apart f.shift f.bits g.shift g.bits := by
  cases f <;> cases g <;> first | exact absurd rfl h | decide

/-- Physical memory as the buddy allocator sees it: the page array, the back links stored in
free pages, and `mem_global.last_pfn`. -/
structure PageMem where
  word : ℕ → BitVec 64
  freeLink : ℕ → Option ℕ
  lastPfn : ℕ

namespace PageMem

variable (m : PageMem)

/-- The value of a field of the word of frame `pfn`. -/
def get (pfn : ℕ) (f : MetaField) : ℕ := read (m.word pfn) f.shift f.bits

/-- Overwrite a field of the word of frame `pfn`. -/
def set (pfn : ℕ) (f : MetaField) (v : ℕ) : PageMem :=
  { m with word := update m.word pfn (write (m.word pfn) f.shift f.bits v) }

/-- `buddy_page_free_link(bp)->prev = prev`. -/
def setPrev (pfn : ℕ) (prev : Option ℕ) : PageMem :=
  { m with freeLink := update m.freeLink pfn prev }

@[simp] theorem get_set (p q : ℕ) (f g : MetaField) (v : ℕ) :
    (m.set p f v).get q g = if q = p ∧ g = f then v % 2 ^ f.bits else m.get q g := by
  by_cases hq : q = p
  · subst hq
    by_cases hf : g = f
    · subst hf
      simp [get, set, read_write_self _ g.fits]
    · simp [get, set, hf, read_write_apart _ (MetaField.apart (Ne.symm hf))]
  · simp [get, set, hq]

@[simp] theorem lastPfn_set (p : ℕ) (f : MetaField) (v : ℕ) :
    (m.set p f v).lastPfn = m.lastPfn := rfl

theorem word_set_of_ne {p q : ℕ} (h : q ≠ p) (f : MetaField) (v : ℕ) :
    (m.set p f v).word q = m.word q := update_of_ne h _ _

theorem set_eq_self {p : ℕ} {f : MetaField} {v : ℕ} (h : m.get p f = v) : m.set p f v = m := by
  subst h
  simp only [set, get, write_read_self, update_eq_self]

end PageMem

/-! ### The accessors of `mem/page.h` and `mem/buddy/internal.h` -/

section Accessors

variable (m : PageMem)

/-- `page_get_tag`. -/
def pageGetTag (pfn : ℕ) : ℕ := m.get pfn .tag

/-- `page_set_tag`. -/
def pageSetTag (pfn : ℕ) (tag : PageTag) : PageMem := m.set pfn .tag tag.code

/-- `page_assert_tag`. -/
def pageAssertTag (pfn : ℕ) (expected : PageTag) : Except Crash Unit :=
  enforce (pageGetTag m pfn == expected.code) "page_get_tag(p) == expected"

/-- `page_for_pfn` and `buddy_page_for_pfn`: null past the end of the page array. -/
def pageForPfn (pfn : ℕ) : Option ℕ := if m.lastPfn ≤ pfn then none else some pfn

/-- Dereference a pointer to a page struct. -/
def derefPage : Option ℕ → Except Crash ℕ
  | none => .error .nullDeref
  | some pfn => .ok pfn

/-- `buddy_page_get_order`. -/
def buddyPageGetOrder (pfn : ℕ) : ℕ := m.get pfn .order

/-- `buddy_page_set_order`. -/
def buddyPageSetOrder (pfn order : ℕ) : PageMem := m.set pfn .order order

/-- `buddy_page_get_next_pfn`. -/
def buddyPageGetNextPfn (pfn : ℕ) : ℕ := m.get pfn .nextPfn

/-- `buddy_page_set_next_pfn`. -/
def buddyPageSetNextPfn (pfn next : ℕ) : PageMem := m.set pfn .nextPfn next

/-- `buddy_page_is_free`: both the tag and the flag are checked. -/
def buddyPageIsFree (pfn : ℕ) : Bool :=
  pageGetTag m pfn == PageTag.buddy.code && m.get pfn .isFree != 0

/-- `buddy_page_set_free`. -/
def buddyPageSetFree (pfn : ℕ) (isFree : Bool) : PageMem := m.set pfn .isFree isFree.toNat

/-- `buddy_page_pfn_free`. -/
def buddyPagePfnFree (pfn : ℕ) : Bool := if m.lastPfn ≤ pfn then false else buddyPageIsFree m pfn

/-- `buddy_page_set_next`. -/
def buddyPageSetNext (pfn : ℕ) (next : Option ℕ) : PageMem :=
  match next with
  | none => buddyPageSetNextPfn m pfn 0
  | some n => buddyPageSetNextPfn m pfn n

/-- `buddy_page_get_next`: frame number `0` is the null link. -/
def buddyPageGetNext (pfn : ℕ) : Option ℕ :=
  if buddyPageGetNextPfn m pfn = 0 then none else pageForPfn m (buddyPageGetNextPfn m pfn)

/-- `buddy_page_get_prev`. -/
def buddyPageGetPrev (pfn : ℕ) : Option ℕ := m.freeLink pfn

/-- `buddy_page_set_prev`. -/
def buddyPageSetPrev (pfn : ℕ) (prev : Option ℕ) : PageMem := m.setPrev pfn prev

/-- `buddy_page_tag`. -/
def buddyPageTag (pfn : ℕ) : PageMem := pageSetTag m pfn .buddy

/-- `buddy_page_untag`. -/
def buddyPageUntag (pfn : ℕ) : PageMem := pageSetTag m pfn .none

end Accessors

/-- `PAGE_SIZE`. -/
def pageSize : ℕ := 4096

/-- `PAGE_TO_PFN`. -/
def pageToPfn (addr : ℕ) : ℕ := addr / pageSize

/-- `PFN_TO_PAGE`. -/
def pfnToPage (pfn : ℕ) : ℕ := pfn * pageSize

@[simp] theorem pageToPfn_pfnToPage (pfn : ℕ) : pageToPfn (pfnToPage pfn) = pfn :=
  Nat.mul_div_cancel _ (by decide)

end Charmos.Mem
