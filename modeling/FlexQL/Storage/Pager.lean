import Mathlib.Algebra.Group.Nat.Defs
import Mathlib.Data.Nat.Basic

/-!
# Pages of a mapped file

A `Pager` maps one gigabyte of a file and hands out its 4096-byte pages by number. A `Page*` is
modelled by its byte offset from the start of the mapping. The offset is computed in 32-bit
arithmetic, as in the source, and the pager never compares it with the size of the mapping.
The bytes of the file live outside the pager, because two pagers on one path share them.
-/

namespace FlexQL

/-- Undefined behaviour of the source, and loops that do not end. -/
inductive Fault
  /-- A null pointer is dereferenced. -/
  | nullPointer
  /-- A page outside the one-gigabyte mapping is touched. -/
  | unmapped
  /-- An array or vector index is out of range. -/
  | outOfBounds
  /-- An array is read up to a terminator that was never written. -/
  | unterminated
  /-- A loop comes back to a page it has already seen and so never ends. -/
  | endlessLoop
  deriving DecidableEq, Repr

/-- `PAGE_SIZE`. -/
def pageSize : ℕ := 4096

/-- `MAX_FILE_SIZE`, the size of the mapping in bytes. -/
def mapSize : ℕ := 2 ^ 30

/-- `0xFFFFFFFF`, the page number that stands for no page. -/
def noPage : ℕ := 2 ^ 32 - 1

/-- The number of whole pages in the mapping. -/
def mappedPages : ℕ := 2 ^ 18

structure Pager where
  /-- `num_pages`, a 32-bit counter. -/
  numPages : ℕ
  /-- The pages passed to `msync` one at a time, most recent first. -/
  flushed : List ℕ
  deriving DecidableEq, Repr

/-- `page_id * PAGE_SIZE` in 32-bit arithmetic. -/
def pageOffset (pageId : ℕ) : ℕ := pageId * pageSize % 2 ^ 32

namespace Pager

/-- The constructor. It opens, truncates and maps the file, and starts with no page whatever the
file holds. -/
def init : Pager := ⟨0, []⟩

def getPage (p : Pager) (pageId : ℕ) : Option ℕ :=
  if pageId ≥ p.numPages then none else some (pageOffset pageId)

/-- The new page number and the pager behind the allocation. -/
def allocatePage (p : Pager) : ℕ × Pager :=
  (p.numPages, { p with numPages := (p.numPages + 1) % 2 ^ 32 })

def flush (p : Pager) (pageId : ℕ) : Pager := { p with flushed := pageId :: p.flushed }

def clear (p : Pager) : Pager := { p with numPages := 0 }

@[simp] theorem flush_numPages (p : Pager) (pageId : ℕ) : (p.flush pageId).numPages = p.numPages :=
  rfl

@[simp] theorem clear_numPages (p : Pager) : p.clear.numPages = 0 := rfl

theorem getPage_of_lt {p : Pager} {pageId : ℕ} (h : pageId < p.numPages) :
    p.getPage pageId = some (pageOffset pageId) := if_neg (by omega)

end Pager

/-- The use of a `Page*`: it has to point to a page inside the mapping. -/
def mapped : Option ℕ → Except Fault ℕ
  | none => .error .nullPointer
  | some off => if off + pageSize ≤ mapSize then .ok off else .error .unmapped

/-- Page numbers of the mapping have the expected offset. -/
theorem pageOffset_of_lt {pageId : ℕ} (h : pageId < mappedPages) :
    pageOffset pageId = pageId * 4096 := by
  simp only [mappedPages] at h
  simp only [pageOffset, pageSize]
  omega

theorem pageOffset_inj {a b : ℕ} (ha : a < mappedPages) (hb : b < mappedPages)
    (h : pageOffset a = pageOffset b) : a = b := by
  rw [pageOffset_of_lt ha, pageOffset_of_lt hb] at h
  omega

theorem mapped_of_lt {pageId : ℕ} (h : pageId < mappedPages) :
    mapped (some (pageOffset pageId)) = .ok (pageOffset pageId) := by
  have hoff := pageOffset_of_lt h
  simp only [mappedPages] at h
  rw [mapped, if_pos]
  simp only [hoff, pageSize, mapSize]
  omega

/-- The first page number past the mapping is outside it. -/
theorem mapped_end : mapped (some (pageOffset mappedPages)) = .error .unmapped := by
  decide

attribute [irreducible] pageOffset

end FlexQL
