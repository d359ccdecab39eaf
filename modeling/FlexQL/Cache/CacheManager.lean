import FlexQL.Cache.LRUCache

/-!
# The cache in front of a pager

A `CacheManager` answers a page request from the cache, or asks the pager and remembers the
answer. The cache of a manager always holds the pager's own pointers, so for an allocated page it
makes no difference what is cached.
-/

namespace FlexQL

structure CacheManager where
  cache : LRUCache
  pager : Pager
  wellFormed : cache.WellFormed
  points : cache.Points

namespace CacheManager

/-- A manager with an empty cache in front of a new pager. -/
def init (capacity : ℕ) : CacheManager :=
  ⟨.init capacity, .init, LRUCache.init_wellFormed capacity, by simp [LRUCache.Points, LRUCache.init]⟩

/-- `pager.get_num_pages()`. -/
def numPages (m : CacheManager) : ℕ := m.pager.numPages

def getPage (m : CacheManager) (pageId : ℕ) : Option ℕ × CacheManager :=
  match (m.cache.get pageId).1 with
  | some page =>
    (some page,
      ⟨(m.cache.get pageId).2, m.pager, m.wellFormed.get pageId, m.points.get pageId⟩)
  | none =>
    (m.pager.getPage pageId,
      ⟨((m.cache.get pageId).2.put m.pager pageId (m.pager.getPage pageId) false).1,
        ((m.cache.get pageId).2.put m.pager pageId (m.pager.getPage pageId) false).2,
        (m.wellFormed.get pageId).put _ _ _ _,
        (m.points.get pageId).put (m.wellFormed.get pageId) _ (by simp [Pager.getPage]) _⟩)

def markDirty (m : CacheManager) (pageId : ℕ) : CacheManager :=
  match h : (m.cache.get pageId).1 with
  | some page =>
    ⟨((m.cache.get pageId).2.put m.pager pageId (some page) true).1,
      ((m.cache.get pageId).2.put m.pager pageId (some page) true).2,
      (m.wellFormed.get pageId).put _ _ _ _,
      (m.points.get pageId).put (m.wellFormed.get pageId) _
        (by simpa using m.wellFormed.get_eq m.points h) _⟩
  | none => ⟨(m.cache.get pageId).2, m.pager, m.wellFormed.get pageId, m.points.get pageId⟩

def flush (m : CacheManager) : CacheManager :=
  ⟨(m.cache.flushAllInternal m.pager).1, (m.cache.flushAllInternal m.pager).2,
    m.wellFormed.flushAllInternal _, m.points.flushAllInternal _⟩

def clear (m : CacheManager) : CacheManager :=
  ⟨(m.cache.clear m.pager).1, (m.cache.clear m.pager).2, LRUCache.WellFormed.clear _ _,
    by simp [LRUCache.Points, LRUCache.clear]⟩

/-- `pager.clear()` on the pager behind the cache. -/
def clearPager (m : CacheManager) : CacheManager := { m with pager := m.pager.clear }

/-- `pager.allocate_page()` on the pager behind the cache. -/
def allocatePage (m : CacheManager) : ℕ × CacheManager :=
  (m.pager.allocatePage.1, { m with pager := m.pager.allocatePage.2 })

/-- The cache is transparent for allocated pages. -/
theorem getPage_of_lt {m : CacheManager} {pageId : ℕ} (h : pageId < m.numPages) :
    (m.getPage pageId).1 = some (pageOffset pageId) := by
  unfold getPage
  cases hget : (m.cache.get pageId).1 with
  | some page =>
    dsimp only
    rw [m.wellFormed.get_eq m.points hget]
  | none => exact Pager.getPage_of_lt h

@[simp] theorem init_numPages (capacity : ℕ) : (init capacity).numPages = 0 := rfl

@[simp] theorem getPage_numPages (m : CacheManager) (pageId : ℕ) :
    (m.getPage pageId).2.numPages = m.numPages := by
  unfold getPage
  cases (m.cache.get pageId).1 with
  | some page => rfl
  | none => simp [numPages]

@[simp] theorem markDirty_numPages (m : CacheManager) (pageId : ℕ) :
    (m.markDirty pageId).numPages = m.numPages := by
  unfold markDirty
  split
  · simp [numPages]
  · rfl

@[simp] theorem clearPager_numPages (m : CacheManager) : m.clearPager.numPages = 0 := rfl

@[simp] theorem allocatePage_fst (m : CacheManager) : m.allocatePage.1 = m.numPages := rfl

theorem allocatePage_numPages {m : CacheManager} (h : m.numPages + 1 < 2 ^ 32) :
    m.allocatePage.2.numPages = m.numPages + 1 := Nat.mod_eq_of_lt h

end CacheManager

end FlexQL
