import FlexQL.Cache.CacheManager
import FlexQL.Lib.Runs

/-!
# The cache along runs

Whatever is asked of a `CacheManager` and of the pager behind it, the cache gives the answers of the
pager, and no dirty page is dropped before it has been flushed.
-/

namespace FlexQL

open Runs

namespace LRUCache

variable {c : LRUCache} {pager : Pager} {pageId : ℕ} {page : Option ℕ} {dirty : Bool}

@[simp] theorem mem_get {n : ℕ × CacheEntry} : n ∈ (c.get pageId).2.lruList ↔ n ∈ c.lruList := by
  unfold get
  cases c.map pageId with
  | none => exact Iff.rfl
  | some it => exact mem_splice

/-- The entry that is served, when it holds a page. -/
theorem WellFormed.exists_of_get (h : c.WellFormed) {p : ℕ} (hget : (c.get pageId).1 = some p) :
    ∃ n ∈ c.lruList, n.2.pageId = pageId ∧ n.2.page = some p := by
  cases hmap : c.map pageId with
  | none => simp [LRUCache.get, hmap] at hget
  | some it =>
    obtain ⟨e, he, hid⟩ := h.mem_of_map pageId it hmap
    have hlookup := h.lookup he
    simp only [LRUCache.get, hmap, hlookup, Option.bind_some] at hget
    exact ⟨(it, e), he, hid, hget⟩

/-- An entry with a page is served. -/
theorem WellFormed.get_of_mem (h : c.WellFormed) {n : ℕ × CacheEntry} (hn : n ∈ c.lruList) :
    (c.get n.2.pageId).1 = n.2.page := by
  simp only [LRUCache.get, h.map_of_mem n hn, h.lookup hn, Option.bind_some]

/-- One page has one entry. -/
theorem WellFormed.eq_of_pageId (h : c.WellFormed) {n m : ℕ × CacheEntry} (hn : n ∈ c.lruList)
    (hm : m ∈ c.lruList) (heq : n.2.pageId = m.2.pageId) : n.2 = m.2 := by
  have hit : n.1 = m.1 := by
    have := h.map_of_mem n hn
    rw [heq, h.map_of_mem m hm] at this
    exact (Option.some.inj this).symm
  have hlookup := h.lookup hn
  rw [hit, h.lookup hm] at hlookup
  exact (Option.some.inj hlookup).symm

/-- The node behind the iterator of a page is the node of that page. -/
theorem WellFormed.fst_eq_iff (h : c.WellFormed) {it : ℕ} (hmap : c.map pageId = some it)
    {n : ℕ × CacheEntry} (hn : n ∈ c.lruList) : n.1 = it ↔ n.2.pageId = pageId := by
  constructor
  · intro hit
    obtain ⟨e, he, hid⟩ := h.mem_of_map pageId it hmap
    have hlookup := h.lookup hn
    rw [hit, h.lookup he] at hlookup
    rw [← Option.some.inj hlookup, hid]
  · intro hid
    have := h.map_of_mem n hn
    rw [hid, hmap] at this
    exact (Option.some.inj this).symm

/-! ## What each operation does to the entries -/

/-- Entries that a step drops have been flushed if they were dirty. -/
structure Kept (c : LRUCache) (pager : Pager) (c' : LRUCache) (pager' : Pager) (past : ℕ → Prop) :
    Prop where
  numPages_eq : pager'.numPages = pager.numPages
  flushed : ∃ new, pager'.flushed = new ++ pager.flushed ∧ ∀ n ∈ c.lruList, past n.2.pageId →
    n.2.dirty = true → (∃ n' ∈ c'.lruList, n'.2 = n.2) ∨ n.2.pageId ∈ new

theorem kept_of_mem {c' : LRUCache} {past : ℕ → Prop}
    (h : ∀ n ∈ c.lruList, past n.2.pageId → n ∈ c'.lruList) : Kept c pager c' pager past :=
  ⟨rfl, [], rfl, fun n hn hpast _ => Or.inl ⟨n, h n hn hpast, rfl⟩⟩

theorem evictInternal_kept (c : LRUCache) (pager : Pager) :
    Kept c pager (c.evictInternal pager).1 (c.evictInternal pager).2 fun _ => True := by
  unfold evictInternal
  cases hlast : c.lruList.getLast? with
  | none => exact kept_of_mem fun n hn _ => hn
  | some last =>
    obtain ⟨l, hl⟩ := List.getLast?_eq_some_iff.mp hlast
    have hdrop : c.lruList.dropLast = l := by rw [hl, List.dropLast_concat]
    have hcases : ∀ n ∈ c.lruList, n ∈ c.lruList.dropLast ∨ n = last := by
      intro n hn
      rw [hdrop]
      simpa [hl] using hn
    cases hdirty : last.2.dirty with
    | true =>
      refine ⟨by simp [hdirty], [last.2.pageId], by simp [hdirty, Pager.flush], ?_⟩
      intro n hn _ _
      rcases hcases n hn with hn' | rfl
      · exact Or.inl ⟨n, hn', rfl⟩
      · exact Or.inr List.mem_cons_self
    | false =>
      refine ⟨by simp [hdirty], [], by simp [hdirty], ?_⟩
      intro n hn _ hd
      rcases hcases n hn with hn' | rfl
      · exact Or.inl ⟨n, hn', rfl⟩
      · rw [hdirty] at hd
        cases hd

theorem evictInternal_subset {n : ℕ × CacheEntry} (h : n ∈ (c.evictInternal pager).1.lruList) :
    n ∈ c.lruList := by
  unfold evictInternal at h
  cases hlast : c.lruList.getLast? with
  | none => simpa [hlast] using h
  | some last => exact List.dropLast_subset _ (by simpa [hlast] using h)

/-- `put` leaves the entries of other pages alone, or evicts one of them. -/
theorem WellFormed.put_kept (h : c.WellFormed) (pager : Pager) (pageId : ℕ) (page : Option ℕ)
    (dirty : Bool) :
    Kept c pager (c.put pager pageId page dirty).1 (c.put pager pageId page dirty).2
      (· ≠ pageId) := by
  unfold LRUCache.put
  cases hmap : c.map pageId with
  | some it =>
    refine kept_of_mem fun n hn hne => mem_splice.mpr (List.mem_map.mpr ⟨n, hn, if_neg ?_⟩)
    exact fun hit => hne ((h.fst_eq_iff hmap hn).mp hit)
  | none =>
    dsimp only
    split
    · obtain ⟨hnum, new, hnew, hkept⟩ := evictInternal_kept c pager
      refine ⟨hnum, new, hnew, fun n hn _ hd => ?_⟩
      rcases hkept n hn trivial hd with ⟨n', hn', heq⟩ | hn'
      · exact Or.inl ⟨n', List.mem_cons_of_mem _ hn', heq⟩
      · exact Or.inr hn'
    · exact kept_of_mem fun n hn _ => List.mem_cons_of_mem _ hn

/-- The entries behind `put`: those before it, and the one that was put. -/
theorem WellFormed.mem_put (h : c.WellFormed) {n : ℕ × CacheEntry}
    (hn : n ∈ (c.put pager pageId page dirty).1.lruList) :
    n.2 = ⟨pageId, page, dirty⟩ ∨ n ∈ c.lruList := by
  unfold LRUCache.put at hn
  cases hmap : c.map pageId with
  | some it =>
    simp only [hmap, mem_splice] at hn
    obtain ⟨m, hm, rfl⟩ := List.mem_map.mp hn
    by_cases hit : m.1 = it
    · rw [if_pos hit, ← (h.fst_eq_iff hmap hm).mp hit]
      exact Or.inl rfl
    · rw [if_neg hit]
      exact Or.inr hm
  | none =>
    simp only [hmap] at hn
    rcases List.mem_cons.mp hn with rfl | hn
    · exact Or.inl rfl
    · split at hn
      · exact Or.inr (evictInternal_subset hn)
      · exact Or.inr hn

theorem WellFormed.exists_put (h : c.WellFormed) (pager : Pager) (pageId : ℕ) (page : Option ℕ)
    (dirty : Bool) :
    ∃ n ∈ (c.put pager pageId page dirty).1.lruList, n.2 = ⟨pageId, page, dirty⟩ := by
  unfold LRUCache.put
  cases hmap : c.map pageId with
  | some it =>
    obtain ⟨e, he, hid⟩ := h.mem_of_map pageId it hmap
    refine ⟨(it, { e with page := page, dirty := dirty }), ?_, by rw [← hid]⟩
    exact mem_splice.mpr (List.mem_map.mpr ⟨(it, e), he, if_pos rfl⟩)
  | none => exact ⟨_, List.mem_cons_self, rfl⟩

theorem flushed_foldl (l : List (ℕ × CacheEntry)) (pager : Pager) :
    ∃ new, (l.foldl (fun p n => if n.2.dirty then p.flush n.2.pageId else p) pager).flushed =
        new ++ pager.flushed ∧
      (l.foldl (fun p n => if n.2.dirty then p.flush n.2.pageId else p) pager).numPages =
        pager.numPages ∧
      ∀ pageId, pageId ∈ new ↔ ∃ n ∈ l, n.2.pageId = pageId ∧ n.2.dirty = true := by
  induction l generalizing pager with
  | nil => exact ⟨[], rfl, rfl, by simp⟩
  | cons m l ih =>
    rw [List.foldl_cons]
    cases hdirty : m.2.dirty with
    | true =>
      obtain ⟨new, hnew, hnum, hmem⟩ := ih (pager.flush m.2.pageId)
      refine ⟨new ++ [m.2.pageId], by simpa [Pager.flush] using hnew, by simpa using hnum, ?_⟩
      intro pageId
      simp only [List.mem_append, hmem, List.mem_singleton, List.exists_mem_cons_iff, hdirty, and_true]
      rw [or_comm, eq_comm]
    | false =>
      obtain ⟨new, hnew, hnum, hmem⟩ := ih pager
      refine ⟨new, by simpa using hnew, by simpa using hnum, ?_⟩
      intro pageId
      simp [hmem, hdirty]

end LRUCache

namespace CacheManager

variable {m : CacheManager} {pageId : ℕ}

/-- A call on a `CacheManager`, or on the pager behind it. -/
inductive Op
  | getPage (pageId : ℕ)
  | markDirty (pageId : ℕ)
  | flush
  | clear
  /-- `clear` of the manager, and right behind it `clear` of the pager. -/
  | clearBoth
  | allocatePage
  deriving DecidableEq, Repr

def step (m : CacheManager) : Op → Except Fault CacheManager
  | .getPage pageId => .ok (m.getPage pageId).2
  | .markDirty pageId => .ok (m.markDirty pageId)
  | .flush => .ok m.flush
  | .clear => .ok m.clear
  | .clearBoth => .ok m.clear.clearPager
  | .allocatePage => .ok m.allocatePage.2

/-- The page is in the cache. -/
def Resident (m : CacheManager) (pageId : ℕ) : Prop :=
  ∃ n ∈ m.cache.lruList, n.2.pageId = pageId ∧ n.2.page ≠ none

instance (m : CacheManager) (pageId : ℕ) : Decidable (m.Resident pageId) :=
  inferInstanceAs (Decidable (∃ n ∈ m.cache.lruList, n.2.pageId = pageId ∧ n.2.page ≠ none))

/-- The page is in the cache, and its dirty flag is set. -/
def Dirty (m : CacheManager) (pageId : ℕ) : Prop :=
  ∃ n ∈ m.cache.lruList, n.2.pageId = pageId ∧ n.2.dirty = true

/-- Between two states, the page was flushed. -/
def FlushedSince (m m' : CacheManager) (pageId : ℕ) : Prop :=
  ∃ new, m'.pager.flushed = new ++ m.pager.flushed ∧ pageId ∈ new

/-- The cache gives the answers of the pager. -/
def Transparent (m : CacheManager) : Prop := ∀ pageId, (m.getPage pageId).1 = m.pager.getPage pageId

/-- Allocations for which the 32-bit page counter does not wrap around. -/
def Counted (m : CacheManager) (op : Op) : Prop := op = .allocatePage → m.numPages + 1 < 2 ^ 32

instance (m : CacheManager) (op : Op) : Decidable (Counted m op) :=
  inferInstanceAs (Decidable (op = .allocatePage → m.numPages + 1 < 2 ^ 32))

/-- Only allocated pages have a pointer in the cache, and only pages with a pointer are dirty. -/
structure Faithful (m : CacheManager) : Prop where
  allocated : ∀ n ∈ m.cache.lruList, n.2.page ≠ none → n.2.pageId < m.numPages
  dirty : ∀ n ∈ m.cache.lruList, n.2.dirty = true → n.2.page ≠ none

theorem Faithful.transparent (h : m.Faithful) : m.Transparent := by
  intro pageId
  cases hget : (m.cache.get pageId).1 with
  | none =>
    unfold getPage
    split
    · rename_i page hpage
      rw [hget] at hpage
      cases hpage
    · rfl
  | some p =>
    obtain ⟨n, hn, rfl, hpage⟩ := m.wellFormed.exists_of_get hget
    have hlt := h.allocated n hn (by simp [hpage])
    rw [CacheManager.getPage_of_lt hlt, Pager.getPage_of_lt hlt]

/-! ## One step -/

/-- A request is served from the cache, or the answer of the pager is put into it. -/
theorem getPage_cases (m : CacheManager) (pageId : ℕ) :
    ((m.getPage pageId).2.cache = (m.cache.get pageId).2 ∧
        (m.getPage pageId).2.pager = m.pager) ∨
      (m.cache.get pageId).1 = none ∧
        (m.getPage pageId).2.cache =
          ((m.cache.get pageId).2.put m.pager pageId (m.pager.getPage pageId) false).1 ∧
        (m.getPage pageId).2.pager =
          ((m.cache.get pageId).2.put m.pager pageId (m.pager.getPage pageId) false).2 := by
  unfold getPage
  split
  · exact Or.inl ⟨rfl, rfl⟩
  · rename_i hget
    exact Or.inr ⟨hget, rfl, rfl⟩

/-- A page that is not in the cache is not marked. -/
theorem markDirty_cases (m : CacheManager) (pageId : ℕ) :
    ((m.cache.get pageId).1 = none ∧ (m.markDirty pageId).cache = (m.cache.get pageId).2 ∧
        (m.markDirty pageId).pager = m.pager) ∨
      ∃ p, (m.cache.get pageId).1 = some p ∧
        (m.markDirty pageId).cache = ((m.cache.get pageId).2.put m.pager pageId (some p) true).1 ∧
        (m.markDirty pageId).pager =
          ((m.cache.get pageId).2.put m.pager pageId (some p) true).2 := by
  unfold markDirty
  split
  · rename_i p hget
    exact Or.inr ⟨p, hget, rfl, rfl⟩
  · rename_i hget
    exact Or.inl ⟨hget, rfl, rfl⟩

/-- What a step does: dirty pages stay dirty or are flushed, and the state stays faithful. -/
structure Stepped (m m' : CacheManager) : Prop where
  faithful : m'.Faithful
  writesBack : ∃ new, m'.pager.flushed = new ++ m.pager.flushed ∧
    ∀ pageId, m.Dirty pageId → m'.Dirty pageId ∨ pageId ∈ new

theorem Faithful.getPage (h : m.Faithful) (pageId : ℕ) : Stepped m (m.getPage pageId).2 := by
  rcases getPage_cases m pageId with ⟨hcache, hpager⟩ | ⟨hget, hcache, hpager⟩
  · have hmem : ∀ n, n ∈ (m.getPage pageId).2.cache.lruList ↔ n ∈ m.cache.lruList := by
      rw [hcache]
      exact fun n => LRUCache.mem_get
    constructor
    · constructor
      · intro n hn
        rw [getPage_numPages]
        exact h.allocated n ((hmem n).mp hn)
      · exact fun n hn => h.dirty n ((hmem n).mp hn)
    · refine ⟨[], by rw [hpager]; rfl, ?_⟩
      rintro id ⟨n, hn, hid, hd⟩
      exact Or.inl ⟨n, (hmem n).mpr hn, hid, hd⟩
  · have hw := m.wellFormed.get pageId
    constructor
    · constructor
      · intro n hn hpage
        rw [getPage_numPages]
        rw [hcache] at hn
        rcases hw.mem_put hn with heq | hn
        · rw [heq] at hpage ⊢
          by_contra hge
          exact hpage (if_pos (Nat.le_of_not_lt hge))
        · exact h.allocated n (LRUCache.mem_get.mp hn) hpage
      · intro n hn hd
        rw [hcache] at hn
        rcases hw.mem_put hn with heq | hn
        · rw [heq] at hd
          cases hd
        · exact h.dirty n (LRUCache.mem_get.mp hn) hd
    · have hkept := hw.put_kept m.pager pageId (m.pager.getPage pageId) false
      obtain ⟨new, hnew, hkeeps⟩ := hkept.flushed
      refine ⟨new, by rw [hpager, hnew], ?_⟩
      rintro id ⟨n, hn, rfl, hd⟩
      -- the page that is put was not dirty
      have hne : n.2.pageId ≠ pageId := by
        rintro rfl
        rw [m.wellFormed.get_of_mem hn] at hget
        exact h.dirty n hn hd hget
      rcases hkeeps n (LRUCache.mem_get.mpr hn) hne hd with ⟨n', hn', heq⟩ | hflushed
      · rw [← hcache] at hn'
        exact Or.inl ⟨n', hn', by rw [heq], by rw [heq, hd]⟩
      · exact Or.inr hflushed

theorem Faithful.markDirty (h : m.Faithful) (pageId : ℕ) : Stepped m (m.markDirty pageId) := by
  have hnum := markDirty_numPages m pageId
  rcases markDirty_cases m pageId with ⟨-, hcache, hpager⟩ | ⟨p, hget, hcache, hpager⟩
  · have hmem : ∀ n, n ∈ (m.markDirty pageId).cache.lruList ↔ n ∈ m.cache.lruList := by
      rw [hcache]
      exact fun n => LRUCache.mem_get
    refine ⟨⟨fun n hn => ?_, fun n hn => h.dirty n ((hmem n).mp hn)⟩, [], by rw [hpager]; rfl, ?_⟩
    · rw [hnum]
      exact h.allocated n ((hmem n).mp hn)
    · rintro id ⟨n, hn, hid, hd⟩
      exact Or.inl ⟨n, (hmem n).mpr hn, hid, hd⟩
  · have hw := m.wellFormed.get pageId
    obtain ⟨n₀, hn₀, hid₀, hpage₀⟩ := m.wellFormed.exists_of_get hget
    constructor
    · constructor
      · intro n hn hpage
        rw [hnum]
        rw [hcache] at hn
        rcases hw.mem_put hn with heq | hn
        · rw [heq]
          exact hid₀ ▸ h.allocated n₀ hn₀ (by simp [hpage₀])
        · exact h.allocated n (LRUCache.mem_get.mp hn) hpage
      · intro n hn hd
        rw [hcache] at hn
        rcases hw.mem_put hn with heq | hn
        · simp [heq]
        · exact h.dirty n (LRUCache.mem_get.mp hn) hd
    · obtain ⟨new, hnew, hkeeps⟩ := (hw.put_kept m.pager pageId (some p) true).flushed
      refine ⟨new, by rw [hpager, hnew], ?_⟩
      rintro id ⟨n, hn, rfl, hd⟩
      by_cases heq : n.2.pageId = pageId
      · obtain ⟨n', hn', heq'⟩ := hw.exists_put m.pager pageId (some p) true
        rw [← hcache] at hn'
        exact Or.inl ⟨n', hn', by rw [heq', heq], by rw [heq']⟩
      · rcases hkeeps n (LRUCache.mem_get.mpr hn) heq hd with ⟨n', hn', heq'⟩ | hflushed
        · rw [← hcache] at hn'
          exact Or.inl ⟨n', hn', by rw [heq'], by rw [heq', hd]⟩
        · exact Or.inr hflushed

/-- Marking a page that is in the cache makes it dirty. -/
theorem dirty_markDirty (h : m.Resident pageId) : (m.markDirty pageId).Dirty pageId := by
  obtain ⟨n, hn, rfl, hpage⟩ := h
  rcases markDirty_cases m n.2.pageId with ⟨hget, -, -⟩ | ⟨p, -, hcache, -⟩
  · rw [m.wellFormed.get_of_mem hn] at hget
    exact absurd hget hpage
  · obtain ⟨n', hn', heq⟩ := (m.wellFormed.get n.2.pageId).exists_put m.pager n.2.pageId (some p) true
    rw [← hcache] at hn'
    exact ⟨n', hn', by rw [heq], by rw [heq]⟩

/-- Marking a page that is not in the cache leaves no trace. -/
theorem Faithful.not_dirty_markDirty (h : m.Faithful) (hevicted : ¬ m.Resident pageId) :
    ¬ (m.markDirty pageId).Dirty pageId := by
  rintro ⟨n, hn, hid, hd⟩
  rcases markDirty_cases m pageId with ⟨-, hcache, -⟩ | ⟨p, hget, -, -⟩
  · rw [hcache] at hn
    have hn' := LRUCache.mem_get.mp hn
    exact hevicted ⟨n, hn', hid, h.dirty n hn' hd⟩
  · obtain ⟨n₀, hn₀, hid₀, hpage₀⟩ := m.wellFormed.exists_of_get hget
    exact hevicted ⟨n₀, hn₀, hid₀, by simp [hpage₀]⟩

/-- Every dirty page is flushed when the cache is flushed or cleared. -/
theorem writesBack_of_flushAll (m : CacheManager) {m' : CacheManager}
    (hflushed : m'.pager.flushed = (m.cache.flushAllInternal m.pager).2.flushed) :
    ∃ new, m'.pager.flushed = new ++ m.pager.flushed ∧
      ∀ pageId, m.Dirty pageId → m'.Dirty pageId ∨ pageId ∈ new := by
  obtain ⟨new, hnew, -, hmem⟩ := LRUCache.flushed_foldl m.cache.lruList m.pager
  refine ⟨new, hflushed.trans hnew, ?_⟩
  exact fun pageId hd => Or.inr ((hmem pageId).mpr hd)

/-- A flush passes the dirty pages to the pager. -/
theorem flush_flushed (m : CacheManager) :
    ∃ new, m.flush.pager.flushed = new ++ m.pager.flushed ∧ ∀ pageId, pageId ∈ new ↔ m.Dirty pageId := by
  obtain ⟨new, hnew, -, hmem⟩ := LRUCache.flushed_foldl m.cache.lruList m.pager
  exact ⟨new, hnew, hmem⟩

/-- A flush passes a page to the pager just when it is dirty. -/
theorem flushedSince_flush_iff : FlushedSince m m.flush pageId ↔ m.Dirty pageId := by
  obtain ⟨new, hnew, hmem⟩ := m.flush_flushed
  constructor
  · rintro ⟨new', hnew', hmem'⟩
    rw [hnew] at hnew'
    exact (hmem pageId).mp (List.append_cancel_right hnew' ▸ hmem')
  · exact fun hd => ⟨new, hnew, (hmem pageId).mpr hd⟩

theorem flush_numPages (m : CacheManager) : m.flush.numPages = m.numPages := by
  obtain ⟨-, -, hnum, -⟩ := LRUCache.flushed_foldl m.cache.lruList m.pager
  exact hnum

theorem Faithful.flush (h : m.Faithful) : Stepped m m.flush := by
  refine ⟨⟨?_, ?_⟩, writesBack_of_flushAll m rfl⟩
  · intro n hn hpage
    obtain ⟨n', hn', rfl⟩ := List.mem_map.mp hn
    rw [flush_numPages]
    exact h.allocated n' hn' hpage
  · intro n hn hd
    obtain ⟨n', -, rfl⟩ := List.mem_map.mp hn
    cases hd

/-- Nothing is cached behind `clear`, so the pager may be cleared too. -/
theorem stepped_of_clear (m : CacheManager) {m' : CacheManager} (hcache : m'.cache.lruList = [])
    (hflushed : m'.pager.flushed = (m.cache.flushAllInternal m.pager).2.flushed) : Stepped m m' := by
  refine ⟨⟨?_, ?_⟩, writesBack_of_flushAll m hflushed⟩
  · intro n hn
    rw [hcache] at hn
    cases hn
  · intro n hn
    rw [hcache] at hn
    cases hn

theorem Faithful.allocatePage (h : m.Faithful) (hnum : m.numPages + 1 < 2 ^ 32) :
    Stepped m m.allocatePage.2 := by
  refine ⟨⟨?_, h.dirty⟩, [], rfl, fun _ hd => Or.inl hd⟩
  intro n hn hpage
  have := h.allocated n hn hpage
  rw [allocatePage_numPages hnum]
  omega

/-- Every step keeps the state faithful and drops no dirty page. -/
theorem Faithful.step (h : m.Faithful) {op : Op} (hcount : Counted m op) :
    ∃ m', step m op = .ok m' ∧ Stepped m m' := by
  cases op with
  | getPage pageId => exact ⟨_, rfl, h.getPage pageId⟩
  | markDirty pageId => exact ⟨_, rfl, h.markDirty pageId⟩
  | flush => exact ⟨_, rfl, h.flush⟩
  | clear => exact ⟨_, rfl, stepped_of_clear m rfl rfl⟩
  | clearBoth => exact ⟨_, rfl, stepped_of_clear m rfl rfl⟩
  | allocatePage => exact ⟨_, rfl, h.allocatePage (hcount rfl)⟩

/-! ## Runs -/

theorem init_faithful (capacity : ℕ) : (init capacity).Faithful :=
  ⟨fun _ hn => (List.not_mem_nil hn).elim, fun _ hn => (List.not_mem_nil hn).elim⟩

theorem Stepped.refl (h : m.Faithful) : Stepped m m := ⟨h, [], rfl, fun _ hd => Or.inl hd⟩

theorem Stepped.trans {m' m'' : CacheManager} (h : Stepped m m') (h' : Stepped m' m'') :
    Stepped m m'' := by
  obtain ⟨new, hnew, hdirty⟩ := h.writesBack
  obtain ⟨new', hnew', hdirty'⟩ := h'.writesBack
  refine ⟨h'.faithful, new' ++ new, by rw [hnew', hnew, List.append_assoc], ?_⟩
  intro pageId hd
  rcases hdirty pageId hd with hd | hmem
  · exact (hdirty' pageId hd).imp_right (List.mem_append_left _)
  · exact Or.inr (List.mem_append_right _ hmem)

/-- The steps of a run, put together. -/
theorem Faithful.run {ops : List Op} (h : m.Faithful) (hguard : Guarded CacheManager.step Counted m ops) :
    ∃ m', Runs.run CacheManager.step m ops = .ok m' ∧ Stepped m m' := by
  induction ops generalizing m with
  | nil => exact ⟨m, rfl, .refl h⟩
  | cons op ops ih =>
    obtain ⟨u, hu, hstepped⟩ := h.step hguard.1
    obtain ⟨m', hm', hstepped'⟩ := ih hstepped.faithful (hguard.2 u hu)
    rw [run_cons_of_ok _ hu]
    exact ⟨m', hm', hstepped.trans hstepped'⟩

theorem Stepped.dirty_or_flushedSince {m' : CacheManager} (h : Stepped m m')
    (hd : m.Dirty pageId) : m'.Dirty pageId ∨ FlushedSince m m' pageId := by
  obtain ⟨new, hnew, hdirty⟩ := h.writesBack
  exact (hdirty pageId hd).imp_right fun hmem => ⟨new, hnew, hmem⟩

/-- In every state of a run, the cache gives the answers of the pager; and when a page in the cache
is marked dirty there, it stays dirty until it is flushed. -/
theorem transparent_of_run (capacity : ℕ) (ops : List Op)
    (hguard : Guarded step Counted (init (capacity + 1)) ops) :
    ∀ past next m, ops = past ++ next → run step (init (capacity + 1)) past = .ok m →
      m.Transparent ∧
      ∀ pageId later rest, next = .markDirty pageId :: later ++ rest → m.Resident pageId →
        ∃ m', run step (m.markDirty pageId) later = .ok m' ∧
          (m'.Dirty pageId ∨ FlushedSince (m.markDirty pageId) m' pageId) := by
  rintro past next m rfl hrun
  obtain ⟨hpast, hnext⟩ := hguard.append
  obtain ⟨u, hu, hstepped⟩ := (init_faithful (capacity + 1)).run hpast
  rw [hrun] at hu
  cases hu
  refine ⟨hstepped.faithful.transparent, ?_⟩
  rintro pageId later rest rfl hresident
  obtain ⟨-, hlater⟩ := hnext m hrun
  obtain ⟨hlater, -⟩ := (hlater (m.markDirty pageId) rfl).append
  obtain ⟨m', hm', hstepped'⟩ := (hstepped.faithful.markDirty pageId).faithful.run hlater
  exact ⟨m', hm', hstepped'.dirty_or_flushedSince (dirty_markDirty hresident)⟩

/-- A page that is allocated, requested and marked is flushed with the cache. -/
theorem transparent_of_run_flush :
    ∃ m m', run step (init 1) [.allocatePage, .getPage 0] = .ok m ∧ m.Transparent ∧
      run step (m.markDirty 0) [.flush] = .ok m' ∧
      (m'.Dirty 0 ∨ FlushedSince (m.markDirty 0) m' 0) := by
  have hguard : Guarded step Counted (init (0 + 1))
      ([.allocatePage, .getPage 0] ++ [.markDirty 0, .flush]) := by decide
  obtain ⟨htransparent, hmarked⟩ := transparent_of_run 0 _ hguard _ _ _ rfl rfl
  obtain ⟨m', hm', hdirty⟩ := hmarked 0 [.flush] [] rfl ⟨_, List.mem_cons_self, rfl, by decide⟩
  exact ⟨_, m', rfl, htransparent, hm', hdirty⟩

theorem run_allocatePage (n : ℕ) (h : m.numPages < 2 ^ 32) :
    run step m (List.replicate n .allocatePage) =
      .ok { m with pager := { m.pager with numPages := (m.numPages + n) % 2 ^ 32 } } := by
  induction n generalizing m with
  | zero =>
    rw [List.replicate_zero, run_nil, Nat.add_zero, Nat.mod_eq_of_lt h]
    rfl
  | succ n ih =>
    have hstep : step m .allocatePage = .ok m.allocatePage.2 := rfl
    have hnum : m.allocatePage.2.numPages = (m.numPages + 1) % 2 ^ 32 := rfl
    rw [List.replicate_succ, run_cons_of_ok _ hstep, ih (by rw [hnum]; exact Nat.mod_lt _ (by decide)),
      hnum, Nat.mod_add_mod, Nat.add_assoc, Nat.add_comm 1 n]
    rfl

/-- The page counter wraps around to zero: the pager knows no page, and the cache still serves the
page that it has kept. -/
theorem not_transparent_wrapped :
    ∃ m, run step (init 1)
        ([.allocatePage, .getPage 0] ++ List.replicate (2 ^ 32 - 1) .allocatePage) = .ok m ∧
      ¬ m.Transparent := by
  have hfirst : run step (init 1) [.allocatePage, .getPage 0] =
      .ok ((init 1).allocatePage.2.getPage 0).2 := rfl
  rw [run_append_of_ok _ hfirst, run_allocatePage _ (by decide)]
  refine ⟨_, rfl, fun h => ?_⟩
  have hzero := h 0
  revert hzero
  decide

end CacheManager

end FlexQL
