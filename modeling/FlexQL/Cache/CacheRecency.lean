import FlexQL.Cache.CacheProperties
import FlexQL.Lib.Recency

/-!
# Which pages stay in the cache

The page numbers in the list of an `LRUCache` are a recency list: every request brings its page to the
front, and the page at the end is evicted when there is no room.
-/

namespace FlexQL

open Recency

namespace LRUCache

variable {c : LRUCache} {pager : Pager} {pageId : ℕ} {page : Option ℕ} {dirty : Bool}

/-- The cached pages, most recently used first. -/
def pages (c : LRUCache) : List ℕ := c.lruList.map fun n => n.2.pageId

theorem mem_pages : pageId ∈ c.pages ↔ ∃ n ∈ c.lruList, n.2.pageId = pageId := List.mem_map

theorem WellFormed.mem_pages_iff (h : c.WellFormed) : pageId ∈ c.pages ↔ c.map pageId ≠ none := by
  rw [mem_pages]
  constructor
  · rintro ⟨n, hn, rfl⟩
    simp [h.map_of_mem n hn]
  · intro hmap
    obtain ⟨it, hit⟩ := Option.ne_none_iff_exists'.mp hmap
    obtain ⟨e, he, hid⟩ := h.mem_of_map pageId it hit
    exact ⟨_, he, hid⟩

theorem WellFormed.nodup_pages (h : c.WellFormed) : c.pages.Nodup := by
  refine List.Nodup.map_on ?_ (List.Nodup.of_map Prod.fst h.nodup)
  intro n hn m hm heq
  have hit := h.map_of_mem n hn
  rw [heq, h.map_of_mem m hm] at hit
  exact Prod.ext (Option.some.inj hit).symm (h.eq_of_pageId hn hm heq)

/-- A node that is moved to the front takes its page along. -/
theorem WellFormed.pages_splice (h : c.WellFormed) {it : ℕ} (hmap : c.map pageId = some it) :
    (LRUCache.splice c.lruList it).map (fun n => n.2.pageId) = pageId :: c.pages.erase pageId := by
  have hmem : pageId ∈ c.pages := h.mem_pages_iff.mpr (by simp [hmap])
  have hfront : (c.lruList.filter fun n => n.1 = it).map (fun n => n.2.pageId) =
      c.pages.filter (· == pageId) := by
    rw [pages, List.filter_map]
    refine congrArg _ (List.filter_congr fun n hn => ?_)
    simp [h.fst_eq_iff hmap hn, Bool.beq_eq_decide_eq]
  have hrest : (c.lruList.filter fun n => ¬ n.1 = it).map (fun n => n.2.pageId) =
      c.pages.filter (· != pageId) := by
    rw [pages, List.filter_map]
    refine congrArg _ (List.filter_congr fun n hn => ?_)
    simp [h.fst_eq_iff hmap hn, bne, Bool.beq_eq_decide_eq]
  rw [LRUCache.splice, List.map_append, hfront, hrest, ← h.nodup_pages.erase_eq_filter,
    List.filter_beq, List.count_eq_one_of_mem h.nodup_pages hmem]
  rfl

theorem WellFormed.pages_get (h : c.WellFormed) (pageId : ℕ) :
    (c.get pageId).2.pages = if pageId ∈ c.pages then pageId :: c.pages.erase pageId else c.pages := by
  have hiff : pageId ∈ c.pages ↔ c.map pageId ≠ none := h.mem_pages_iff
  unfold LRUCache.get
  cases hmap : c.map pageId with
  | none => simp [hiff, hmap]
  | some it =>
    rw [if_pos (hiff.mpr (by simp [hmap]))]
    exact h.pages_splice hmap

@[simp] theorem get_capacity (c : LRUCache) (pageId : ℕ) :
    (c.get pageId).2.capacity = c.capacity := by
  unfold get
  cases c.map pageId <;> rfl

@[simp] theorem put_capacity (c : LRUCache) (pager : Pager) (pageId : ℕ) (page : Option ℕ)
    (dirty : Bool) : (c.put pager pageId page dirty).1.capacity = c.capacity := by
  unfold put evictInternal
  cases c.map pageId with
  | some it => rfl
  | none =>
    cases c.lruList.getLast? with
    | none => dsimp only; split <;> rfl
    | some last => dsimp only; split <;> rfl

theorem pages_evictInternal (c : LRUCache) (pager : Pager) :
    (c.evictInternal pager).1.pages = c.pages.dropLast := by
  unfold evictInternal pages
  cases hlast : c.lruList.getLast? with
  | none => simp [List.getLast?_eq_none_iff.mp hlast]
  | some last => rw [List.map_dropLast]

theorem pages_pushFront (c : LRUCache) (entry : CacheEntry) :
    (c.pushFront entry).pages = entry.pageId :: c.pages := rfl

/-- A page that is put is in use. -/
theorem WellFormed.pages_put (h : c.WellFormed) (hb : Bounded c.capacity c.pages)
    (hcap : 0 < c.capacity) (pager : Pager) (pageId : ℕ) (page : Option ℕ) (dirty : Bool) :
    (c.put pager pageId page dirty).1.pages = promote c.capacity c.pages pageId := by
  have hiff : pageId ∈ c.pages ↔ c.map pageId ≠ none := h.mem_pages_iff
  have hlength := hb.length_le
  unfold LRUCache.put
  cases hmap : c.map pageId with
  | some it =>
    have hmem : pageId ∈ c.pages := hiff.mpr (by simp [hmap])
    let c' : LRUCache := { c with
      lruList := c.lruList.map fun n =>
        if n.1 = it then (n.1, { n.2 with page := page, dirty := dirty }) else n }
    have hw : c'.WellFormed := by
      refine h.map_entries ?_ ?_
      · intro n
        split <;> rfl
      · intro n
        split <;> rfl
    have hpages : c'.pages = c.pages := by
      rw [pages, pages, List.map_map]
      refine List.map_congr_left fun n _ => ?_
      rw [Function.comp_apply]
      split <;> rfl
    rw [hb.promote_of_mem hmem, ← hpages]
    exact hw.pages_splice hmap
  | none =>
    have hmem : pageId ∉ c.pages := fun hmem => hiff.mp hmem hmap
    have hlist : c.lruList.length = c.pages.length := (List.length_map _).symm
    rw [promote, List.erase_of_not_mem hmem]
    dsimp only
    split
    · rw [pages_pushFront, pages_evictInternal, List.dropLast_eq_take]
      obtain ⟨n, hn⟩ := Nat.exists_eq_succ_of_ne_zero hcap.ne'
      rw [hn, List.take_succ_cons]
      congr 2
      omega
    · rw [pages_pushFront, List.take_of_length_le]
      rw [List.length_cons]
      omega

end LRUCache

namespace CacheManager

variable {m : CacheManager} {pageId : ℕ}

/-- The cache has places, it fits them, and it holds pointers only. -/
structure Cached (m : CacheManager) : Prop where
  faithful : m.Faithful
  capacity_pos : 0 < m.cache.capacity
  length_le : m.cache.lruList.length ≤ m.cache.capacity
  full : ∀ n ∈ m.cache.lruList, n.2.page ≠ none

theorem init_cached (capacity : ℕ) : (init (capacity + 1)).Cached :=
  ⟨init_faithful _, Nat.succ_pos _, Nat.zero_le _, fun _ hn => (List.not_mem_nil hn).elim⟩

theorem Cached.bounded (h : m.Cached) : Bounded m.cache.capacity m.cache.pages :=
  ⟨m.wellFormed.nodup_pages, (List.length_map _).trans_le h.length_le⟩

theorem Cached.resident_iff (h : m.Cached) : m.Resident pageId ↔ pageId ∈ m.cache.pages := by
  rw [LRUCache.mem_pages]
  constructor
  · rintro ⟨n, hn, hid, -⟩
    exact ⟨n, hn, hid⟩
  · rintro ⟨n, hn, hid⟩
    exact ⟨n, hn, hid, h.full n hn⟩

/-- A page in the cache is served. -/
theorem Cached.exists_get (h : m.Cached) (hmem : pageId ∈ m.cache.pages) :
    ∃ p, (m.cache.get pageId).1 = some p := by
  obtain ⟨n, hn, rfl⟩ := LRUCache.mem_pages.mp hmem
  rw [m.wellFormed.get_of_mem hn]
  exact Option.ne_none_iff_exists'.mp (h.full n hn)

theorem get_eq_none (hmem : pageId ∉ m.cache.pages) : m.cache.get pageId = (none, m.cache) := by
  have hmap : m.cache.map pageId = none := by
    by_contra hne
    exact hmem (m.wellFormed.mem_pages_iff.mpr hne)
  simp only [LRUCache.get, hmap]

/-- The use of a page in the cache. -/
theorem Cached.promote_of_mem (h : m.Cached) (hmem : pageId ∈ m.cache.pages) :
    promote m.cache.capacity m.cache.pages pageId = pageId :: m.cache.pages.erase pageId :=
  h.bounded.promote_of_mem hmem

/-- Behind a request the page is the most recent one. -/
theorem Cached.pages_getPage (h : m.Cached) (pageId : ℕ) :
    (m.getPage pageId).2.cache.pages = promote m.cache.capacity m.cache.pages pageId ∧
      (m.getPage pageId).2.cache.capacity = m.cache.capacity := by
  by_cases hmem : pageId ∈ m.cache.pages
  · obtain ⟨p, hget⟩ := h.exists_get hmem
    have hcache : (m.getPage pageId).2.cache = (m.cache.get pageId).2 := by
      unfold CacheManager.getPage
      split
      · rfl
      · rename_i hnone
        rw [hget] at hnone
        cases hnone
    rw [hcache, m.wellFormed.pages_get, if_pos hmem, h.promote_of_mem hmem]
    exact ⟨rfl, m.cache.get_capacity pageId⟩
  · have hget := get_eq_none hmem
    have hcache : (m.getPage pageId).2.cache =
        (m.cache.put m.pager pageId (m.pager.getPage pageId) false).1 := by
      unfold CacheManager.getPage
      split
      · rename_i p hsome
        rw [hget] at hsome
        cases hsome
      · simp only [hget]
    rw [hcache, m.wellFormed.pages_put h.bounded h.capacity_pos]
    exact ⟨rfl, LRUCache.put_capacity ..⟩

theorem Cached.of_pages {m' : CacheManager} (h : m.Cached) (hfaithful : m'.Faithful)
    (hfull : ∀ n ∈ m'.cache.lruList, n.2.page ≠ none)
    (hcapacity : m'.cache.capacity = m.cache.capacity)
    (hbounded : Bounded m.cache.capacity m'.cache.pages) : m'.Cached where
  faithful := hfaithful
  capacity_pos := hcapacity ▸ h.capacity_pos
  length_le := by
    rw [hcapacity]
    exact (List.length_map _).symm.trans_le hbounded.length_le
  full := hfull

theorem Cached.getPage (h : m.Cached) (hlt : pageId < m.numPages) : (m.getPage pageId).2.Cached := by
  obtain ⟨hpages, hcapacity⟩ := h.pages_getPage pageId
  refine h.of_pages (h.faithful.getPage pageId).faithful ?_ hcapacity (hpages ▸ h.bounded.promote _)
  intro n hn
  rcases getPage_cases m pageId with ⟨hcache, -⟩ | ⟨-, hcache, -⟩
  · rw [hcache] at hn
    exact h.full n (LRUCache.mem_get.mp hn)
  · rw [hcache] at hn
    rcases (m.wellFormed.get pageId).mem_put hn with heq | hn
    · rw [heq, Pager.getPage_of_lt hlt]
      simp
    · exact h.full n (LRUCache.mem_get.mp hn)

/-- A page that is marked dirty is the most recent one, if it is in the cache. -/
theorem Cached.pages_markDirty (h : m.Cached) (pageId : ℕ) :
    (m.markDirty pageId).cache.pages =
        (if pageId ∈ m.cache.pages then promote m.cache.capacity m.cache.pages pageId
        else m.cache.pages) ∧ (m.markDirty pageId).cache.capacity = m.cache.capacity := by
  rcases markDirty_cases m pageId with ⟨hnone, hcache, -⟩ | ⟨p, hsome, hcache, -⟩
  · have hmem : pageId ∉ m.cache.pages := by
      intro hmem
      obtain ⟨p, hget⟩ := h.exists_get hmem
      rw [hnone] at hget
      cases hget
    rw [hcache, get_eq_none hmem, if_neg hmem]
    exact ⟨rfl, rfl⟩
  · have hmem : pageId ∈ m.cache.pages := by
      obtain ⟨n, hn, hid, -⟩ := m.wellFormed.exists_of_get hsome
      exact LRUCache.mem_pages.mpr ⟨n, hn, hid⟩
    have hget : (m.cache.get pageId).2.pages = promote m.cache.capacity m.cache.pages pageId := by
      rw [m.wellFormed.pages_get, if_pos hmem, h.promote_of_mem hmem]
    have hbounded : Bounded (m.cache.get pageId).2.capacity (m.cache.get pageId).2.pages := by
      rw [hget, LRUCache.get_capacity]
      exact h.bounded.promote _
    rw [hcache, (m.wellFormed.get pageId).pages_put hbounded (by simpa using h.capacity_pos), hget,
      if_pos hmem, h.promote_of_mem hmem]
    refine ⟨?_, by simp⟩
    rw [LRUCache.get_capacity, promote_head]
    rw [← h.promote_of_mem hmem]
    exact (h.bounded.promote pageId).length_le

theorem Cached.markDirty (h : m.Cached) (pageId : ℕ) : (m.markDirty pageId).Cached := by
  obtain ⟨hpages, hcapacity⟩ := h.pages_markDirty pageId
  refine h.of_pages (h.faithful.markDirty pageId).faithful ?_ hcapacity ?_
  · intro n hn
    rcases markDirty_cases m pageId with ⟨-, hcache, -⟩ | ⟨p, -, hcache, -⟩
    · rw [hcache] at hn
      exact h.full n (LRUCache.mem_get.mp hn)
    · rw [hcache] at hn
      rcases (m.wellFormed.get pageId).mem_put hn with heq | hn
      · simp [heq]
      · exact h.full n (LRUCache.mem_get.mp hn)
  · rw [hpages]
    split
    · exact h.bounded.promote _
    · exact h.bounded

theorem Cached.allocatePage (h : m.Cached) (hnum : m.numPages + 1 < 2 ^ 32) :
    m.allocatePage.2.Cached :=
  h.of_pages (h.faithful.allocatePage hnum).faithful h.full rfl h.bounded

theorem flush_pages (m : CacheManager) : m.flush.cache.pages = m.cache.pages := by
  unfold LRUCache.pages
  exact List.map_map

theorem Cached.flush (h : m.Cached) : m.flush.Cached := by
  refine h.of_pages h.faithful.flush.faithful ?_ rfl (flush_pages m ▸ h.bounded)
  intro n hn
  obtain ⟨n', hn', rfl⟩ := List.mem_map.mp hn
  exact h.full n' hn'

/-- Requests for several pages. -/
def request (m : CacheManager) (pageIds : List ℕ) : CacheManager :=
  pageIds.foldl (fun m pageId => (m.getPage pageId).2) m

theorem request_append (m : CacheManager) (as bs : List ℕ) :
    m.request (as ++ bs) = (m.request as).request bs := List.foldl_append ..

@[simp] theorem request_numPages (m : CacheManager) (as : List ℕ) :
    (m.request as).numPages = m.numPages := by
  induction as generalizing m with
  | nil => rfl
  | cons a as ih => exact (ih _).trans (getPage_numPages m a)

/-- What requests for allocated pages leave behind. -/
structure Requested (m m' : CacheManager) (as : List ℕ) : Prop where
  cached : m'.Cached
  stepped : Stepped m m'
  capacity_eq : m'.cache.capacity = m.cache.capacity
  pages_eq : m'.cache.pages = as.foldl (promote m.cache.capacity) m.cache.pages

theorem Cached.request (h : m.Cached) {as : List ℕ} (has : ∀ a ∈ as, a < m.numPages) :
    Requested m (m.request as) as := by
  induction as generalizing m with
  | nil => exact ⟨h, .refl h.faithful, rfl, rfl⟩
  | cons a as ih =>
    have hlt := has a List.mem_cons_self
    obtain ⟨hpages, hcapacity⟩ := h.pages_getPage a
    obtain ⟨hcached, hstepped, hcapacity', hpages'⟩ := ih (h.getPage hlt) fun b hb => by
      rw [getPage_numPages]
      exact has b (List.mem_cons_of_mem _ hb)
    refine ⟨hcached, (h.faithful.getPage a).trans hstepped, hcapacity'.trans hcapacity, ?_⟩
    rw [hpages, hcapacity] at hpages'
    exact hpages'

/-- A page that was requested is in the cache. -/
theorem Cached.resident_getPage (h : m.Cached) (hlt : pageId < m.numPages) :
    (m.getPage pageId).2.Resident pageId := by
  rw [(h.getPage hlt).resident_iff, (h.pages_getPage pageId).1]
  exact List.mem_of_mem_head? (head?_promote h.capacity_pos _ _)

/-- Requests for as many other pages as the cache has places push a page out. -/
theorem Cached.not_resident_request (h : m.Cached) {as : List ℕ} (has : ∀ a ∈ as, a < m.numPages)
    (hother : pageId ∉ as) (hcard : m.cache.capacity ≤ as.toFinset.card) :
    ¬ (m.request as).Resident pageId := by
  have hrequested := h.request has
  rw [hrequested.cached.resident_iff, hrequested.pages_eq]
  exact not_mem_foldl_promote h.bounded hother hcard

theorem Cached.lt_of_mem_pages (h : m.Cached) (hmem : pageId ∈ m.cache.pages) :
    pageId < m.numPages := by
  obtain ⟨n, hn, rfl⟩ := LRUCache.mem_pages.mp hmem
  exact h.faithful.allocated n hn (h.full n hn)

/-- A request pushes nothing out when the cache has places for all pages. -/
theorem Cached.resident_getPage_of_few (h : m.Cached) (hfew : m.numPages ≤ m.cache.capacity) {a : ℕ}
    (ha : a < m.numPages) (hresident : m.Resident pageId) : (m.getPage a).2.Resident pageId := by
  by_cases heq : pageId = a
  · rw [heq]
    exact h.resident_getPage ha
  · have hmem := h.resident_iff.mp hresident
    rw [(h.getPage ha).resident_iff, (h.pages_getPage a).1]
    obtain ⟨before, behind, hpages⟩ := List.append_of_mem hmem
    have hbounded := h.bounded
    have hother : pageId ∉ [a] := by simpa using heq
    have hiff := mem_foldl_promote_iff (hpages ▸ hbounded) hother
    rw [List.foldl_cons, List.foldl_nil, ← hpages] at hiff
    refine hiff.mpr ?_
    -- the page itself is not among them
    have hsub : before.toFinset ∪ [a].toFinset ⊆ (Finset.range m.numPages).erase pageId := by
      intro x hx
      rw [Finset.mem_erase, Finset.mem_range]
      rcases Finset.mem_union.mp hx with hx | hx
      · have hx' := List.mem_toFinset.mp hx
        have hnodup := hbounded.nodup
        rw [hpages] at hnodup
        refine ⟨?_, h.lt_of_mem_pages (hpages ▸ List.mem_append_left _ hx')⟩
        rintro rfl
        exact (List.nodup_append.mp hnodup).2.2 x hx' x List.mem_cons_self rfl
      · obtain rfl : x = a := by simpa using hx
        exact ⟨Ne.symm heq, ha⟩
    have hlt := h.lt_of_mem_pages hmem
    have hle := Finset.card_le_card hsub
    rw [Finset.card_erase_of_mem (Finset.mem_range.mpr hlt), Finset.card_range] at hle
    omega

theorem Cached.resident_request_of_few (h : m.Cached) (hfew : m.numPages ≤ m.cache.capacity)
    {as : List ℕ} (has : ∀ a ∈ as, a < m.numPages) (hresident : m.Resident pageId) :
    (m.request as).Resident pageId := by
  induction as generalizing m with
  | nil => exact hresident
  | cons a as ih =>
    have ha := has a List.mem_cons_self
    have hcapacity := (h.pages_getPage a).2
    refine ih (h.getPage ha) ?_ ?_ (h.resident_getPage_of_few hfew ha hresident)
    · rwa [getPage_numPages, hcapacity]
    · intro b hb
      rw [getPage_numPages]
      exact has b (List.mem_cons_of_mem _ hb)

end CacheManager

end FlexQL
