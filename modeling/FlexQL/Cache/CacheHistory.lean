import FlexQL.Cache.CacheRecency
import FlexQL.Lib.Runs

/-!
# The cache along its history

Whatever is called on an `LRUCache`, its list and its map describe the same pages, and the list is in the
order of the last uses. An eviction hits the page that was not used for the longest time.
-/

namespace FlexQL

open Recency Runs

namespace LRUCache

variable {c c' : LRUCache} {pager pager' : Pager} {pageId capacity : ℕ} {uses : List ℕ}

/-- `exists`. -/
def existsPage (c : LRUCache) (pageId : ℕ) : Bool := (c.map pageId).isSome

/-- The public interface. -/
inductive Call
  | get (pageId : ℕ)
  | put (pageId : ℕ) (page : Option ℕ) (dirty : Bool)
  | existsPage (pageId : ℕ)
  | flushAll
  | clear
  | evict
  deriving DecidableEq, Repr

/-- The page that a call uses. -/
def Call.used : Call → Option ℕ
  | .get pageId => some pageId
  | .put pageId _ _ => some pageId
  | _ => none

/-- The cache and the pager behind a call. An empty list has no last entry that `evict` could take. -/
def call (st : LRUCache × Pager) : Call → Except Unit (LRUCache × Pager)
  | .get pageId => .ok ((st.1.get pageId).2, st.2)
  | .put pageId page dirty => .ok (st.1.put st.2 pageId page dirty)
  | .existsPage _ => .ok st
  | .flushAll => .ok (st.1.flushAllInternal st.2)
  | .clear => .ok (st.1.clear st.2)
  | .evict => if st.1.lruList.isEmpty then .error () else .ok (st.1.evictInternal st.2)

/-- The cached pages after some uses. -/
structure Tracks (capacity : ℕ) (uses : List ℕ) (c : LRUCache) : Prop where
  wellFormed : c.WellFormed
  capacity_eq : c.capacity = capacity
  bounded : Bounded capacity c.pages
  ordered : Ordered uses c.pages

theorem init_tracks (capacity : ℕ) : Tracks capacity [] (init capacity) :=
  ⟨init_wellFormed capacity, rfl, bounded_nil, List.Pairwise.nil⟩

theorem flushAllInternal_pages (c : LRUCache) (pager : Pager) :
    (c.flushAllInternal pager).1.pages = c.pages := List.map_map

theorem Tracks.get (h : Tracks capacity uses c) (pageId : ℕ) :
    Tracks capacity (uses ++ [pageId]) (c.get pageId).2 := by
  have hcapacity := (get_capacity c pageId).trans h.capacity_eq
  have hpages := h.wellFormed.pages_get pageId
  by_cases hmem : pageId ∈ c.pages
  · rw [if_pos hmem, ← h.bounded.promote_of_mem hmem] at hpages
    exact ⟨h.wellFormed.get pageId, hcapacity, hpages ▸ h.bounded.promote pageId,
      hpages ▸ h.ordered.promote h.bounded.nodup capacity pageId⟩
  · rw [if_neg hmem] at hpages
    exact ⟨h.wellFormed.get pageId, hcapacity, hpages ▸ h.bounded,
      hpages ▸ h.ordered.append_of_notMem hmem⟩

theorem Tracks.put (h : Tracks capacity uses c) (hcap : 1 ≤ capacity) (pager : Pager) (pageId : ℕ)
    (page : Option ℕ) (dirty : Bool) :
    Tracks capacity (uses ++ [pageId]) (c.put pager pageId page dirty).1 := by
  have hpages := h.wellFormed.pages_put (h.capacity_eq.symm ▸ h.bounded) (h.capacity_eq.symm ▸ hcap)
    pager pageId page dirty
  rw [h.capacity_eq] at hpages
  refine ⟨h.wellFormed.put pager pageId page dirty, (put_capacity ..).trans h.capacity_eq, ?_, ?_⟩
  · exact hpages ▸ h.bounded.promote pageId
  · exact hpages ▸ h.ordered.promote h.bounded.nodup capacity pageId

theorem Tracks.evictInternal (h : Tracks capacity uses c) (pager : Pager) :
    Tracks capacity uses (c.evictInternal pager).1 := by
  have hpages := pages_evictInternal c pager
  have hsub : c.pages.dropLast.Sublist c.pages := List.dropLast_sublist c.pages
  refine ⟨h.wellFormed.evictInternal pager, ?_, ?_, ?_⟩
  · unfold LRUCache.evictInternal
    cases c.lruList.getLast? <;> exact h.capacity_eq
  · exact hpages ▸ ⟨h.bounded.nodup.sublist hsub, hsub.length_le.trans h.bounded.length_le⟩
  · exact hpages ▸ h.ordered.dropLast

/-- One call. -/
theorem Tracks.of_call (h : Tracks capacity uses c) (hcap : 1 ≤ capacity) {e : Call}
    (hcall : call (c, pager) e = .ok (c', pager')) : Tracks capacity (uses ++ e.used.toList) c' := by
  cases e with
  | get pageId =>
    cases hcall
    exact h.get pageId
  | put pageId page dirty =>
    obtain ⟨rfl, -⟩ := Prod.mk.inj (Except.ok.inj hcall)
    exact h.put hcap pager pageId page dirty
  | existsPage pageId =>
    cases hcall
    simpa [Call.used] using h
  | flushAll =>
    cases hcall
    have hpages := flushAllInternal_pages c pager
    simp only [Call.used, Option.toList_none, List.append_nil]
    exact ⟨h.wellFormed.flushAllInternal pager, h.capacity_eq, hpages ▸ h.bounded,
      hpages ▸ h.ordered⟩
  | clear =>
    cases hcall
    simp only [Call.used, Option.toList_none, List.append_nil]
    exact ⟨WellFormed.clear c pager, h.capacity_eq, bounded_nil, List.Pairwise.nil⟩
  | evict =>
    dsimp only [call] at hcall
    split at hcall
    · cases hcall
    · obtain ⟨rfl, -⟩ := Prod.mk.inj (Except.ok.inj hcall)
      simp only [Call.used, Option.toList_none, List.append_nil]
      exact h.evictInternal pager

theorem Tracks.of_run (hcap : 1 ≤ capacity) {calls : List Call}
    (hrun : run call (init capacity, pager) calls = .ok (c', pager')) :
    Tracks capacity (calls.filterMap Call.used) c' := by
  refine Guarded.run_induction
    (fun past (st : LRUCache × Pager) => Tracks capacity (past.filterMap Call.used) st.1) ?_ ?_
    (guarded_true _ calls) hrun
  rotate_left
  · exact init_tracks capacity
  intro past st e st' h _ hstep
  rw [List.filterMap_append]
  have hnext : Tracks capacity (past.filterMap Call.used ++ e.used.toList) st'.1 := h.of_call hcap hstep
  cases hused : e.used with
  | none => simpa [hused] using hnext
  | some pageId => simpa [hused] using hnext

/-! ## Evictions -/

/-- The entry of the page with the oldest use is removed, and it is flushed when it is dirty. -/
structure Evicts (uses : List ℕ) (n : ℕ × CacheEntry) (c : LRUCache) (pager : Pager) (c' : LRUCache)
    (pager' : Pager) : Prop where
  mem : n ∈ c.lruList
  oldest : ∀ m ∈ c.lruList, m ≠ n → lastUse uses n.2.pageId < lastUse uses m.2.pageId
  entries : ∀ m, m ∈ c'.lruList ↔ m ∈ c.lruList ∧ m ≠ n
  pages : c'.pages = c.pages.erase n.2.pageId
  map : c'.map = Function.update c.map n.2.pageId none
  pager : pager' = if n.2.dirty then pager.flush n.2.pageId else pager

theorem Tracks.evicts (h : Tracks capacity uses c) (hne : c.lruList ≠ []) (pager : Pager) :
    ∃ n, Evicts uses n c pager (c.evictInternal pager).1 (c.evictInternal pager).2 := by
  obtain ⟨front, n, hlist⟩ := (List.eq_nil_or_concat' c.lruList).resolve_left hne
  have hpages : c.pages = front.map (fun m => m.2.pageId) ++ [n.2.pageId] := by
    rw [LRUCache.pages, hlist, List.map_append, List.map_singleton]
  have hnodup := h.bounded.nodup
  have hordered := h.ordered
  rw [hpages] at hnodup hordered
  have hfront : ∀ m ∈ front, m.2.pageId ≠ n.2.pageId := by
    intro m hm heq
    have hmem : n.2.pageId ∈ front.map (fun m => m.2.pageId) := heq ▸ List.mem_map_of_mem hm
    exact (List.nodup_append.mp hnodup).2.2 _ hmem _ (List.mem_singleton_self _) rfl
  have hevict : c.evictInternal pager = ({ c with
      lruList := front
      map := Function.update c.map n.2.pageId none },
      if n.2.dirty then pager.flush n.2.pageId else pager) := by
    simp [LRUCache.evictInternal, hlist]
  rw [hevict]
  refine ⟨n, ?_, ?_, ?_, ?_, rfl, rfl⟩
  · simp [hlist]
  · intro m hm hmn
    rw [hlist, List.mem_append, List.mem_singleton] at hm
    exact hordered.lastUse_lt (List.mem_map_of_mem (hm.resolve_right hmn))
  · intro m
    rw [hlist, List.mem_append, List.mem_singleton]
    constructor
    · intro hm
      refine ⟨Or.inl hm, ?_⟩
      rintro rfl
      exact hfront m hm rfl
    · rintro ⟨hm, hmn⟩
      exact hm.resolve_right hmn
  · rw [hpages, List.erase_append_right, List.erase_cons_head, List.append_nil]
    · rfl
    · intro hmem
      obtain ⟨m, hm, heq⟩ := List.mem_map.mp hmem
      exact hfront m hm heq

theorem Tracks.length_le (h : Tracks capacity uses c) : c.lruList.length ≤ capacity :=
  (List.length_map _).symm.trans_le h.bounded.length_le

/-- A new page in a full cache: something is evicted first. -/
theorem Tracks.put_evicts (h : Tracks capacity uses c) (hcap : 1 ≤ capacity)
    (hmem : pageId ∉ c.pages) (hfull : c.lruList.length = capacity) (pager : Pager)
    (page : Option ℕ) (dirty : Bool) :
    ∃ n mid, Evicts uses n c pager mid (c.put pager pageId page dirty).2 ∧
      (c.put pager pageId page dirty).1 = mid.pushFront ⟨pageId, page, dirty⟩ := by
  have hmap : c.map pageId = none := by
    by_contra hne
    exact hmem (h.wellFormed.mem_pages_iff.mpr hne)
  have hroom : c.lruList.length ≥ c.capacity := (hfull.trans h.capacity_eq.symm).ge
  have hput : c.put pager pageId page dirty =
      ((c.evictInternal pager).1.pushFront ⟨pageId, page, dirty⟩, (c.evictInternal pager).2) := by
    simp only [LRUCache.put, hmap, if_pos hroom]
  obtain ⟨n, hevicts⟩ := h.evicts (List.ne_nil_of_length_pos (hfull ▸ hcap)) pager
  rw [hput]
  exact ⟨n, _, hevicts, rfl⟩

/-- A page that is cached, or one that there is room for: nothing is evicted. -/
theorem Tracks.put_keeps (h : Tracks capacity uses c)
    (hroom : pageId ∈ c.pages ∨ c.lruList.length < capacity) (pager : Pager) (page : Option ℕ)
    (dirty : Bool) :
    (c.put pager pageId page dirty).2 = pager ∧
      (c.put pager pageId page dirty).1.pages = pageId :: c.pages.erase pageId := by
  have hcap : 0 < capacity := by
    rcases hroom with hmem | hlt
    · exact (List.length_pos_of_mem hmem).trans_le h.bounded.length_le
    · omega
  have hpages := h.wellFormed.pages_put (h.capacity_eq.symm ▸ h.bounded) (h.capacity_eq.symm ▸ hcap)
    pager pageId page dirty
  rw [h.capacity_eq] at hpages
  by_cases hmem : pageId ∈ c.pages
  · obtain ⟨it, hit⟩ := Option.ne_none_iff_exists'.mp (h.wellFormed.mem_pages_iff.mp hmem)
    refine ⟨by simp only [LRUCache.put, hit], ?_⟩
    rw [hpages, h.bounded.promote_of_mem hmem]
  · have hlt := hroom.resolve_left hmem
    have hmap : c.map pageId = none := by
      by_contra hne
      exact hmem (h.wellFormed.mem_pages_iff.mpr hne)
    have hno : ¬ c.lruList.length ≥ c.capacity := by
      rw [h.capacity_eq]
      exact Nat.not_le.mpr hlt
    refine ⟨by simp only [LRUCache.put, hmap, if_neg hno], ?_⟩
    rw [hpages, promote, List.take_of_length_le]
    rw [List.length_cons, List.erase_of_not_mem hmem, LRUCache.pages, List.length_map]
    exact hlt

end LRUCache

open LRUCache in
/-- Behind every sequence of calls, map and list agree, the list fits the capacity and is in the order of
the last `get` or `put`. What is evicted then, by `evict` or by a `put` of a new page into a full cache, is
the page that was used last before all others, and it is flushed just when it is dirty. -/
theorem lruCache_refines (capacity : ℕ) (hcap : 1 ≤ capacity) (pager₀ pager : Pager) (c : LRUCache)
    (calls : List Call) (hrun : run call (LRUCache.init capacity, pager₀) calls = .ok (c, pager)) :
    (∀ pageId, c.existsPage pageId = true ↔ pageId ∈ c.pages) ∧
      c.pages.Nodup ∧
      (c.lruList.map Prod.fst).Nodup ∧
      (∀ pageId it, c.map pageId = some it →
        ∃ e, c.lruList.lookup it = some e ∧ e.pageId = pageId) ∧
      c.lruList.length ≤ capacity ∧
      Ordered (calls.filterMap Call.used) c.pages ∧
      (c.lruList ≠ [] → ∃ n, Evicts (calls.filterMap Call.used) n c pager (c.evictInternal pager).1
        (c.evictInternal pager).2) ∧
      (∀ pageId page dirty, pageId ∉ c.pages → c.lruList.length = capacity →
        ∃ n mid, Evicts (calls.filterMap Call.used) n c pager mid (c.put pager pageId page dirty).2 ∧
          (c.put pager pageId page dirty).1 = mid.pushFront ⟨pageId, page, dirty⟩) ∧
      (∀ pageId page dirty, pageId ∈ c.pages ∨ c.lruList.length < capacity →
        (c.put pager pageId page dirty).2 = pager ∧
          (c.put pager pageId page dirty).1.pages = pageId :: c.pages.erase pageId) ∧
      ∀ pageId, (c.get pageId).2.pages =
        if pageId ∈ c.pages then pageId :: c.pages.erase pageId else c.pages := by
  have h := Tracks.of_run hcap hrun
  refine ⟨?_, h.bounded.nodup, h.wellFormed.nodup, ?_, h.length_le, h.ordered,
    fun hne => h.evicts hne pager, fun pageId page dirty hmem hfull =>
      h.put_evicts hcap hmem hfull pager page dirty,
    fun pageId page dirty hroom => h.put_keeps hroom pager page dirty, h.wellFormed.pages_get⟩
  · intro pageId
    rw [existsPage, Option.isSome_iff_ne_none, h.wellFormed.mem_pages_iff]
  · intro pageId it hmap
    obtain ⟨e, he, hid⟩ := h.wellFormed.mem_of_map pageId it hmap
    exact ⟨e, h.wellFormed.lookup he, hid⟩

open LRUCache in
/-- Two places and three pages. The second page is evicted, since the first one was used again. -/
theorem lruCache_refines_two :
    ∃ c pager, run call (LRUCache.init 2, Pager.init)
        [.put 1 none true, .put 2 none true, .get 1, .put 3 none false, .get 2] = .ok (c, pager) ∧
      Ordered [1, 2, 1, 3, 2] c.pages ∧ c.pages = [3, 1] ∧ pager.flushed = [2] := by
  obtain ⟨-, -, -, -, -, hordered, -⟩ := lruCache_refines 2 (by decide) Pager.init
    ⟨0, [2]⟩ ⟨2, [(2, ⟨3, none, false⟩), (0, ⟨1, none, true⟩)], _, 3⟩
    [.put 1 none true, .put 2 none true, .get 1, .put 3 none false, .get 2] rfl
  exact ⟨_, _, rfl, hordered, rfl, rfl⟩

end FlexQL
