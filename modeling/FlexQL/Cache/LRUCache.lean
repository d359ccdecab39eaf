import FlexQL.Storage.Pager
import Mathlib.Data.List.Nodup
import Mathlib.Logic.Function.Basic

/-!
# The page cache

`LRUCache` keeps recently used page pointers in a doubly linked list, most recent first, and a map
from page numbers to iterators into that list. An iterator is modelled by a number that the list
node keeps while it is moved around. `CacheManager` puts the cache in front of a pager.
-/

namespace FlexQL

structure CacheEntry where
  pageId : ℕ
  /-- The cached `Page*`. -/
  page : Option ℕ
  dirty : Bool
  deriving DecidableEq, Repr

structure LRUCache where
  capacity : ℕ
  /-- `lru_list`: the list nodes with the iterators to them, most recent first. -/
  lruList : List (ℕ × CacheEntry)
  /-- `map`: the iterator stored for a page number. -/
  map : ℕ → Option ℕ
  /-- The number of list nodes created so far, which names the next one. -/
  created : ℕ

namespace LRUCache

/-- An empty cache. -/
def init (capacity : ℕ) : LRUCache := ⟨capacity, [], fun _ => none, 0⟩

/-- `lru_list.splice(lru_list.begin(), lru_list, it)`. -/
def splice (l : List (ℕ × CacheEntry)) (it : ℕ) : List (ℕ × CacheEntry) :=
  l.filter (fun n => n.1 = it) ++ l.filter (fun n => ¬ n.1 = it)

/-- The cached pointer; a missing entry and a cached null pointer both give `none`. -/
def get (c : LRUCache) (pageId : ℕ) : Option ℕ × LRUCache :=
  match c.map pageId with
  | none => (none, c)
  | some it =>
    ((c.lruList.lookup it).bind CacheEntry.page, { c with lruList := splice c.lruList it })

/-- `evict_internal`: drop the least recently used entry, flushing it first when it is dirty. -/
def evictInternal (c : LRUCache) (pager : Pager) : LRUCache × Pager :=
  match c.lruList.getLast? with
  | none => (c, pager)
  | some last =>
    ({ c with
        lruList := c.lruList.dropLast
        map := Function.update c.map last.2.pageId none },
      if last.2.dirty then pager.flush last.2.pageId else pager)

/-- `lru_list.push_front({page_id, page, dirty})` and `map[page_id] = lru_list.begin()`. -/
def pushFront (c : LRUCache) (entry : CacheEntry) : LRUCache :=
  { c with
    lruList := (c.created, entry) :: c.lruList
    map := Function.update c.map entry.pageId (some c.created)
    created := c.created + 1 }

def put (c : LRUCache) (pager : Pager) (pageId : ℕ) (page : Option ℕ) (dirty : Bool) :
    LRUCache × Pager :=
  match c.map pageId with
  | some it =>
    ({ c with
        lruList := splice (c.lruList.map fun n =>
          if n.1 = it then (n.1, { n.2 with page := page, dirty := dirty }) else n) it },
      pager)
  | none =>
    let r := if c.lruList.length ≥ c.capacity then c.evictInternal pager else (c, pager)
    (r.1.pushFront ⟨pageId, page, dirty⟩, r.2)

/-- `flush_all_internal`: flush the dirty entries from front to back and mark them clean. -/
def flushAllInternal (c : LRUCache) (pager : Pager) : LRUCache × Pager :=
  ({ c with lruList := c.lruList.map fun n => (n.1, { n.2 with dirty := false }) },
    c.lruList.foldl (fun p n => if n.2.dirty then p.flush n.2.pageId else p) pager)

def clear (c : LRUCache) (pager : Pager) : LRUCache × Pager :=
  let r := c.flushAllInternal pager
  ({ r.1 with lruList := [], map := fun _ => none }, r.2)

/-- The map and the list describe the same set of pages, each by one list node. -/
structure WellFormed (c : LRUCache) : Prop where
  nodup : (c.lruList.map Prod.fst).Nodup
  created_lt : ∀ n ∈ c.lruList, n.1 < c.created
  map_of_mem : ∀ n ∈ c.lruList, c.map n.2.pageId = some n.1
  mem_of_map : ∀ pageId it, c.map pageId = some it → ∃ e, (it, e) ∈ c.lruList ∧ e.pageId = pageId

/-- Every cached pointer is the one that the pager computes for that page number. -/
def Points (c : LRUCache) : Prop := ∀ n ∈ c.lruList, ∀ p ∈ n.2.page, p = pageOffset n.2.pageId

theorem splice_perm (l : List (ℕ × CacheEntry)) (it : ℕ) : (splice l it).Perm l := by
  simpa [splice] using List.filter_append_perm (fun n : ℕ × CacheEntry => n.1 = it) l

@[simp] theorem mem_splice {l : List (ℕ × CacheEntry)} {it : ℕ} {n : ℕ × CacheEntry} :
    n ∈ splice l it ↔ n ∈ l := (splice_perm l it).mem_iff

theorem WellFormed.lookup {c : LRUCache} (h : c.WellFormed) {n : ℕ × CacheEntry}
    (hn : n ∈ c.lruList) : c.lruList.lookup n.1 = some n.2 := by
  have hnodup := h.nodup
  generalize c.lruList = l at hn hnodup
  induction l with
  | nil => simp at hn
  | cons m l ih =>
    obtain ⟨hm, hl⟩ := List.nodup_cons.mp hnodup
    rcases List.mem_cons.mp hn with rfl | hn
    · exact List.lookup_cons_self
    · have hne : n.1 ≠ m.1 := by
        intro heq
        exact hm (heq ▸ List.mem_map_of_mem hn)
      rw [List.lookup_cons, beq_false_of_ne hne]
      exact ih hn hl

theorem init_wellFormed (capacity : ℕ) : (init capacity).WellFormed :=
  ⟨by simp [init], by simp [init], by simp [init], by simp [init]⟩

theorem WellFormed.splice {c : LRUCache} (h : c.WellFormed) (it : ℕ) :
    { c with lruList := LRUCache.splice c.lruList it : LRUCache }.WellFormed :=
  ⟨((splice_perm c.lruList it).map Prod.fst).nodup_iff.mpr h.nodup,
    fun n hn => h.created_lt n (mem_splice.mp hn), fun n hn => h.map_of_mem n (mem_splice.mp hn),
    fun pageId i hi => by simpa using h.mem_of_map pageId i hi⟩

theorem WellFormed.get {c : LRUCache} (h : c.WellFormed) (pageId : ℕ) :
    (c.get pageId).2.WellFormed := by
  unfold LRUCache.get
  cases c.map pageId with
  | none => exact h
  | some it => exact h.splice it

theorem Points.get {c : LRUCache} (h : c.Points) (pageId : ℕ) : (c.get pageId).2.Points := by
  unfold LRUCache.get
  cases c.map pageId with
  | none => exact h
  | some it => exact fun n hn => h n (mem_splice.mp hn)

/-- A pointer served from the cache is the pager's pointer. -/
theorem WellFormed.get_eq {c : LRUCache} (h : c.WellFormed) (hp : c.Points) {pageId p : ℕ}
    (hget : (c.get pageId).1 = some p) : p = pageOffset pageId := by
  cases hmap : c.map pageId with
  | none => simp [LRUCache.get, hmap] at hget
  | some it =>
    obtain ⟨e, he, rfl⟩ := h.mem_of_map pageId it hmap
    have hlookup := h.lookup he
    simp only [LRUCache.get, hmap, hlookup, Option.bind_some] at hget
    exact hp _ he p hget

/-- Changing the pointer or the dirty flag of entries keeps the cache well formed. -/
theorem WellFormed.map_entries {c : LRUCache} (h : c.WellFormed)
    {f : ℕ × CacheEntry → ℕ × CacheEntry} (hf : ∀ n, (f n).1 = n.1)
    (hf' : ∀ n, (f n).2.pageId = n.2.pageId) :
    { c with lruList := c.lruList.map f : LRUCache }.WellFormed := by
  refine ⟨?_, ?_, ?_, ?_⟩
  · have : Prod.fst ∘ f = Prod.fst := funext hf
    simpa [List.map_map, this] using h.nodup
  · intro n hn
    obtain ⟨m, hm, rfl⟩ := List.mem_map.mp hn
    exact hf m ▸ h.created_lt m hm
  · intro n hn
    obtain ⟨m, hm, rfl⟩ := List.mem_map.mp hn
    simpa only [hf, hf'] using h.map_of_mem m hm
  · intro pageId it hi
    obtain ⟨e, he, hid⟩ := h.mem_of_map pageId it hi
    refine ⟨(f (it, e)).2, ?_, by rw [hf', hid]⟩
    have := @List.mem_map_of_mem _ _ _ _ f he
    rwa [show f (it, e) = (it, (f (it, e)).2) from Prod.ext (hf _) rfl] at this

theorem WellFormed.evictInternal {c : LRUCache} (h : c.WellFormed) (pager : Pager) :
    (c.evictInternal pager).1.WellFormed := by
  unfold LRUCache.evictInternal
  cases hlast : c.lruList.getLast? with
  | none => exact h
  | some last =>
    have hne : c.lruList ≠ [] := by
      rintro hnil
      simp [hnil] at hlast
    have hsplit : c.lruList.dropLast ++ [last] = c.lruList := by
      rw [List.getLast?_eq_some_getLast hne, Option.some.injEq] at hlast
      rw [← hlast, List.dropLast_append_getLast]
    have hmem : ∀ n ∈ c.lruList.dropLast, n ∈ c.lruList := fun n hn => by
      rw [← hsplit]
      exact List.mem_append_left _ hn
    have hnodup := h.nodup
    rw [← hsplit, List.map_append, List.nodup_append] at hnodup
    have hlastmem : last ∈ c.lruList := by rw [← hsplit]; simp
    -- two nodes with one page number would carry one iterator
    have hother : ∀ n ∈ c.lruList.dropLast, n.2.pageId ≠ last.2.pageId := by
      intro n hn heq
      have h1 := h.map_of_mem n (hmem n hn)
      rw [heq, h.map_of_mem last hlastmem, Option.some.injEq] at h1
      exact hnodup.2.2 n.1 (List.mem_map_of_mem hn) last.1 (by simp) h1.symm
    refine ⟨hnodup.1, fun n hn => h.created_lt n (hmem n hn), ?_, ?_⟩
    · intro n hn
      simpa [Function.update_of_ne (hother n hn)] using h.map_of_mem n (hmem n hn)
    · intro pageId it hi
      have hpage : pageId ≠ last.2.pageId := by
        rintro rfl
        simp at hi
      dsimp only at hi
      rw [Function.update_of_ne hpage] at hi
      obtain ⟨e, he, rfl⟩ := h.mem_of_map pageId it hi
      rw [← hsplit, List.mem_append] at he
      rcases he with he | he
      · exact ⟨e, he, rfl⟩
      · obtain rfl : (it, e) = last := by simpa using he
        exact absurd rfl hpage

theorem Points.evictInternal {c : LRUCache} (h : c.Points) (pager : Pager) :
    (c.evictInternal pager).1.Points := by
  unfold LRUCache.evictInternal
  cases c.lruList.getLast? with
  | none => exact h
  | some last => exact fun n hn => h n (List.dropLast_subset _ hn)

theorem evictInternal_map {c : LRUCache} {pager : Pager} {pageId : ℕ}
    (h : c.map pageId = none) : (c.evictInternal pager).1.map pageId = none := by
  unfold LRUCache.evictInternal
  cases c.lruList.getLast? with
  | none => exact h
  | some last => by_cases heq : pageId = last.2.pageId <;> simp [Function.update, heq, h]

theorem WellFormed.pushFront {c : LRUCache} (h : c.WellFormed) {e : CacheEntry}
    (hnew : c.map e.pageId = none) : (c.pushFront e).WellFormed := by
  have hother : ∀ n ∈ c.lruList, n.2.pageId ≠ e.pageId := by
    intro n hn heq
    simp [← heq, h.map_of_mem n hn] at hnew
  refine ⟨?_, ?_, ?_, ?_⟩
  · refine List.nodup_cons.mpr ⟨?_, h.nodup⟩
    intro hmem
    obtain ⟨n, hn, heq⟩ := List.mem_map.mp hmem
    have := h.created_lt n hn
    omega
  · intro n hn
    rcases List.mem_cons.mp hn with rfl | hn
    · simp [LRUCache.pushFront]
    · have := h.created_lt n hn
      simp only [LRUCache.pushFront]
      omega
  · intro n hn
    rcases List.mem_cons.mp hn with rfl | hn
    · simp [LRUCache.pushFront]
    · simpa [LRUCache.pushFront, Function.update_of_ne (hother n hn)] using h.map_of_mem n hn
  · intro pageId it hi
    by_cases heq : pageId = e.pageId
    · subst heq
      obtain rfl : c.created = it := by simpa [LRUCache.pushFront] using hi
      exact ⟨e, by simp [LRUCache.pushFront], rfl⟩
    · simp only [LRUCache.pushFront, Function.update_of_ne heq] at hi
      obtain ⟨e', he', hid⟩ := h.mem_of_map pageId it hi
      exact ⟨e', List.mem_cons_of_mem _ he', hid⟩

theorem WellFormed.put {c : LRUCache} (h : c.WellFormed) (pager : Pager) (pageId : ℕ)
    (page : Option ℕ) (dirty : Bool) : (c.put pager pageId page dirty).1.WellFormed := by
  unfold LRUCache.put
  cases hmap : c.map pageId with
  | some it =>
    refine WellFormed.splice (h.map_entries ?_ ?_) it
    · intro n
      split <;> rfl
    · intro n
      split <;> rfl
  | none =>
    dsimp only
    split
    · exact (h.evictInternal pager).pushFront (evictInternal_map hmap)
    · exact h.pushFront hmap

theorem Points.put {c : LRUCache} (h : c.Points) (hw : c.WellFormed) (pager : Pager)
    {pageId : ℕ} {page : Option ℕ} (hpage : ∀ p ∈ page, p = pageOffset pageId) (dirty : Bool) :
    (c.put pager pageId page dirty).1.Points := by
  have hpush : ∀ {c' : LRUCache}, c'.Points → (c'.pushFront ⟨pageId, page, dirty⟩).Points := by
    intro c' hc' n hn
    rcases List.mem_cons.mp hn with rfl | hn
    · exact hpage
    · exact hc' n hn
  unfold LRUCache.put
  cases hmap : c.map pageId with
  | some it =>
    intro n hn
    obtain ⟨m, hm, rfl⟩ := List.mem_map.mp (mem_splice.mp hn)
    by_cases hit : m.1 = it
    · -- the node behind the iterator is the one of this page number
      obtain ⟨e, he, hid⟩ := hw.mem_of_map pageId it hmap
      have heq : some m.2 = some e := by rw [← hw.lookup hm, hit, hw.lookup he]
      have hmid : m.2.pageId = pageId := by
        rw [Option.some.inj heq, hid]
      simpa [hit, hmid] using hpage
    · simpa [hit] using h m hm
  | none =>
    dsimp only
    split
    · exact hpush (h.evictInternal pager)
    · exact hpush h

theorem WellFormed.flushAllInternal {c : LRUCache} (h : c.WellFormed) (pager : Pager) :
    (c.flushAllInternal pager).1.WellFormed :=
  h.map_entries (fun _ => rfl) fun _ => rfl

theorem Points.flushAllInternal {c : LRUCache} (h : c.Points) (pager : Pager) :
    (c.flushAllInternal pager).1.Points := by
  intro n hn
  obtain ⟨m, hm, rfl⟩ := List.mem_map.mp hn
  exact h m hm

theorem WellFormed.clear (c : LRUCache) (pager : Pager) : (c.clear pager).1.WellFormed :=
  ⟨by simp [LRUCache.clear], by simp [LRUCache.clear], by simp [LRUCache.clear],
    by simp [LRUCache.clear]⟩

@[simp] theorem evictInternal_numPages (c : LRUCache) (pager : Pager) :
    (c.evictInternal pager).2.numPages = pager.numPages := by
  unfold LRUCache.evictInternal
  cases c.lruList.getLast? with
  | none => rfl
  | some last => dsimp only; split <;> rfl

@[simp] theorem put_numPages (c : LRUCache) (pager : Pager) (pageId : ℕ) (page : Option ℕ)
    (dirty : Bool) : (c.put pager pageId page dirty).2.numPages = pager.numPages := by
  unfold LRUCache.put
  cases c.map pageId with
  | some it => rfl
  | none => dsimp only; split <;> simp

end LRUCache

end FlexQL
