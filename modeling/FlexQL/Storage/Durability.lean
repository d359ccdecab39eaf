import FlexQL.Cache.CacheRecency
import FlexQL.Lib.Fallible
import FlexQL.Storage.PageBounds

/-!
# What a flush writes back

An insertion marks its page dirty in the cache. It keeps the pointer to its page and writes through it
without asking the cache, and the mark is lost when other pages have pushed that page out.
-/

namespace FlexQL

open ByteMemory Fallible Recency Runs

namespace ColumnReader

variable {cache cache' : CacheManager} {mem : ByteMemory} {rid fixedSize : ℕ}
  {out : Option (List UInt8)}

/-! ## Reads -/

theorem linearScan_request {pages : List ℕ} {currentRid : ℕ}
    (h : linearScan cache mem rid fixedSize pages currentRid = .ok (out, cache')) :
    ∃ as, cache' = cache.request as ∧ ∀ a ∈ as, a ∈ pages := by
  induction pages generalizing cache currentRid with
  | nil =>
    cases h
    exact ⟨[], rfl, by simp⟩
  | cons pi pages ih =>
    obtain ⟨off, -, h⟩ := bind_eq_ok h
    split at h
    · obtain ⟨slot, -, h⟩ := bind_eq_ok h
      cases h
      exact ⟨[pi], rfl, by simp⟩
    · obtain ⟨as, rfl, has⟩ := ih h
      exact ⟨pi :: as, rfl, List.forall_mem_cons.mpr
        ⟨List.mem_cons_self, fun a ha => List.mem_cons_of_mem _ (has a ha)⟩⟩

/-- The page that the fast path computes. -/
def fastPage (rid fixedSize : ℕ) : ℕ :=
  rid / ((pageSize - headerSize) / slotSize fixedSize) % 2 ^ 32

theorem fastPath_request (h : fastPath cache mem rid fixedSize = .ok (out, cache')) :
    cache' = cache.request (if fastPage rid fixedSize < cache.numPages then [fastPage rid fixedSize]
      else []) := by
  unfold fastPath at h
  by_cases hp : fastPage rid fixedSize < cache.numPages
  · rw [if_pos hp]
    rw [fastPage] at hp
    simp only [if_pos hp] at h
    obtain ⟨off, -, h⟩ := bind_eq_ok h
    split at h
    · obtain ⟨slot, -, h⟩ := bind_eq_ok h
      cases h
      rfl
    · cases h
      rfl
  · rw [if_neg hp]
    rw [fastPage] at hp
    simp only [if_neg hp] at h
    cases h
    rfl

/-- A read requests pages of the store. -/
theorem readAt_request (h : readAt cache mem rid fixedSize = .ok (out, cache')) :
    ∃ as, cache' = cache.request as ∧ ∀ a ∈ as, a < cache.numPages := by
  unfold readAt at h
  split at h
  · cases h
    exact ⟨[], rfl, by simp⟩
  · obtain ⟨⟨found, cache₁⟩, hfast, h⟩ := bind_eq_ok h
    have hcache₁ := fastPath_request hfast
    have hpage : ∀ a ∈ (if fastPage rid fixedSize < cache.numPages then [fastPage rid fixedSize]
        else []), a < cache.numPages := by
      split
      · simpa
      · simp
    cases found with
    | some slot =>
      cases h
      exact ⟨_, hcache₁, hpage⟩
    | none =>
      obtain ⟨as, hscan, has⟩ := linearScan_request h
      refine ⟨_ ++ as, by rw [CacheManager.request_append, ← hcache₁, hscan], fun a ha => ?_⟩
      rcases List.mem_append.mp ha with ha | ha
      · exact hpage a ha
      · have hlt := List.mem_range.mp (has a ha)
        rwa [hcache₁, CacheManager.request_numPages] at hlt

/-- The read of an item requests the page of that item. -/
theorem readAt_eq_request {size : ℕ} {items : List (List UInt8)}
    (hf : (SlotFormat.fixed size).Sound) (h : Pages (.fixed size) mem cache.numPages items)
    (hsize : ∀ item ∈ items, item.length = size) (hlt : rid < items.length) :
    readAt cache mem rid size =
      .ok (items[rid]?, cache.request [rid / (SlotFormat.fixed size).capacity]) := by
  have hpage := h.page_lt hf hlt
  have hfits := h.fits
  obtain ⟨cache', hfast, -⟩ := fastPath_eq hf h hsize rid
  have hcache := fastPath_request hfast
  have heq : fastPage rid size = rid / (SlotFormat.fixed size).capacity := by
    rw [fastPage, maxItems_eq hf, Nat.mod_eq_of_lt]
    simp only [mappedPages] at hfits
    omega
  rw [heq, if_pos hpage] at hcache
  rw [hcache, List.getElem?_eq_getElem hlt] at hfast
  unfold readAt
  rw [if_neg (by omega), List.getElem?_eq_getElem hlt]
  simp only [hfast, Bind.bind, Except.bind, Pure.pure, Except.pure]

end ColumnReader

namespace ColumnStore

variable {s u v : ColumnStore} {mem mem' : ByteMemory} {f : SlotFormat} {block : List UInt8}

/-! ## Insertions -/

theorem append_cache (h : s.append mem f block = .ok (u, mem')) :
    u.cache = s.cache.markDirty s.activePageIdx := by
  obtain ⟨off, -, h⟩ := bind_eq_ok h
  obtain ⟨mem₁, -, h⟩ := bind_eq_ok h
  cases h
  rfl

theorem newPage_cache (h : s.newPage mem f = .ok (v, mem')) :
    v.cache = (s.cache.allocatePage.2.getPage s.numPages).2 ∧
      v.activePage = (s.cache.allocatePage.2.getPage s.numPages).1 ∧ v.activePageIdx = s.numPages := by
  unfold newPage at h
  simp only [CacheManager.allocatePage_fst] at h
  split at h
  · cases h
    exact ⟨rfl, rfl, rfl⟩
  · obtain ⟨off, -, h⟩ := bind_eq_ok h
    cases h
    exact ⟨rfl, rfl, rfl⟩

/-- How an insertion uses the cache. -/
inductive Used (s : ColumnStore) (mem : ByteMemory) (f : SlotFormat) : CacheManager → Prop
  /-- The page that the store has kept has room. -/
  | kept (hroom : s.noRoom mem f = .ok false) :
      Used s mem f (s.cache.markDirty (s.numPages - 1))
  /-- The last page is requested and has room. -/
  | last (hpos : 0 < s.numPages) :
      Used s mem f ((s.cache.getPage (s.numPages - 1)).2.markDirty (s.numPages - 1))
  /-- A page is allocated and requested, possibly behind a request for the page before. -/
  | new (as : List ℕ) (has : ∀ a ∈ as, a < s.numPages) :
      Used s mem f (((s.cache.request as).allocatePage.2.getPage s.numPages).2.markDirty s.numPages)

theorem InUse.activePageIdx_eq (h : s.InUse) (hroom : s.noRoom mem f = .ok false) :
    s.activePageIdx = s.numPages - 1 := by
  rcases h.active with hnone | ⟨-, -, hidx⟩
  · simp [noRoom, hnone] at hroom
  · exact hidx

theorem InUse.insertItem_used (hs : s.InUse) (h : s.insertItem mem f block = .ok (u, mem')) :
    Used s mem f u.cache := by
  obtain ⟨full, hfull, h⟩ := bind_eq_ok h
  cases full with
  | false =>
    rw [append_cache h, hs.activePageIdx_eq hfull]
    exact .kept hfull
  | true =>
    simp only [if_true] at h
    split at h
    · rename_i hpos
      obtain ⟨off, -, h⟩ := bind_eq_ok h
      split at h
      · -- the last page is full as well
        obtain ⟨⟨v, mem₁⟩, hnew, h⟩ := bind_eq_ok h
        let w : ColumnStore := { s with
          cache := s.cache.request [s.numPages - 1]
          activePage := (s.cache.getPage (s.numPages - 1)).1 }
        have hnum : w.numPages = s.numPages := CacheManager.getPage_numPages ..
        obtain ⟨hcache, hactive, hidx⟩ := newPage_cache (s := w) hnew
        split at h
        · rename_i hnone
          rw [hactive, (allocatePage_getPage (hnum.trans_le hs.fits)).1] at hnone
          cases hnone
        · rw [append_cache h, hcache, hidx, hnum]
          exact .new [s.numPages - 1] (List.forall_mem_singleton.mpr (Nat.sub_one_lt hpos.ne'))
      · rw [append_cache h]
        exact .last hpos
    · obtain ⟨⟨v, mem₁⟩, hnew, h⟩ := bind_eq_ok h
      obtain ⟨hcache, -, hidx⟩ := newPage_cache hnew
      rw [append_cache h, hcache, hidx]
      exact .new [] (by simp)

theorem InUse.exists_inserted (hf : f.Sound) (hs : s.InUse) (hblock : block.length ≤ f.slotSize)
    (h : s.insertItem mem f block = .ok (u, mem')) : ∃ q, Inserted s u q := by
  by_cases hroom : s.HasRoom mem f
  · obtain ⟨u', hu', hins⟩ := insertItem_of_room hs hroom hblock
    rw [h] at hu'
    cases hu'
    exact ⟨_, hins⟩
  · rcases hs.fits.eq_or_lt with heq | hlt
    · rw [insertItem_eq_unmapped hs hroom heq] at h
      cases h
    · obtain ⟨u', hu', hins⟩ := insertItem_of_newPage hf hs hroom hlt hblock
      rw [h] at hu'
      cases hu'
      exact ⟨_, hins⟩

/-- What the cache owes to a store with pages. -/
structure Tended (s : ColumnStore) : Prop where
  inUse : s.InUse
  cached : s.cache.Cached
  capacity_eq : s.cache.cache.capacity = 256

theorem init_tended {filePath : Text} (h : init filePath mem = .ok s) : s.Tended := by
  have hinUse := init_inUse h
  rw [init_eq] at h
  cases h
  exact ⟨hinUse, CacheManager.init_cached 255, rfl⟩

theorem Tended.numPages_lt (h : s.Tended) : s.numPages + 1 < 2 ^ 32 := by
  have := h.inUse.fits
  simp only [mappedPages] at this
  omega

/-- What one insertion does to the cache. When the page that the store has kept is still there, the
page of the item is dirty. -/
theorem Used.spec {m : CacheManager} (h : Used s mem f m) (hs : s.Tended) :
    m.Cached ∧ m.cache.capacity = 256 ∧ CacheManager.Stepped s.cache m ∧
      ((s.noRoom mem f = .ok false → s.cache.Resident (s.numPages - 1)) → m.Dirty (m.numPages - 1)) := by
  have hcached := hs.cached
  have hcapacity := hs.capacity_eq
  cases h with
  | kept hroom =>
    refine ⟨hcached.markDirty _, (hcached.pages_markDirty _).2.trans hcapacity,
      hcached.faithful.markDirty _, fun hkept => ?_⟩
    rw [CacheManager.markDirty_numPages]
    exact CacheManager.dirty_markDirty (hkept hroom)
  | last hpos =>
    have hlt : s.numPages - 1 < s.cache.numPages := Nat.sub_one_lt hpos.ne'
    have hget := hcached.getPage hlt
    have hstepped := hcached.faithful.getPage (s.numPages - 1)
    refine ⟨hget.markDirty _, ?_, hstepped.trans (hstepped.faithful.markDirty _), fun _ => ?_⟩
    · exact ((hget.pages_markDirty _).2.trans (hcached.pages_getPage _).2).trans hcapacity
    · rw [CacheManager.markDirty_numPages, CacheManager.getPage_numPages]
      exact CacheManager.dirty_markDirty (hcached.resident_getPage hlt)
  | new as has =>
    have hrequested := hcached.request has
    have hnum : (s.cache.request as).numPages + 1 < 2 ^ 32 := by
      rw [CacheManager.request_numPages]
      exact hs.numPages_lt
    have halloc := hrequested.cached.allocatePage hnum
    have hnumPages : (s.cache.request as).allocatePage.2.numPages = s.numPages + 1 := by
      rw [CacheManager.allocatePage_numPages hnum, CacheManager.request_numPages]
      rfl
    have hlt : s.numPages < (s.cache.request as).allocatePage.2.numPages := by omega
    have hget := halloc.getPage hlt
    have hstepped : CacheManager.Stepped s.cache _ :=
      (hrequested.stepped.trans (hrequested.cached.faithful.allocatePage hnum)).trans
        (halloc.faithful.getPage s.numPages)
    refine ⟨hget.markDirty _, ?_, hstepped.trans (hstepped.faithful.markDirty _), fun _ => ?_⟩
    · rw [(hget.pages_markDirty _).2, (halloc.pages_getPage _).2]
      exact hrequested.capacity_eq.trans hcapacity
    · rw [CacheManager.markDirty_numPages, CacheManager.getPage_numPages, hnumPages]
      exact CacheManager.dirty_markDirty (halloc.resident_getPage hlt)

/-- The bytes of a page are changed. -/
def Changed (mem mem' : ByteMemory) (page : ℕ) : Prop :=
  ∃ a, pageOffset page ≤ a ∧ a < pageOffset page + pageSize ∧ mem' a ≠ mem a

/-- An insertion changes the last page only. -/
theorem WritesOnePage.eq_of_changed {q page : ℕ} (h : WritesOnePage s mem u mem' q)
    (hq : q < mappedPages) (hpage : page < mappedPages) (hchanged : Changed mem mem' page) :
    page = q := by
  obtain ⟨a, hle, hlt, hne⟩ := hchanged
  by_contra hother
  refine hne (h.outside a ?_)
  rw [pageOffset_of_lt hpage] at hle hlt
  rw [pageOffset_of_lt hq]
  simp only [pageSize] at *
  omega

/-- An insertion that comes to an end. -/
theorem InUse.writesOnePage (h : s.InUse) (hpos : 0 < block.length)
    (hle : block.length ≤ pageSize - headerSize) (hins : s.insertFixed mem block = .ok (u, mem')) :
    u.InUse ∧ ∃ q, WritesOnePage s mem u mem' q := by
  have htakes : TakesItem (s, mem) block := by
    refine ⟨hpos, hle, ?_⟩
    by_contra hno
    push Not at hno
    have heq : s.numPages = mappedPages := le_antisymm h.fits hno.2
    rw [ColumnStore.insertFixed, insertItem_eq_unmapped h hno.1 heq] at hins
    cases hins
  obtain ⟨u', mem₁, q, hins', hinUse, hwrites⟩ := h.insertFixed htakes
  rw [hins] at hins'
  cases hins'
  exact ⟨hinUse, q, hwrites⟩

theorem InUse.setCache (h : s.InUse) {cache : CacheManager} (hnum : cache.numPages = s.numPages) :
    { s with cache := cache : ColumnStore }.InUse := by
  have heq : { s with cache := cache : ColumnStore }.numPages = s.numPages := hnum
  exact ⟨heq ▸ h.fits, heq ▸ h.active⟩

/-! ## Runs -/

/-- A call on a store, or on a reader of it. -/
inductive Call
  | insertFixed (data : List UInt8)
  | readAt (rid fixedSize : ℕ)
  | flush
  deriving DecidableEq, Repr

def call (st : ColumnStore × ByteMemory) : Call → Except Fault (ColumnStore × ByteMemory)
  | .insertFixed data => st.1.insertFixed st.2 data
  | .readAt rid fixedSize => do
    let (_, cache) ← ColumnReader.readAt st.1.cache st.2 rid fixedSize
    return ({ st.1 with cache := cache }, st.2)
  | .flush => .ok (st.1.flush, st.2)

/-- The item has a size that fits on a page. -/
def FitsPage (data : List UInt8) : Prop := 0 < data.length ∧ data.length ≤ pageSize - headerSize

/-- The item fits on a page, and the page that the store has kept for it is still in the cache. -/
structure KeepsPage (st : ColumnStore × ByteMemory) (data : List UInt8) : Prop where
  fits : FitsPage data
  resident : st.1.noRoom st.2 (.fixed data.length) = .ok false →
    st.1.cache.Resident st.1.activePageIdx

/-- The condition on the insertions of a run. -/
def Meets (st : ColumnStore × ByteMemory) (c : Call) : Prop :=
  ∀ data, c = .insertFixed data → KeepsPage st data

instance (st : ColumnStore × ByteMemory) (c : Call) : Decidable (Meets st c) :=
  match c with
  | .insertFixed data =>
    decidable_of_iff ((0 < data.length ∧ data.length ≤ pageSize - headerSize) ∧
        (st.1.noRoom st.2 (.fixed data.length) = .ok false → st.1.cache.Resident st.1.activePageIdx))
      ⟨fun h _ hc => by cases hc; exact ⟨h.1, h.2⟩, fun h => ⟨(h data rfl).fits, (h data rfl).resident⟩⟩
  | .readAt .. => isTrue fun _ hc => by cases hc
  | .flush => isTrue fun _ hc => by cases hc

/-- A call that inserts an item that fits on a page, if any. -/
def Sized (c : Call) : Prop := ∀ data, c = .insertFixed data → FitsPage data

theorem FitsPage.sized {data : List UInt8} (h : FitsPage data) : Sized (.insertFixed data) := by
  rintro _ ⟨⟩
  exact h

theorem Meets.sized {st : ColumnStore × ByteMemory} {c : Call} (h : Meets st c) : Sized c :=
  fun data hc => (h data hc).fits

/-- One call. -/
theorem Tended.of_call (h : s.Tended) {c : Call} (hsized : Sized c)
    (hcall : call (s, mem) c = .ok (u, mem')) :
    u.Tended ∧ CacheManager.Stepped s.cache u.cache := by
  cases c with
  | insertFixed data =>
    obtain ⟨hpos, hle⟩ := hsized data rfl
    obtain ⟨hinUse, -⟩ := h.inUse.writesOnePage hpos hle hcall
    obtain ⟨hcached, hcapacity, hstepped, -⟩ := (h.inUse.insertItem_used hcall).spec h
    exact ⟨⟨hinUse, hcached, hcapacity⟩, hstepped⟩
  | readAt rid fixedSize =>
    obtain ⟨⟨out, cache⟩, hread, hcall⟩ := bind_eq_ok hcall
    cases hcall
    obtain ⟨as, rfl, has⟩ := ColumnReader.readAt_request hread
    have hrequested := h.cached.request has
    have hinUse := h.inUse.setCache (CacheManager.request_numPages s.cache as)
    exact ⟨⟨hinUse, hrequested.cached, hrequested.capacity_eq.trans h.capacity_eq⟩,
      hrequested.stepped⟩
  | flush =>
    cases hcall
    have hinUse := h.inUse.setCache (CacheManager.flush_numPages s.cache)
    exact ⟨⟨hinUse, h.cached.flush, h.capacity_eq⟩, h.cached.faithful.flush⟩

/-- The calls of a run. -/
theorem Tended.of_run (h : s.Tended) {calls : List Call}
    (hguard : Guarded call (fun _ => Sized) (s, mem) calls)
    (hrun : run call (s, mem) calls = .ok (u, mem')) :
    u.Tended ∧ CacheManager.Stepped s.cache u.cache := by
  refine hguard.run_induction (fun _ st => st.1.Tended ∧ CacheManager.Stepped s.cache st.1.cache)
    ?_ ⟨h, .refl h.cached.faithful⟩ hrun
  rintro - ⟨v, memᵥ⟩ c ⟨w, memw⟩ ⟨htended, hstepped⟩ hsized hcall
  obtain ⟨htended', hstepped'⟩ := htended.of_call hsized hcall
  exact ⟨htended', hstepped.trans hstepped'⟩

/-- An insertion that meets the condition leaves every page that it changes dirty. -/
theorem Tended.dirty_of_changed (h : s.Tended) {data : List UInt8} (hkeeps : KeepsPage (s, mem) data)
    (hcall : s.insertFixed mem data = .ok (u, mem')) {page : ℕ} (hpage : page < mappedPages)
    (hchanged : Changed mem mem' page) : u.cache.Dirty page := by
  obtain ⟨hinUse, q, hwrites⟩ := h.inUse.writesOnePage hkeeps.fits.1 hkeeps.fits.2 hcall
  obtain ⟨-, -, -, hdirty⟩ := (h.inUse.insertItem_used hcall).spec h
  have hlast : u.cache.numPages = q + 1 := hwrites.last
  have hq : q < mappedPages := by
    have := hinUse.fits
    rw [hwrites.last] at this
    exact this
  rw [hwrites.eq_of_changed hq hpage hchanged]
  have hlastDirty := hdirty fun hroom => h.inUse.activePageIdx_eq hroom ▸ hkeeps.resident hroom
  rwa [hlast, Nat.add_sub_cancel] at hlastDirty

/-- A dirty page is passed to `Pager::flush` by the next flush, or before it. -/
theorem flushedSince_of_dirty {m m' : CacheManager} {page : ℕ} (h : CacheManager.Stepped m m')
    (hdirty : m.Dirty page) : CacheManager.FlushedSince m m'.flush page := by
  obtain ⟨new, hnew, hkeeps⟩ := h.writesBack
  obtain ⟨new', hnew', hall⟩ := CacheManager.flush_flushed m'
  refine ⟨new' ++ new, by rw [hnew', hnew, List.append_assoc], ?_⟩
  rcases hkeeps page hdirty with hdirty | hmem
  · exact List.mem_append_left _ ((hall page).mpr hdirty)
  · exact List.mem_append_right _ hmem

/-- Whenever an insertion of the run has changed a page and the store is flushed later on, the page
has been passed to `Pager::flush` behind that insertion. -/
def Durable (s : ColumnStore) (mem : ByteMemory) (calls : List Call) : Prop :=
  ∀ past data later rest u memu v memv w memw,
    calls = past ++ .insertFixed data :: (later ++ .flush :: rest) →
    run call (s, mem) past = .ok (u, memu) → call (u, memu) (.insertFixed data) = .ok (v, memv) →
    run call (v, memv) later = .ok (w, memw) →
      ∀ page < mappedPages, Changed memu memv page →
        CacheManager.FlushedSince v.cache w.flush.cache page

theorem Tended.durable (hs : s.Tended) {calls : List Call}
    (hguard : Guarded call Meets (s, mem) calls) : Durable s mem calls := by
  rintro past data later rest u memu v memv w memw rfl hpast hinsert hlater page hpage hchanged
  obtain ⟨hguardPast, hguard⟩ := hguard.append
  obtain ⟨hmeets, hguard⟩ := hguard _ hpast
  obtain ⟨hguardLater, -⟩ := (hguard _ hinsert).append
  obtain ⟨hu, -⟩ := hs.of_run (hguardPast.mono fun _ _ h => h.sized) hpast
  obtain ⟨hv, -⟩ := hu.of_call hmeets.sized hinsert
  obtain ⟨-, hstepped⟩ := hv.of_run (hguardLater.mono fun _ _ h => h.sized) hlater
  exact flushedSince_of_dirty hstepped (hu.dirty_of_changed (hmeets data rfl) hinsert hpage hchanged)

/-! ## Stores of few pages -/

/-- The page that the store has kept is in the cache. -/
def ActiveResident (s : ColumnStore) : Prop :=
  s.activePage ≠ none → s.cache.Resident s.activePageIdx

theorem Tended.keepsPage (hactive : s.ActiveResident) {data : List UInt8} (hfits : FitsPage data) :
    KeepsPage (s, mem) data := by
  refine ⟨hfits, fun hroom => hactive fun hnone => ?_⟩
  simp [noRoom, hnone] at hroom

/-- With places for all pages, the page that the store keeps stays in the cache. -/
theorem Tended.activeResident (hs : s.Tended) (hactive : s.ActiveResident) {c : Call}
    (hsized : Sized c)
    (hcall : ColumnStore.call (s, mem) c = .ok (u, mem')) (hfew : s.numPages ≤ 256) :
    u.ActiveResident := by
  cases c with
  | insertFixed data =>
    have hkeeps : KeepsPage (s, mem) data := Tended.keepsPage hactive (hsized data rfl)
    obtain ⟨hinUse, -⟩ := hs.inUse.writesOnePage hkeeps.fits.1 hkeeps.fits.2 hcall
    obtain ⟨hcached, -, -, hdirty⟩ := (hs.inUse.insertItem_used hcall).spec hs
    obtain ⟨n, hn, hid, hd⟩ := hdirty fun hroom =>
      hs.inUse.activePageIdx_eq hroom ▸ hkeeps.resident hroom
    intro hsome
    rcases hinUse.active with hnone | ⟨-, -, hidx⟩
    · exact absurd hnone hsome
    · rw [hidx]
      exact ⟨n, hn, hid, hcached.full n hn⟩
  | readAt rid fixedSize =>
    obtain ⟨⟨out, cache⟩, hread, hcall⟩ := bind_eq_ok hcall
    cases hcall
    obtain ⟨as, rfl, has⟩ := ColumnReader.readAt_request hread
    exact fun hsome => hs.cached.resident_request_of_few (hs.capacity_eq ▸ hfew) has (hactive hsome)
  | flush =>
    cases hcall
    intro hsome
    change s.cache.flush.Resident s.activePageIdx
    rw [hs.cached.flush.resident_iff, CacheManager.flush_pages]
    exact hs.cached.resident_iff.mp (hactive hsome)

theorem Tended.guarded_of_few (hs : s.Tended) (hactive : s.ActiveResident) {calls : List Call}
    (hsized : ∀ c ∈ calls, Sized c)
    (hfew : ∀ past next st, calls = past ++ next → run call (s, mem) past = .ok st →
      st.1.numPages ≤ 256) : Guarded call Meets (s, mem) calls := by
  induction calls generalizing s mem with
  | nil => trivial
  | cons c calls ih =>
    have hc := hsized c List.mem_cons_self
    refine ⟨fun data heq => Tended.keepsPage hactive (hc data heq), ?_⟩
    rintro ⟨u, mem'⟩ hcall
    have hfew' := hfew [] (c :: calls) (s, mem) rfl rfl
    refine ih (hs.of_call hc hcall).1 (hs.activeResident hactive hc hcall hfew') ?_ ?_
    · exact fun c' hc' => hsized c' (List.mem_cons_of_mem _ hc')
    · intro past next st heq hrun
      refine hfew (c :: past) next st (by rw [heq]; rfl) ?_
      rw [run_cons_of_ok _ hcall]
      exact hrun

/-! ## Pages that were pushed out -/

theorem InUse.hasRoom (h : s.InUse) (hroom : s.noRoom mem f = .ok false) : s.HasRoom mem f := by
  rcases h.active with hnone | ⟨hpos, hactive, -⟩
  · simp [noRoom, hnone] at hroom
  · have hlt : s.numPages - 1 < mappedPages := (Nat.sub_one_lt hpos.ne').trans_le h.fits
    simp only [noRoom, hactive, mapped_of_lt hlt] at hroom
    exact ⟨hpos, Except.ok.inj hroom⟩

theorem InUse.noRoom_of_hasRoom (h : s.InUse) (hsome : s.activePage ≠ none) (hroom : s.HasRoom mem f) :
    s.noRoom mem f = .ok false := by
  rcases h.active with hnone | ⟨hpos, hactive, -⟩
  · exact absurd hnone hsome
  · have hlt : s.numPages - 1 < mappedPages := (Nat.sub_one_lt hpos.ne').trans_le h.fits
    simp only [noRoom, hactive, mapped_of_lt hlt, hroom.2, Bind.bind, Except.bind, Pure.pure,
      Except.pure]

/-- An item changes the number of items of its page. -/
theorem changed_putItem {page : ℕ} (hlt : numItems mem (pageOffset page) < f.capacity) :
    Changed mem (putItem mem f page block) page := by
  by_contra hno
  have hcount : numItems (putItem mem f page block) (pageOffset page) =
      numItems mem (pageOffset page) + 1 := by
    have hcap := f.capacity_le
    rw [numItems, putItem, read_write_encode, decode_encode]
    norm_num
    omega
  have hread : (putItem mem f page block).read (pageOffset page) 4 =
      mem.read (pageOffset page) 4 := by
    refine read_congr fun a hle ha => ?_
    by_contra hne
    refine hno ⟨a, hle, ?_, hne⟩
    simp only [pageSize]
    omega
  rw [numItems, hread, ← numItems] at hcount
  omega

/-- An insertion on a page that was pushed out is not written back by the next flush. -/
theorem Tended.not_flushed_of_evicted (h : s.Tended) (hroom : s.noRoom mem f = .ok false)
    (hblock : block.length ≤ f.slotSize) (hevicted : ¬ s.cache.Resident s.activePageIdx) :
    ∃ u mem' page, s.insertItem mem f block = .ok (u, mem') ∧ page < mappedPages ∧
      Changed mem mem' page ∧ ¬ CacheManager.FlushedSince u.cache u.flush.cache page := by
  have hhas := h.inUse.hasRoom hroom
  obtain ⟨u, hu, -⟩ := insertItem_of_room h.inUse hhas hblock
  refine ⟨u, _, s.numPages - 1, hu, ?_, changed_putItem (SlotFormat.numItems_lt hhas.2), ?_⟩
  · exact (Nat.sub_one_lt hhas.1.ne').trans_le h.inUse.fits
  · have happend : s.append mem f block = .ok (u, putItem mem f (s.numPages - 1) block) := by
      simpa only [insertItem, hroom, Bool.false_eq_true, if_false, Bind.bind, Except.bind] using hu
    change ¬ CacheManager.FlushedSince u.cache u.cache.flush _
    rw [CacheManager.flushedSince_flush_iff, append_cache happend, ← h.inUse.activePageIdx_eq hroom]
    exact h.cached.faithful.not_dirty_markDirty hevicted

/-- An insertion that does not meet the condition, and a flush right behind it. -/
theorem Tended.not_durable (hs : s.Tended) {past : List Call} {data : List UInt8}
    {st : ColumnStore × ByteMemory} (hsized : ∀ c ∈ past, Sized c)
    (hpast : run call (s, mem) past = .ok st) (hfits : FitsPage data) (hlost : ¬ KeepsPage st data) :
    ¬ Durable s mem (past ++ [.insertFixed data, .flush]) := by
  obtain ⟨u, memu⟩ := st
  obtain ⟨hu, -⟩ := hs.of_run (guarded_of_forall hsized _) hpast
  have hroom : u.noRoom memu (.fixed data.length) = .ok false ∧
      ¬ u.cache.Resident u.activePageIdx := by
    by_contra hkept
    rw [not_and, not_not] at hkept
    exact hlost ⟨hfits, hkept⟩
  have hblock : data.length ≤ (SlotFormat.fixed data.length).slotSize := le_rfl
  obtain ⟨v, memv, page, hins, hpage, hchanged, hnot⟩ :=
    hu.not_flushed_of_evicted hroom.1 hblock hroom.2
  exact fun hdurable => hnot (hdurable past data [] [] u memu v memv v memv rfl hpast hins rfl page
    hpage hchanged)

/-- A run is durable when each item fits on a page and each insertion with room on the page that the
store has kept finds that page in the cache. An insertion that does not is lost for a flush right
behind it. As long as the store has at most as many pages as the cache has places, all of them do. -/
theorem flush_durable_of_run (filePath : Text) (mem : ByteMemory) (s : ColumnStore)
    (hinit : init filePath mem = .ok s) (calls : List Call) :
    (Guarded call Meets (s, mem) calls → Durable s mem calls) ∧
      ((∀ c ∈ calls, Sized c) →
        (∀ past data st, calls = past ++ [.insertFixed data, .flush] →
          run call (s, mem) past = .ok st → ¬ KeepsPage st data → ¬ Durable s mem calls) ∧
        ((∀ past next st, calls = past ++ next → run call (s, mem) past = .ok st →
          st.1.numPages ≤ 256) → Guarded call Meets (s, mem) calls)) := by
  have hs := init_tended hinit
  refine ⟨hs.durable, fun hsized => ⟨?_, hs.guarded_of_few (fun hsome => ?_) hsized⟩⟩
  · rintro past data st rfl hpast hlost
    refine hs.not_durable (fun c hc => hsized c (List.mem_append_left _ hc)) hpast ?_ hlost
    exact hsized _ (List.mem_append_right _ List.mem_cons_self) data rfl
  · rw [init_eq] at hinit
    cases hinit
    exact absurd rfl hsome

/-- Two insertions, a read and a flush. -/
theorem flush_durable_of_run_two :
    Durable ⟨[], .init 256, 0, none, noPage⟩ (fun _ => 0)
      [.insertFixed [1], .insertFixed [2], .readAt 0 1, .flush] := by
  obtain ⟨hdurable, -⟩ := flush_durable_of_run [] (fun _ => 0) _ (init_eq _ _)
    [.insertFixed [1], .insertFixed [2], .readAt 0 1, .flush]
  exact hdurable (by decide +kernel)

/-! ## More pages than the cache has places -/

/-- A store that holds equal items, the last of which was just inserted. -/
theorem Holds.run_replicate {data : List UInt8} (hf : (SlotFormat.fixed data.length).Sound)
    {items : List (List UInt8)} (h : Holds (.fixed data.length) s mem items) (n : ℕ)
    (hfits : items.length + n < mappedPages * (4088 / data.length)) :
    ∃ u mem', run call (s, mem) (List.replicate (n + 1) (.insertFixed data)) = .ok (u, mem') ∧
      Holds (.fixed data.length) u mem' (items ++ List.replicate (n + 1) data) ∧
      u.activePage ≠ none := by
  induction n generalizing s mem items with
  | zero =>
    rcases insertFixed_spec data hf h with ⟨hfull, -⟩ | ⟨u, mem', hins, hu, -⟩
    · omega
    · exact ⟨u, mem', (run_singleton ..).trans hins, hu,
        (h.inUse.exists_inserted hf le_rfl hins).elim fun _ hq => by simp [hq.activePage_eq]⟩
  | succ n ih =>
    rcases insertFixed_spec data hf h with ⟨hfull, -⟩ | ⟨v, memv, hins, hv, -⟩
    · omega
    · obtain ⟨u, mem', hrun, hu, hactive⟩ := ih hv (by simp only [List.length_append, List.length_singleton]; omega)
      refine ⟨u, mem', (run_cons_of_ok _ hins).trans hrun, ?_, hactive⟩
      rw [List.append_assoc] at hu
      exact hu

/-- Reads of items request the pages of these items. -/
theorem Holds.run_reads {size : ℕ} (hf : (SlotFormat.fixed size).Sound) {items : List (List UInt8)}
    (h : Holds (.fixed size) s mem items) (hsize : ∀ item ∈ items, item.length = size)
    {rids : List ℕ} (hrids : ∀ rid ∈ rids, rid < items.length) :
    run call (s, mem) (rids.map fun rid => .readAt rid size) =
      .ok ({ s with
        cache := s.cache.request (rids.map fun rid => rid / (SlotFormat.fixed size).capacity) },
        mem) := by
  induction rids generalizing s with
  | nil => rfl
  | cons rid rids ih =>
    have hlt := hrids rid List.mem_cons_self
    have hread := ColumnReader.readAt_eq_request hf h.pages hsize hlt
    have hstep : call (s, mem) (.readAt rid size) = .ok ({ s with
        cache := s.cache.request [rid / (SlotFormat.fixed size).capacity] }, mem) := by
      simp only [call, hread, Bind.bind, Except.bind, Pure.pure, Except.pure]
    rw [List.map_cons, run_cons_of_ok _ hstep,
      ih (h.setCache (CacheManager.request_numPages ..)) fun rid hrid =>
        hrids rid (List.mem_cons_of_mem _ hrid)]
    rfl

theorem fitsPage_of_length {data : List UInt8} (hlength : data.length = 2044) : FitsPage data := by
  rw [FitsPage, hlength]
  decide

/-- Two items fill a page. With 513 items the store has kept page 256, and reads of the 256 pages before
it push it out. -/
theorem Tended.run_evicting (hs : s.Tended) (hnum : s.numPages = 0) (htotal : s.totalRows = 0)
    (hactive : s.activePage = none) {data : List UInt8} (hlength : data.length = 2044) :
    ∃ st, run call (s, mem) (List.replicate 513 (.insertFixed data) ++
        (List.range 256).map fun k => .readAt (2 * k) 2044) = .ok st ∧ ¬ KeepsPage st data := by
  have hf : (SlotFormat.fixed data.length).Sound := SlotFormat.fixed_sound (by omega) (by omega)
  have hcap : (SlotFormat.fixed data.length).capacity = 2 := by rw [hlength]; rfl
  obtain ⟨u, memu, hrun, hu, hsome⟩ := (holds_nil hf hnum htotal hactive mem).run_replicate hf 512 (by
    rw [hlength, List.length_nil]
    decide)
  have hsized : ∀ c ∈ List.replicate 513 (Call.insertFixed data), Sized c := by
    intro c hc
    rw [List.eq_of_mem_replicate hc]
    exact (fitsPage_of_length hlength).sized
  obtain ⟨htended, -⟩ := hs.of_run (guarded_of_forall hsized _) hrun
  rw [List.nil_append] at hu
  have hpages : u.numPages = 257 := by
    have hlt := hu.lt_length
    have hle := hu.pages.length_le
    rw [hcap, List.length_replicate] at hlt hle
    omega
  have hrids : ∀ rid ∈ (List.range 256).map (2 * ·), rid < (List.replicate 513 data).length := by
    intro rid hrid
    obtain ⟨k, hk, rfl⟩ := List.mem_map.mp hrid
    have := List.mem_range.mp hk
    rw [List.length_replicate]
    omega
  have hreads := hu.run_reads hf (fun _ hitem => by rw [List.eq_of_mem_replicate hitem]) hrids
  obtain ⟨as, has⟩ : ∃ as, as = List.range 256 := ⟨_, rfl⟩
  have hrequests : ((List.range 256).map (2 * ·)).map
      (fun rid => rid / (SlotFormat.fixed data.length).capacity) = as := by
    rw [has, hcap, List.map_map]
    refine (List.map_congr_left fun k _ => ?_).trans (List.map_id _)
    simp
  rw [hrequests, List.map_map, hlength] at hreads
  refine ⟨_, (run_append_of_ok _ hrun).trans hreads, fun hkeeps => ?_⟩
  -- page 256 has room for one more item
  have hroom : u.noRoom memu (.fixed data.length) = .ok false := by
    refine hu.inUse.noRoom_of_hasRoom hsome ((hu.hasRoom_iff hf).mpr ?_)
    rw [hcap, hpages, List.length_replicate]
    omega
  have hidx : u.activePageIdx = 256 := by
    rw [hu.inUse.activePageIdx_eq hroom, hpages]
  refine htended.cached.not_resident_request ?_ ?_ ?_ (hkeeps.resident hroom)
  · intro a ha
    rw [has] at ha
    have := List.mem_range.mp ha
    change a < u.numPages
    omega
  · rw [hidx, has, List.mem_range]
    omega
  · rw [htended.capacity_eq, has, List.toFinset_card_of_nodup List.nodup_range, List.length_range]

/-- The 514th item is lost for the flush. -/
theorem not_durable_evicted :
    ∃ s, init [] (fun _ => 0) = .ok s ∧ ¬ Durable s (fun _ => 0)
      (List.replicate 513 (.insertFixed (List.replicate 2044 7)) ++
        (List.range 256).map (fun k => .readAt (2 * k) 2044) ++
        [.insertFixed (List.replicate 2044 7), .flush]) := by
  have hs := init_tended (init_eq [] fun _ => 0)
  obtain ⟨st, hrun, hlost⟩ := hs.run_evicting rfl rfl rfl List.length_replicate
  have hfits : FitsPage (List.replicate 2044 7) := fitsPage_of_length List.length_replicate
  refine ⟨_, init_eq _ _, hs.not_durable (fun c hc => ?_) hrun hfits hlost⟩
  rcases List.mem_append.mp hc with hc | hc
  · rw [List.eq_of_mem_replicate hc]
    exact hfits.sized
  · obtain ⟨k, -, rfl⟩ := List.mem_map.mp hc
    rintro data ⟨⟩

end ColumnStore

end FlexQL
