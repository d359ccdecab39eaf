import FlexQL.Storage.ColumnLayout

/-!
# Where an insertion puts its item

An item goes to the last page when that page has room, and to a new page otherwise. This depends on
the number of pages and on the bytes of the last page only, so it also describes stores that share
a file.
-/

namespace FlexQL

open ByteMemory

/-- The bytes behind the beginning of a new page. -/
def clearPage (mem : ByteMemory) (f : SlotFormat) (q : ℕ) : ByteMemory :=
  (mem.write (pageOffset q) (List.replicate pageSize 0)).write (pageOffset q + 4) (encode 4 f.kind)

/-- The bytes behind an item that was put on a page. -/
def putItem (mem : ByteMemory) (f : SlotFormat) (q : ℕ) (block : List UInt8) : ByteMemory :=
  (mem.write (pageOffset q + f.slotOffset (numItems mem (pageOffset q))) block).write (pageOffset q)
    (encode 4 (numItems mem (pageOffset q) + 1))

theorem numItems_clearPage (mem : ByteMemory) (f : SlotFormat) (q : ℕ) :
    numItems (clearPage mem f q) (pageOffset q) = 0 := by
  rw [numItems, clearPage, read_write_disjoint (by simp),
    read_write_replicate le_rfl (by simp only [pageSize]; omega), decode_replicate_zero]

theorem SlotFormat.numItems_lt {f : SlotFormat} {mem : ByteMemory} {off : ℕ}
    (h : f.full mem off = false) : numItems mem off < f.capacity := by
  simp only [full, Bool.or_eq_false_iff, decide_eq_false_iff_not] at h
  omega

/-- The bytes outside a page that is cleared. -/
theorem clearPage_of_outside {mem : ByteMemory} {f : SlotFormat} {q a : ℕ}
    (ha : a < pageOffset q ∨ pageOffset q + pageSize ≤ a) : clearPage mem f q a = mem a := by
  simp only [pageSize] at ha
  rw [clearPage, write_of_outside, write_of_outside]
  · rw [List.length_replicate, pageSize]
    exact ha
  · rw [encode_length]
    omega

/-- The bytes outside a page that takes an item. -/
theorem putItem_of_outside {mem : ByteMemory} {f : SlotFormat} {q a : ℕ} {block : List UInt8}
    (hroom : numItems mem (pageOffset q) < f.capacity) (hblock : block.length ≤ f.slotSize)
    (ha : a < pageOffset q ∨ pageOffset q + pageSize ≤ a) : putItem mem f q block a = mem a := by
  have hslot := f.slot_end hroom
  simp only [pageSize] at ha
  rw [putItem, write_of_outside, write_of_outside]
  · simp only [SlotFormat.slotOffset, headerSize]
    omega
  · rw [encode_length]
    omega

namespace ColumnStore

/-- `pager_->get_num_pages()`. -/
def numPages (s : ColumnStore) : ℕ := s.cache.numPages

/-- The pages of the store are mapped, and the active page is the last one. -/
structure InUse (s : ColumnStore) : Prop where
  fits : s.numPages ≤ mappedPages
  active : s.activePage = none ∨ 0 < s.numPages ∧
    s.activePage = some (pageOffset (s.numPages - 1)) ∧ s.activePageIdx = s.numPages - 1

/-- The last page takes another item. -/
def HasRoom (s : ColumnStore) (mem : ByteMemory) (f : SlotFormat) : Prop :=
  0 < s.numPages ∧ f.full mem (pageOffset (s.numPages - 1)) = false

/-- The store behind an insertion on page `q`, its last page. -/
structure Inserted (s u : ColumnStore) (q : ℕ) : Prop where
  filePath_eq : u.filePath = s.filePath
  numPages_eq : u.numPages = q + 1
  totalRows_eq : u.totalRows = (s.totalRows + 1) % 2 ^ 64
  activePage_eq : u.activePage = some (pageOffset q)
  activePageIdx_eq : u.activePageIdx = q

theorem Inserted.inUse {s u : ColumnStore} {q : ℕ} (h : Inserted s u q) (hq : q < mappedPages) :
    u.InUse where
  fits := h.numPages_eq ▸ hq
  active := by
    rw [h.numPages_eq, Nat.add_sub_cancel]
    exact Or.inr ⟨Nat.succ_pos q, h.activePage_eq, h.activePageIdx_eq⟩

variable {f : SlotFormat} {s : ColumnStore} {mem : ByteMemory} {block : List UInt8}

/-- The end of an insertion, when the active page has room. -/
theorem append_eq (mem : ByteMemory) {q : ℕ} (hnum : s.numPages = q + 1) (hq : q < mappedPages)
    (hactive : s.activePage = some (pageOffset q)) (hidx : s.activePageIdx = q)
    (hroom : numItems mem (pageOffset q) < f.capacity) (hblock : block.length ≤ f.slotSize) :
    ∃ u, s.append mem f block = .ok (u, putItem mem f q block) ∧ Inserted s u q := by
  have hslot := f.slot_end hroom
  have haddr : headerSize + numItems mem (pageOffset q) * f.slotSize % 2 ^ 32 =
      f.slotOffset (numItems mem (pageOffset q)) := by
    rw [Nat.mod_eq_of_lt (by omega), SlotFormat.slotOffset]
  have hstore : store mem (pageOffset q + f.slotOffset (numItems mem (pageOffset q))) block =
      .ok (mem.write (pageOffset q + f.slotOffset (numItems mem (pageOffset q))) block) := by
    have := page_end hq
    refine if_pos ?_
    simp only [SlotFormat.slotOffset, headerSize]
    omega
  have hcount : numItems (mem.write
      (pageOffset q + f.slotOffset (numItems mem (pageOffset q))) block) (pageOffset q) =
      numItems mem (pageOffset q) := by
    rw [numItems, read_write_disjoint]
    · rfl
    · simp only [SlotFormat.slotOffset, headerSize]
      omega
  refine ⟨{ s with
    totalRows := (s.totalRows + 1) % 2 ^ 64
    cache := s.cache.markDirty s.activePageIdx }, ?_, rfl, ?_, rfl, hactive, hidx⟩
  · simp only [append, hactive, mapped_of_lt hq, haddr, Nat.add_assoc, hstore, hcount, putItem,
      Bind.bind, Except.bind, Pure.pure, Except.pure]
  · exact (CacheManager.markDirty_numPages _ _).trans hnum

theorem allocatePage_getPage (hfits : s.numPages ≤ mappedPages) :
    (s.cache.allocatePage.2.getPage s.numPages).1 = some (pageOffset s.numPages) ∧
      (s.cache.allocatePage.2.getPage s.numPages).2.numPages = s.numPages + 1 := by
  have hnum : s.cache.allocatePage.2.numPages = s.numPages + 1 :=
    CacheManager.allocatePage_numPages (by
      simp only [numPages, mappedPages] at *
      omega)
  exact ⟨CacheManager.getPage_of_lt (by omega), (CacheManager.getPage_numPages _ _).trans hnum⟩

/-- A new page and an item on it. -/
theorem newPage_append_eq (mem : ByteMemory) (hf : f.Sound) (hlt : s.numPages < mappedPages)
    (hblock : block.length ≤ f.slotSize) :
    ∃ v u, s.newPage mem f = .ok (v, clearPage mem f s.numPages) ∧ v.activePage ≠ none ∧
      v.append (clearPage mem f s.numPages) f block =
        .ok (u, putItem (clearPage mem f s.numPages) f s.numPages block) ∧
      Inserted s u s.numPages := by
  obtain ⟨hget, hnum⟩ := allocatePage_getPage hlt.le
  have hidx : s.cache.allocatePage.1 = s.numPages := rfl
  let v : ColumnStore := { s with
    cache := (s.cache.allocatePage.2.getPage s.numPages).2
    activePage := some (pageOffset s.numPages)
    activePageIdx := s.numPages }
  obtain ⟨u, hu, hins⟩ := append_eq (s := v) (clearPage mem f s.numPages) hnum hlt rfl rfl
    (numItems_clearPage mem f s.numPages ▸ hf.capacity_pos) hblock
  refine ⟨v, u, ?_, by simp [v], hu, ⟨hins.filePath_eq, hins.numPages_eq, hins.totalRows_eq,
    hins.activePage_eq, hins.activePageIdx_eq⟩⟩
  simp only [newPage, hidx, hget, mapped_of_lt hlt, Bind.bind, Except.bind, Pure.pure,
    Except.pure, v]
  rfl

theorem newPage_eq_unmapped (heq : s.numPages = mappedPages) :
    s.newPage mem f = .error .unmapped := by
  obtain ⟨hget, -⟩ := allocatePage_getPage heq.le
  have hidx : s.cache.allocatePage.1 = s.numPages := rfl
  rw [heq] at hidx hget
  simp only [newPage, hidx, hget, mapped_end, Bind.bind, Except.bind]

/-- The state behind the request for the last page. -/
theorem getPage_last (h : s.InUse) (hpos : 0 < s.numPages) :
    (s.cache.getPage (s.cache.numPages - 1)).1 = some (pageOffset (s.numPages - 1)) ∧
      mapped (some (pageOffset (s.numPages - 1))) = .ok (pageOffset (s.numPages - 1)) :=
  ⟨CacheManager.getPage_of_lt (by change s.numPages - 1 < s.numPages; omega),
    mapped_of_lt (by have := h.fits; omega)⟩

/-- An item for a page with room. -/
theorem insertItem_of_room (h : s.InUse) (hroom : s.HasRoom mem f)
    (hblock : block.length ≤ f.slotSize) :
    ∃ u, s.insertItem mem f block = .ok (u, putItem mem f (s.numPages - 1) block) ∧
      Inserted s u (s.numPages - 1) := by
  obtain ⟨hpos, hfull⟩ := hroom
  obtain ⟨hget, hmap⟩ := getPage_last h hpos
  have hlt : s.numPages - 1 < mappedPages := by have := h.fits; omega
  have hcount := SlotFormat.numItems_lt hfull
  have hgt : s.cache.numPages > 0 := hpos
  rcases h.active with ha | ⟨-, ha, hidx⟩
  · obtain ⟨u, hu, hins⟩ := append_eq (s := { s with
      cache := (s.cache.getPage (s.cache.numPages - 1)).2
      activePage := some (pageOffset (s.numPages - 1))
      activePageIdx := s.numPages - 1 }) mem
      ((CacheManager.getPage_numPages _ _).trans (by change s.numPages = _; omega)) hlt rfl rfl
      hcount hblock
    refine ⟨u, ?_, ⟨hins.filePath_eq, hins.numPages_eq, hins.totalRows_eq, hins.activePage_eq,
      hins.activePageIdx_eq⟩⟩
    simp only [insertItem, noRoom, ha, if_true, if_pos hgt, hget, hmap, hfull, Bool.false_eq_true,
      if_false, Bind.bind, Except.bind]
    exact hu
  · obtain ⟨u, hu, hins⟩ := append_eq mem (by omega) hlt ha hidx hcount hblock
    refine ⟨u, ?_, hins⟩
    simp only [insertItem, noRoom, ha, hmap, hfull, Bool.false_eq_true, if_false, Bind.bind,
      Except.bind, Pure.pure, Except.pure]
    exact hu

/-- Without room on the last page, an insertion begins with a new page. -/
theorem insertItem_of_noRoom (h : s.InUse) (hroom : ¬ s.HasRoom mem f) (block : List UInt8) :
    ∃ v : ColumnStore, v.numPages = s.numPages ∧ v.totalRows = s.totalRows ∧
      v.filePath = s.filePath ∧ s.insertItem mem f block = (do
        let (u, mem') ← v.newPage mem f
        if 0 < s.numPages ∧ u.activePage = none then return (u, mem')
        u.append mem' f block) := by
  rcases Nat.eq_zero_or_pos s.numPages with hzero | hpos
  · have hactive : s.activePage = none := h.active.resolve_right fun ha => by omega
    have hnot : ¬ s.cache.numPages > 0 := by change ¬ s.numPages > 0; omega
    refine ⟨s, rfl, rfl, rfl, ?_⟩
    simp only [insertItem, noRoom, hactive, if_true, if_neg hnot, hzero, Nat.lt_irrefl, false_and,
      if_false, Bind.bind, Except.bind]
  · obtain ⟨hget, hmap⟩ := getPage_last h hpos
    have hfull : f.full mem (pageOffset (s.numPages - 1)) = true := by
      by_contra hfull
      exact hroom ⟨hpos, by simpa using hfull⟩
    have hgt : s.cache.numPages > 0 := hpos
    have hno : s.noRoom mem f = .ok true := by
      rcases h.active with ha | ⟨-, ha, -⟩
      · simp only [noRoom, ha]
      · simp only [noRoom, ha, hmap, hfull, Bind.bind, Except.bind, Pure.pure, Except.pure]
    refine ⟨{ s with
      cache := (s.cache.getPage (s.cache.numPages - 1)).2
      activePage := some (pageOffset (s.numPages - 1)) }, CacheManager.getPage_numPages _ _, rfl,
      rfl, ?_⟩
    simp only [insertItem, hno, if_true, if_pos hgt, hget, hmap, hfull, hpos, true_and, Bind.bind,
      Except.bind]

/-- An item for a new page. -/
theorem insertItem_of_newPage (hf : f.Sound) (h : s.InUse) (hroom : ¬ s.HasRoom mem f)
    (hlt : s.numPages < mappedPages) (hblock : block.length ≤ f.slotSize) :
    ∃ u, s.insertItem mem f block =
        .ok (u, putItem (clearPage mem f s.numPages) f s.numPages block) ∧
      Inserted s u s.numPages := by
  obtain ⟨v, hnum, htotal, hpath, heq⟩ := insertItem_of_noRoom h hroom block
  obtain ⟨v', u, hv', hactive, hu, hins⟩ :=
    newPage_append_eq (s := v) mem hf (hnum ▸ hlt) hblock
  rw [hnum] at hv' hu hins
  refine ⟨u, ?_, ⟨hins.filePath_eq.trans hpath, hins.numPages_eq, ?_, hins.activePage_eq,
    hins.activePageIdx_eq⟩⟩
  · simp only [heq, hv', hactive, and_false, if_false, hu, Bind.bind, Except.bind]
  · rw [hins.totalRows_eq, htotal]

/-- There is no page for the item. -/
theorem insertItem_eq_unmapped (h : s.InUse) (hroom : ¬ s.HasRoom mem f)
    (heq : s.numPages = mappedPages) : s.insertItem mem f block = .error .unmapped := by
  obtain ⟨v, hnum, -, -, hins⟩ := insertItem_of_noRoom h hroom block
  simp only [hins, newPage_eq_unmapped (hnum.trans heq), Bind.bind, Except.bind]

end ColumnStore

end FlexQL
