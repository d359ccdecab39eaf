import FlexQL.Storage.ColumnInsert
import FlexQL.Lib.Runs

/-!
# A column store is a list

What a store and its reader do, in terms of the items inserted since the last `clear`.
-/

namespace FlexQL

open ByteMemory Runs

namespace ColumnStore

/-- The store holds the items. -/
structure Holds (f : SlotFormat) (s : ColumnStore) (mem : ByteMemory)
    (items : List (List UInt8)) : Prop where
  pages : Pages f mem s.numPages items
  /-- The last page is in use. -/
  lt_length : s.numPages * f.capacity < items.length + f.capacity
  totalRows_eq : s.totalRows = items.length
  active : s.activePage = none ∨ 0 < s.numPages ∧
    s.activePage = some (pageOffset (s.numPages - 1)) ∧ s.activePageIdx = s.numPages - 1

variable {f : SlotFormat} {s : ColumnStore} {mem : ByteMemory} {items : List (List UInt8)}
  {block : List UInt8}

theorem holds_nil (hf : f.Sound) (hnum : s.numPages = 0) (htotal : s.totalRows = 0)
    (hactive : s.activePage = none) (mem : ByteMemory) : Holds f s mem [] where
  pages := by
    rw [hnum]
    exact ⟨by omega, by simp, by simp, by omega, by omega, by simp⟩
  lt_length := by rw [hnum]; simpa using hf.capacity_pos
  totalRows_eq := htotal
  active := Or.inl hactive

theorem init_eq (filePath : Text) (mem : ByteMemory) :
    init filePath mem = .ok ⟨filePath, .init 256, 0, none, noPage⟩ := rfl

/-- A new store is empty, whatever its file holds. -/
theorem init_holds (hf : f.Sound) (filePath : Text) (mem : ByteMemory) :
    ∃ s, init filePath mem = .ok s ∧ Holds f s mem [] :=
  ⟨_, init_eq filePath mem, holds_nil hf rfl rfl rfl mem⟩

theorem clear_holds (hf : f.Sound) (s : ColumnStore) (mem : ByteMemory) :
    Holds f s.clear mem [] := holds_nil hf rfl rfl rfl mem

/-- A store does not depend on the content of its cache. -/
theorem Holds.setCache (h : Holds f s mem items) {cache : CacheManager}
    (hnum : cache.numPages = s.numPages) : Holds f { s with cache := cache } mem items := by
  have hnum' : ({ s with cache := cache } : ColumnStore).numPages = s.numPages := hnum
  obtain ⟨h1, h2, h3, h4⟩ := h
  rw [← hnum'] at h1 h2 h4
  exact ⟨h1, h2, h3, h4⟩

/-! ## Insertion -/

theorem Holds.inUse (h : Holds f s mem items) : s.InUse := ⟨h.pages.fits, h.active⟩

/-- The last page has room as long as it is not filled with items. -/
theorem Holds.hasRoom_iff (hf : f.Sound) (h : Holds f s mem items) :
    s.HasRoom mem f ↔ items.length < s.numPages * f.capacity := by
  have hlt := h.lt_length
  have hle := h.pages.length_le
  rcases Nat.eq_zero_or_pos s.numPages with hzero | hpos
  · simp [HasRoom, hzero]
  · have hmul : s.numPages * f.capacity = (s.numPages - 1) * f.capacity + f.capacity := by
      conv_lhs => rw [← Nat.sub_add_cancel hpos, Nat.add_mul, Nat.one_mul]
    have hfull := h.pages.full_eq hf (show s.numPages - 1 < s.numPages by omega)
    simp only [HasRoom, hpos, true_and, hfull, decide_eq_false_iff_not]
    omega

/-- An item on the last page. -/
theorem Holds.of_inserted (hf : f.Sound) {q : ℕ} (hpages : Pages f mem (q + 1) items)
    (hlo : q * f.capacity ≤ items.length) (hhi : items.length < (q + 1) * f.capacity)
    (htotal : s.totalRows = items.length) (hblock : block.length ≤ f.slotSize) {u : ColumnStore}
    (hins : Inserted s u q) : Holds f u (putItem mem f q block) (items ++ [block]) := by
  have hmul : (q + 1) * f.capacity = q * f.capacity + f.capacity := by rw [Nat.add_mul, Nat.one_mul]
  have hcount : numItems mem (pageOffset q) = items.length - q * f.capacity := by
    rw [hpages.header q (by omega)]
    omega
  have hlength : items.length + 1 < 2 ^ 64 := by
    have h1 : (q + 1) * f.capacity ≤ mappedPages * 4088 :=
      Nat.mul_le_mul hpages.fits f.capacity_le
    simp only [mappedPages] at h1
    omega
  refine ⟨?_, ?_, ?_, (hins.inUse hpages.fits).active⟩
  · rw [hins.numPages_eq, putItem, hcount]
    exact hpages.append hf hlo hhi hblock
  · rw [hins.numPages_eq, List.length_append, List.length_singleton]
    omega
  · rw [hins.totalRows_eq, htotal, Nat.mod_eq_of_lt hlength, List.length_append,
      List.length_singleton]

/-- `insert_fixed` and `insert_variable` append an item, as long as there is a page for it. -/
theorem insertItem_spec (hf : f.Sound) (h : Holds f s mem items)
    (hblock : block.length ≤ f.slotSize) :
    (items.length = mappedPages * f.capacity ∧ s.insertItem mem f block = .error .unmapped) ∨
    ∃ s' mem', s.insertItem mem f block = .ok (s', mem') ∧ Holds f s' mem' (items ++ [block]) ∧
      s'.filePath = s.filePath := by
  have hle := h.pages.length_le
  have hlt := h.lt_length
  by_cases hroom : s.HasRoom mem f
  · have hpos := hroom.1
    have hhi := (h.hasRoom_iff hf).mp hroom
    obtain ⟨q, hq⟩ : ∃ q, s.numPages = q + 1 := ⟨s.numPages - 1, by omega⟩
    obtain ⟨u, hu, hins⟩ := insertItem_of_room h.inUse hroom hblock
    rw [hq, Nat.add_sub_cancel] at hins
    refine Or.inr ⟨u, _, hu, ?_, hins.filePath_eq⟩
    rw [hq, Nat.add_mul, Nat.one_mul] at hlt
    rw [hq] at hhi
    rw [hq, Nat.add_sub_cancel]
    exact Holds.of_inserted hf (hq ▸ h.pages) (by omega) hhi h.totalRows_eq hblock hins
  · have hfull : items.length = s.numPages * f.capacity := by
      have := (h.hasRoom_iff hf).not.mp hroom
      omega
    rcases h.pages.fits.eq_or_lt with heq | hfits
    · exact Or.inl ⟨heq ▸ hfull, insertItem_eq_unmapped h.inUse hroom heq⟩
    · obtain ⟨u, hu, hins⟩ := insertItem_of_newPage hf h.inUse hroom hfits hblock
      refine Or.inr ⟨u, _, hu, ?_, hins.filePath_eq⟩
      have hpos := hf.capacity_pos
      exact Holds.of_inserted hf (h.pages.newPage hf hfits hfull) hfull.ge
        (by rw [Nat.add_mul]; omega) h.totalRows_eq hblock hins

end ColumnStore

/-! ## Reading -/

namespace ColumnReader

open ColumnStore

variable {f : SlotFormat} {mem : ByteMemory} {n size : ℕ} {items : List (List UInt8)}
  {cache : CacheManager}

/-- A reader sees an allocated page. -/
theorem mapped_getPage {p : ℕ} (hp : p < cache.numPages) (hfits : cache.numPages ≤ mappedPages) :
    mapped (cache.getPage p).1 = .ok (pageOffset p) := by
  rw [CacheManager.getPage_of_lt hp, mapped_of_lt (by omega)]

/-- The number of items on the first pages. -/
theorem Pages.step_count (h : Pages f mem n items) {j : ℕ} (hj : j < n) :
    min (j * f.capacity) items.length + numItems mem (pageOffset j) =
      min ((j + 1) * f.capacity) items.length := by
  rw [h.header j hj, Nat.add_mul, Nat.one_mul]
  omega

/-- Counting the items of all pages. -/
theorem getTotalRows_eq (h : Pages f mem cache.numPages items) :
    ∃ cache', getTotalRows cache mem = .ok (items.length, cache') ∧
      cache'.numPages = cache.numPages := by
  have hloop : ∀ fuel j (c : CacheManager), c.numPages = cache.numPages →
      j + fuel = cache.numPages → ∃ c', sumItems c mem (List.range' j fuel)
        (min (j * f.capacity) items.length) = .ok (items.length, c') ∧
        c'.numPages = cache.numPages := by
    intro fuel
    induction fuel with
    | zero =>
      intro j c hc hj
      obtain rfl : j = cache.numPages := hj
      exact ⟨c, by rw [Nat.min_eq_right h.length_le]; rfl, hc⟩
    | succ fuel ih =>
      intro j c hc hj
      have hlt : j < cache.numPages := by omega
      obtain ⟨c', hc', hnum⟩ := ih (j + 1) (c.getPage j).2
        ((CacheManager.getPage_numPages c j).trans hc) (by omega)
      refine ⟨c', ?_, hnum⟩
      rw [List.range'_succ]
      simp only [sumItems, mapped_getPage (hc ▸ hlt) (hc ▸ h.fits), Pages.step_count h hlt,
        Bind.bind, Except.bind, hc']
  obtain ⟨c', hc', hnum⟩ := hloop cache.numPages 0 cache rfl (by omega)
  exact ⟨c', by simpa [getTotalRows, List.range_eq_range'] using hc', hnum⟩

/-- The bytes of a slot in use. -/
theorem readSlot_eq (h : Pages (.fixed size) mem n items) (hf : (SlotFormat.fixed size).Sound)
    (hsize : ∀ item ∈ items, item.length = size) {i : ℕ} {item : List UInt8}
    (hi : items[i]? = some item) {k : ℕ} (hk : k = i % (SlotFormat.fixed size).capacity) :
    readSlot mem (pageOffset (i / (SlotFormat.fixed size).capacity)) (k % 2 ^ 32) size =
      .ok item := by
  have hpos : size > 0 := hf.pos
  have hlt := (List.getElem?_eq_some_iff.mp hi).1
  have hslot := h.slot i item hi
  have hle := h.slot_le hf hi
  have hpage := page_end (lt_of_lt_of_le (h.page_lt hf hlt) h.fits)
  have hcap := (SlotFormat.fixed size).capacity_le
  have hmod := Nat.mod_lt i hf.capacity_pos
  have hend := (SlotFormat.fixed size).slot_end hmod
  rw [hsize item (List.mem_of_getElem? hi)] at hslot hle
  have hk' : k % 2 ^ 32 = i % (SlotFormat.fixed size).capacity := by
    rw [hk, Nat.mod_eq_of_lt (by omega)]
  simp only [SlotFormat.slotOffset, SlotFormat.fixed_slotSize] at hslot hle hend
  have hmul : i % (SlotFormat.fixed size).capacity * size % 2 ^ 32 =
      i % (SlotFormat.fixed size).capacity * size := Nat.mod_eq_of_lt (by omega)
  simp only [readSlot, slotSize, if_pos hpos, hk', hmul]
  rw [load, if_pos (by omega), Nat.add_assoc, hslot]

/-- The direct computation, for a reader with `m` items on a page: it takes slot `rid % m` of page
`rid / m`, if there is an item in this slot. A page number that is cut to 32 bits does not bring it
to another item. -/
theorem fastPath_of_pages (h : Pages f mem cache.numPages items) {m : ℕ}
    (hm : (pageSize - headerSize) / slotSize size = m) (rid : ℕ) :
    ∃ cache', cache'.numPages = cache.numPages ∧ fastPath cache mem rid size =
      if rid % m < min f.capacity (items.length - rid / m * f.capacity) then
        (readSlot mem (pageOffset (rid / m)) (rid % m % 2 ^ 32) size).map fun out => (some out, cache')
      else .ok (none, cache') := by
  have hfits := h.fits
  have hcap := f.capacity_le
  have hdm := Nat.div_add_mod rid m
  rw [Nat.mul_comm] at hdm
  unfold fastPath
  simp only [hm]
  by_cases hp : rid / m % 2 ^ 32 < cache.numPages
  · have hmap := mapped_getPage hp hfits
    have hheader := h.header _ hp
    have hnum := CacheManager.getPage_numPages cache (rid / m % 2 ^ 32)
    refine ⟨_, hnum, ?_⟩
    rw [if_pos hp]
    rcases Nat.lt_or_ge (rid / m) (2 ^ 32) with hpage | hpage
    · rw [Nat.mod_eq_of_lt hpage] at hmap hheader ⊢
      have hlocal : rid - rid / m * m = rid % m := by omega
      by_cases hin : rid % m < min f.capacity (items.length - rid / m * f.capacity)
      · have hhit : rid ≥ rid / m * m ∧ rid < rid / m * m + numItems mem (pageOffset (rid / m)) := by
          rw [hheader]
          omega
        simp only [hmap, if_pos hhit, if_pos hin, hlocal, Bind.bind, Except.bind, Pure.pure, Except.pure]
        cases readSlot mem (pageOffset (rid / m)) (rid % m % 2 ^ 32) size <;> rfl
      · have hmiss : ¬ (rid ≥ rid / m * m ∧ rid < rid / m * m + numItems mem (pageOffset (rid / m))) := by
          rw [hheader]
          omega
        simp only [hmap, if_neg hmiss, if_neg hin, Bind.bind, Except.bind, Pure.pure, Except.pure]
    · -- the page that is asked for lies far behind the last one
      have hfar : rid / m % 2 ^ 32 + 2 ^ 32 ≤ rid / m := by
        have := Nat.div_add_mod (rid / m) (2 ^ 32)
        have hdiv : 1 ≤ rid / m / 2 ^ 32 := (Nat.le_div_iff_mul_le (by norm_num)).mpr (by omega)
        omega
      have hm1 : 1 ≤ m := by
        rcases Nat.eq_zero_or_pos m with rfl | hpos
        · simp at hpage
        · exact hpos
      have hmiss : ¬ (rid ≥ rid / m % 2 ^ 32 * m ∧
          rid < rid / m % 2 ^ 32 * m + numItems mem (pageOffset (rid / m % 2 ^ 32))) := by
        rintro ⟨-, hin⟩
        rw [hheader] at hin
        have hle := Nat.mul_le_mul_right m hfar
        rw [Nat.add_mul] at hle
        have hle' := Nat.mul_le_mul_left (2 ^ 32) hm1
        omega
      have hnone : ¬ rid % m < min f.capacity (items.length - rid / m * f.capacity) := by
        have hle := h.length_le
        have hle' : cache.numPages * f.capacity ≤ rid / m * f.capacity :=
          Nat.mul_le_mul_right _ (by simp only [mappedPages] at hfits; omega)
        omega
      simp only [hmap, if_neg hmiss, if_neg hnone, Bind.bind, Except.bind, Pure.pure, Except.pure]
  · refine ⟨cache, rfl, ?_⟩
    have hnone : ¬ rid % m < min f.capacity (items.length - rid / m * f.capacity) := by
      have hle := h.length_le
      have hge : cache.numPages ≤ rid / m := le_trans (Nat.le_of_not_lt hp) (Nat.mod_le _ _)
      have hle' := Nat.mul_le_mul_right f.capacity hge
      omega
    rw [if_neg hp, if_neg hnone]
    rfl

/-- The walk over all pages comes to the page of the item, whatever the size that is read. -/
theorem linearScan_of_pages (hf : f.Sound) (h : Pages f mem cache.numPages items) (size rid : ℕ) :
    ∃ cache', cache'.numPages = cache.numPages ∧
      linearScan cache mem rid size (List.range cache.numPages) 0 =
        if rid < items.length then
          (readSlot mem (pageOffset (rid / f.capacity)) (rid % f.capacity % 2 ^ 32) size).map fun out =>
            (some out, cache')
        else .ok (none, cache') := by
  have hcap := hf.capacity_pos
  have hloop : ∀ fuel j (c : CacheManager), c.numPages = cache.numPages →
      j + fuel = cache.numPages → min (j * f.capacity) items.length ≤ rid →
      ∃ c', c'.numPages = cache.numPages ∧ linearScan c mem rid size (List.range' j fuel)
        (min (j * f.capacity) items.length) = if rid < items.length then
          (readSlot mem (pageOffset (rid / f.capacity)) (rid % f.capacity % 2 ^ 32) size).map fun out =>
            (some out, c')
        else .ok (none, c') := by
    intro fuel
    induction fuel with
    | zero =>
      intro j c hc hj hrid
      obtain rfl : j = cache.numPages := hj
      rw [Nat.min_eq_right h.length_le] at hrid
      exact ⟨c, hc, by rw [if_neg (by omega)]; rfl⟩
    | succ fuel ih =>
      intro j c hc hj hrid
      have hlt : j < cache.numPages := by omega
      have hmap := mapped_getPage (hc ▸ hlt) (hc ▸ h.fits)
      have hcount := Pages.step_count h hlt
      have hnum := (CacheManager.getPage_numPages c j).trans hc
      rw [List.range'_succ]
      by_cases hin : rid < min ((j + 1) * f.capacity) items.length
      · rw [Nat.add_mul, Nat.one_mul] at hin
        have hmin : min (j * f.capacity) items.length = j * f.capacity := by omega
        have hdiv : rid / f.capacity = j := by
          rw [Nat.div_eq_iff hcap]
          omega
        have hdm := Nat.div_add_mod rid f.capacity
        rw [hdiv, Nat.mul_comm] at hdm
        have hlocal : rid - j * f.capacity = rid % f.capacity := by omega
        rw [hmin] at hcount ⊢
        have hin' : rid < j * f.capacity + numItems mem (pageOffset j) := by
          rw [hcount, Nat.add_mul, Nat.one_mul]
          omega
        refine ⟨_, hnum, ?_⟩
        simp only [linearScan, hmap, if_pos hin', if_pos (show rid < items.length by omega), hlocal, hdiv,
          Bind.bind, Except.bind, Pure.pure, Except.pure]
        cases readSlot mem (pageOffset j) (rid % f.capacity % 2 ^ 32) size <;> rfl
      · obtain ⟨c', hnum', hc'⟩ := ih (j + 1) (c.getPage j).2 hnum (by omega) (by omega)
        refine ⟨c', hnum', ?_⟩
        simp only [linearScan, hmap, hcount, if_neg hin, hc', Bind.bind, Except.bind]
  obtain ⟨c', hnum, hc'⟩ := hloop cache.numPages 0 cache rfl (by omega) (by omega)
  exact ⟨c', hnum, by simpa [List.range_eq_range'] using hc'⟩

/-- The page and the slot where a reader with `m` items on a page looks for an item of a column with
`n` items. -/
def place (f : SlotFormat) (m n rid : ℕ) : ℕ × ℕ :=
  if rid % m < min f.capacity (n - rid / m * f.capacity) then (rid / m, rid % m)
  else (rid / f.capacity, rid % f.capacity)

/-- A reader of any size reads some slot for each item of the column. -/
theorem readAt_of_lt (hf : f.Sound) (h : Pages f mem cache.numPages items) {m : ℕ}
    (hm : (pageSize - headerSize) / slotSize size = m) {rid : ℕ} (hrid : rid < items.length) :
    ∃ cache', readAt cache mem rid size =
      (readSlot mem (pageOffset (place f m items.length rid).1)
        ((place f m items.length rid).2 % 2 ^ 32) size).map fun out => (some out, cache') := by
  have hpos : cache.numPages ≠ 0 := by
    intro hzero
    have := h.length_le
    rw [hzero, Nat.zero_mul] at this
    omega
  obtain ⟨c, hnum, hfast⟩ := fastPath_of_pages h hm rid
  unfold readAt place
  rw [if_neg hpos, hfast]
  by_cases hhit : rid % m < min f.capacity (items.length - rid / m * f.capacity)
  · refine ⟨c, ?_⟩
    simp only [if_pos hhit]
    cases readSlot mem (pageOffset (rid / m)) (rid % m % 2 ^ 32) size <;> rfl
  · obtain ⟨c', -, hscan⟩ := linearScan_of_pages hf (hnum ▸ h) size rid
    refine ⟨c', ?_⟩
    simp only [if_neg hhit, Bind.bind, Except.bind, hscan, if_pos hrid]

/-- A slot of a fixed size is copied as it is. -/
theorem readSlot_eq_load (mem : ByteMemory) (off : ℕ) {k : ℕ} (hpos : 0 < size) (hk : k * size < 2 ^ 32) :
    readSlot mem off (k % 2 ^ 32) size = load mem (off + (headerSize + k * size)) size := by
  have hk' : k < 2 ^ 32 := lt_of_le_of_lt (Nat.le_mul_of_pos_right k hpos) hk
  simp only [readSlot, slotSize, if_pos (show size > 0 from hpos), Nat.mod_eq_of_lt hk', Nat.mod_eq_of_lt hk,
    Nat.add_assoc]

theorem eq_read_of_load {addr len : ℕ} {buf : List UInt8} (h : load mem addr len = .ok buf) :
    buf = mem.read addr len := by
  rw [load] at h
  split at h
  · exact (Except.ok.inj h).symm
  · cases h

/-- What `read_at` gets out of the slots in use. -/
structure Readable (f : SlotFormat) (mem : ByteMemory) (size : ℕ) (outs : List (List UInt8)) :
    Prop where
  slotSize_eq : slotSize size = f.slotSize
  read : ∀ i out, outs[i]? = some out → ∀ k, k = i % f.capacity →
    readSlot mem (pageOffset (i / f.capacity)) (k % 2 ^ 32) size = .ok out

section Slots

variable {outs : List (List UInt8)} (hf : f.Sound) (h : Pages f mem cache.numPages items)
  (houts : Readable f mem size outs) (hlength : outs.length = items.length) (rid : ℕ)

theorem Readable.maxItems_eq (houts : Readable f mem size outs) :
    (pageSize - headerSize) / slotSize size = f.capacity := by
  rw [houts.slotSize_eq]
  rfl

include hf h houts hlength

/-- The direct computation finds every item. -/
theorem Readable.fastPath_eq : ∃ cache', fastPath cache mem rid size = .ok (outs[rid]?, cache') ∧
    cache'.numPages = cache.numPages := by
  obtain ⟨c, hnum, hc⟩ := fastPath_of_pages h houts.maxItems_eq rid
  refine ⟨c, ?_, hnum⟩
  have hmod := Nat.mod_lt rid hf.capacity_pos
  have hdm := Nat.div_add_mod rid f.capacity
  rw [Nat.mul_comm] at hdm
  by_cases hlt : rid < items.length
  · have hout := List.getElem?_eq_getElem (hlength ▸ hlt)
    rw [hc, if_pos (by omega), houts.read rid _ hout _ rfl, hout]
    rfl
  · rw [hc, if_neg (by omega), List.getElem?_eq_none (by omega)]

/-- The walk over all pages finds the same item. -/
theorem Readable.linearScan_eq : ∃ cache',
    linearScan cache mem rid size (List.range cache.numPages) 0 = .ok (outs[rid]?, cache') ∧
      cache'.numPages = cache.numPages := by
  obtain ⟨c, hnum, hc⟩ := linearScan_of_pages hf h size rid
  refine ⟨c, ?_, hnum⟩
  by_cases hlt : rid < items.length
  · have hout := List.getElem?_eq_getElem (hlength ▸ hlt)
    rw [hc, if_pos hlt, houts.read rid _ hout _ rfl, hout]
    rfl
  · rw [hc, if_neg hlt, List.getElem?_eq_none (by omega)]

/-- `read_at` returns the item with the given number, and nothing behind the last item. -/
theorem Readable.readAt_eq : ∃ cache', readAt cache mem rid size = .ok (outs[rid]?, cache') ∧
    cache'.numPages = cache.numPages := by
  unfold readAt
  by_cases hzero : cache.numPages = 0
  · have hnone : outs[rid]? = none := by
      have := h.length_le
      rw [hzero, Nat.zero_mul] at this
      exact List.getElem?_eq_none (by omega)
    exact ⟨cache, by rw [if_pos hzero, hnone]; rfl, rfl⟩
  · obtain ⟨c, hc, hnum⟩ := houts.fastPath_eq hf h hlength rid
    rw [if_neg hzero]
    simp only [hc, Bind.bind, Except.bind, Pure.pure, Except.pure]
    cases hout : outs[rid]? with
    | some out => exact ⟨c, rfl, hnum⟩
    | none =>
      have h' : Pages f mem c.numPages items := hnum ▸ h
      obtain ⟨c', hc', hnum'⟩ := houts.linearScan_eq hf h' hlength rid
      exact ⟨c', hc'.trans (by rw [hout]), hnum'.trans hnum⟩

end Slots

section Fixed

variable (hf : (SlotFormat.fixed size).Sound) (h : Pages (.fixed size) mem cache.numPages items)
  (hsize : ∀ item ∈ items, item.length = size) (rid : ℕ)

include hf

theorem slotSize_fixed : slotSize size = (SlotFormat.fixed size).slotSize := if_pos hf.pos

theorem maxItems_eq : (pageSize - headerSize) / slotSize size = (SlotFormat.fixed size).capacity := by
  rw [slotSize_fixed hf]
  rfl

include hsize

theorem readable_fixed {n : ℕ} (h : Pages (.fixed size) mem n items) :
    Readable (.fixed size) mem size items :=
  ⟨slotSize_fixed hf, fun _ _ hi _ hk => readSlot_eq h hf hsize hi hk⟩

include h

theorem fastPath_eq : ∃ cache', fastPath cache mem rid size = .ok (items[rid]?, cache') ∧
    cache'.numPages = cache.numPages := (readable_fixed hf hsize h).fastPath_eq hf h rfl rid

theorem linearScan_eq : ∃ cache',
    linearScan cache mem rid size (List.range cache.numPages) 0 = .ok (items[rid]?, cache') ∧
      cache'.numPages = cache.numPages := (readable_fixed hf hsize h).linearScan_eq hf h rfl rid

theorem readAt_eq : ∃ cache', readAt cache mem rid size = .ok (items[rid]?, cache') ∧
    cache'.numPages = cache.numPages := (readable_fixed hf hsize h).readAt_eq hf h rfl rid

end Fixed

end ColumnReader

/-! ## Runs -/

namespace ColumnStore

/-- A call on a store of fixed-size items, or on a reader of it. -/
inductive Op
  | insertFixed (data : List UInt8)
  | clear
  | readAt (rid : ℕ)
  | countRows
  deriving DecidableEq, Repr

/-- The store and its file behind a call. A read leaves its traces in the cache. -/
def step (size : ℕ) (st : ColumnStore × ByteMemory) : Op → Except Fault (ColumnStore × ByteMemory)
  | .insertFixed data => st.1.insertFixed st.2 data
  | .clear => .ok (st.1.clear, st.2)
  | .readAt rid => do
    let (_, cache) ← ColumnReader.readAt st.1.cache st.2 rid size
    return ({ st.1 with cache := cache }, st.2)
  | .countRows => do
    let (_, cache) ← ColumnReader.getTotalRows st.1.cache st.2
    return ({ st.1 with cache := cache }, st.2)

/-- The items inserted since the last `clear`, when `items` were there before. -/
def contents (items : List (List UInt8)) : List Op → List (List UInt8)
  | [] => items
  | .insertFixed data :: ops => contents (items ++ [data]) ops
  | .clear :: ops => contents [] ops
  | .readAt _ :: ops => contents items ops
  | .countRows :: ops => contents items ops

/-- All items have the given size, and at no time are there more of them than fit the pages of the
mapping. -/
def Fits (size : ℕ) (items : List (List UInt8)) : List Op → Prop
  | [] => True
  | .insertFixed data :: ops => data.length = size ∧
      items.length < mappedPages * (4088 / size) ∧ Fits size (items ++ [data]) ops
  | .clear :: ops => Fits size [] ops
  | .readAt _ :: ops => Fits size items ops
  | .countRows :: ops => Fits size items ops

theorem insertFixed_spec {s : ColumnStore} {mem : ByteMemory} {items : List (List UInt8)}
    (data : List UInt8) (hf : (SlotFormat.fixed data.length).Sound)
    (h : Holds (.fixed data.length) s mem items) :
    (items.length = mappedPages * (4088 / data.length) ∧
      s.insertFixed mem data = .error .unmapped) ∨
    ∃ s' mem', s.insertFixed mem data = .ok (s', mem') ∧
      Holds (.fixed data.length) s' mem' (items ++ [data]) ∧ s'.filePath = s.filePath :=
  insertItem_spec hf h le_rfl

theorem run_holds {size : ℕ} (hf : (SlotFormat.fixed size).Sound) {items : List (List UInt8)}
    {ops : List Op} {s : ColumnStore} {mem : ByteMemory} (h : Holds (.fixed size) s mem items)
    (hsize : ∀ item ∈ items, item.length = size) (hfits : Fits size items ops) :
    ∃ s' mem', run (step size) (s, mem) ops = .ok (s', mem') ∧
      Holds (.fixed size) s' mem' (contents items ops) ∧
      ∀ item ∈ contents items ops, item.length = size := by
  induction ops generalizing items s mem with
  | nil => exact ⟨s, mem, rfl, h, hsize⟩
  | cons op ops ih =>
    cases op with
    | insertFixed data =>
      obtain ⟨rfl, hroom, hrest⟩ := hfits
      rcases insertFixed_spec data hf h with ⟨hfull, -⟩ | ⟨s', mem', hs', h', -⟩
      · omega
      · obtain ⟨s'', mem'', hrun, hfinal⟩ := ih h' (by simpa [or_imp, forall_and] using hsize) hrest
        exact ⟨s'', mem'', (run_cons_of_ok _ hs').trans hrun, hfinal⟩
    | clear =>
      obtain ⟨s'', mem'', hrun, hfinal⟩ := ih (clear_holds hf s mem) (by simp) hfits
      exact ⟨s'', mem'', (run_cons_of_ok _ rfl).trans hrun, hfinal⟩
    | readAt rid =>
      obtain ⟨cache, hread, hnum⟩ := ColumnReader.readAt_eq hf h.pages hsize rid
      obtain ⟨s'', mem'', hrun, hfinal⟩ := ih (h.setCache hnum) hsize hfits
      refine ⟨s'', mem'', (run_cons_of_ok _ ?_).trans hrun, hfinal⟩
      simp only [step, hread, Bind.bind, Except.bind, Pure.pure, Except.pure]
    | countRows =>
      obtain ⟨cache, hread, hnum⟩ := ColumnReader.getTotalRows_eq h.pages
      obtain ⟨s'', mem'', hrun, hfinal⟩ := ih (h.setCache hnum) hsize hfits
      refine ⟨s'', mem'', (run_cons_of_ok _ ?_).trans hrun, hfinal⟩
      simp only [step, hread, Bind.bind, Except.bind, Pure.pure, Except.pure]

/-- A column store refines a list: behind any run, the reader finds exactly the items inserted
since the last `clear`, its fast path agrees with the walk over all pages, and both row counts are
the number of these items. -/
theorem store_refines_list (filePath : Text) (mem : ByteMemory) (size : ℕ) (hpos : 1 ≤ size)
    (hle : size ≤ 4088) (ops : List Op) (hfits : Fits size [] ops) :
    ∃ s s' mem', init filePath mem = .ok s ∧ run (step size) (s, mem) ops = .ok (s', mem') ∧
      (∀ rid, (∃ cache, ColumnReader.readAt s'.cache mem' rid size =
          .ok ((contents [] ops)[rid]?, cache)) ∧
        ∀ out cache, ColumnReader.fastPath s'.cache mem' rid size = .ok (some out, cache) →
          ∃ cache', ColumnReader.linearScan s'.cache mem' rid size
            (List.range s'.cache.numPages) 0 = .ok (some out, cache')) ∧
      s'.getTotalRows = (contents [] ops).length ∧
      ∃ cache, ColumnReader.getTotalRows s'.cache mem' = .ok ((contents [] ops).length, cache) := by
  have hf := SlotFormat.fixed_sound hpos hle
  obtain ⟨s, hs, h⟩ := init_holds hf filePath mem
  obtain ⟨s', mem', hrun, h', hsize⟩ := run_holds hf h (by simp) hfits
  refine ⟨s, s', mem', hs, hrun, fun rid => ⟨?_, fun out cache hfast => ?_⟩, h'.totalRows_eq, ?_⟩
  · obtain ⟨cache, hread, -⟩ := ColumnReader.readAt_eq hf h'.pages hsize rid
    exact ⟨cache, hread⟩
  · obtain ⟨cache₁, hfast₁, -⟩ := ColumnReader.fastPath_eq hf h'.pages hsize rid
    obtain ⟨cache₂, hscan, -⟩ := ColumnReader.linearScan_eq hf h'.pages hsize rid
    rw [hfast] at hfast₁
    have hout : some out = (contents [] ops)[rid]? := congrArg Prod.fst (Except.ok.inj hfast₁)
    exact ⟨cache₂, hscan.trans (by rw [hout])⟩
  · obtain ⟨cache, hread, -⟩ := ColumnReader.getTotalRows_eq h'.pages
    exact ⟨cache, hread⟩

/-- A run that clears the store in between. -/
theorem store_refines_list_of_clear :
    ∃ s s' mem', init [] (fun _ => 255) = .ok s ∧
      run (step 2) (s, fun _ => 255) [.insertFixed [1, 2], .clear, .insertFixed [3, 4], .readAt 0] =
        .ok (s', mem') ∧
      ∃ cache, ColumnReader.readAt s'.cache mem' 0 2 = .ok (some [3, 4], cache) := by
  obtain ⟨s, s', mem', hs, hrun, hread, -⟩ := store_refines_list [] (fun _ => 255) 2 (by decide)
    (by decide) [.insertFixed [1, 2], .clear, .insertFixed [3, 4], .readAt 0]
    ⟨rfl, by decide, rfl, by decide, trivial⟩
  exact ⟨s, s', mem', hs, hrun, (hread 0).1⟩

end ColumnStore

end FlexQL
