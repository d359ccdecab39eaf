import FlexQL.Lib.Fallible
import FlexQL.Storage.ColumnInsert

/-!
# Stores that look alike

Two stores with the same counters, on files that agree on the pages in use, take every insertion in
the same way, and their readers return the same bytes. What the caches hold and what is behind the
pages in use makes no difference. A reader stays on the pages in use as long as no page has more
items than the reader expects.
-/

namespace FlexQL

open ByteMemory

/-- The bytes of the first `n` pages are the same. -/
def AgreeTo (n : ℕ) (m m' : ByteMemory) : Prop := ∀ a < n * 4096, m a = m' a

/-- A step on two memories that keeps equal bytes equal. -/
def KeepsAgreement (m m' n n' : ByteMemory) : Prop := ∀ a, m a = m' a → n a = n' a

variable {f : SlotFormat} {m m' n n' : ByteMemory} {k q : ℕ} {block : List UInt8}

theorem KeepsAgreement.agreeTo (h : KeepsAgreement m m' n n') (hagree : AgreeTo k m m') :
    AgreeTo k n n' := fun a ha => h a (hagree a ha)

theorem AgreeTo.read_page (h : AgreeTo k m m') (hq : q < k) (hk : k ≤ mappedPages) (d len : ℕ)
    (hd : d + len ≤ 4096) : m.read (pageOffset q + d) len = m'.read (pageOffset q + d) len := by
  have hoff := pageOffset_of_lt (show q < mappedPages by omega)
  exact read_congr fun a _ ha => h a (by omega)

theorem AgreeTo.numItems_eq (h : AgreeTo k m m') (hq : q < k) (hk : k ≤ mappedPages) :
    numItems m (pageOffset q) = numItems m' (pageOffset q) := by
  have := h.read_page hq hk 0 4 (by omega)
  rw [numItems, numItems, ← Nat.add_zero (pageOffset q), this]

theorem AgreeTo.full_eq (h : AgreeTo k m m') (hq : q < k) (hk : k ≤ mappedPages) :
    f.full m (pageOffset q) = f.full m' (pageOffset q) := by
  have hkind := h.read_page hq hk 4 4 (by omega)
  rw [SlotFormat.full, SlotFormat.full, h.numItems_eq hq hk, itemSize, itemSize, hkind]

theorem KeepsAgreement.putItem (h : KeepsAgreement m m' n n')
    (hnum : numItems n (pageOffset q) = numItems n' (pageOffset q)) :
    KeepsAgreement m m' (putItem n f q block) (putItem n' f q block) := by
  intro a ha
  simp only [FlexQL.putItem, hnum, write, h a ha]

theorem KeepsAgreement.clearPage (m m' : ByteMemory) :
    KeepsAgreement m m' (clearPage m f q) (clearPage m' f q) := by
  intro a ha
  simp only [FlexQL.clearPage, write, ha]

/-- A cleared page is the same page, whatever it held before. -/
theorem AgreeTo.clearPage (h : AgreeTo q m m') (hq : q < mappedPages) :
    AgreeTo (q + 1) (clearPage m f q) (clearPage m' f q) := by
  intro a ha
  by_cases hlt : a < q * 4096
  · exact KeepsAgreement.clearPage m m' a (h a hlt)
  · have hin : pageOffset q ≤ a ∧ a < pageOffset q + (List.replicate pageSize (0 : UInt8)).length := by
      rw [pageOffset_of_lt hq, List.length_replicate, pageSize]
      omega
    simp only [FlexQL.clearPage, write, if_pos hin]

namespace ColumnStore

/-- The stores have the same counters. -/
structure Alike (s s' : ColumnStore) : Prop where
  inUse : s.InUse
  filePath_eq : s'.filePath = s.filePath
  numPages_eq : s'.numPages = s.numPages
  totalRows_eq : s'.totalRows = s.totalRows
  activePage_eq : s'.activePage = s.activePage
  activePageIdx_eq : s'.activePageIdx = s.activePageIdx

variable {s s' u u' : ColumnStore}

theorem InUse.alike (h : s.InUse) : Alike s s := ⟨h, rfl, rfl, rfl, rfl, rfl⟩

theorem Alike.inUse' (h : Alike s s') : s'.InUse := by
  obtain ⟨hfits, hactive⟩ := h.inUse
  rw [← h.numPages_eq] at hfits hactive
  rw [← h.activePage_eq, ← h.activePageIdx_eq] at hactive
  exact ⟨hfits, hactive⟩

theorem Alike.inserted (h : Alike s s') (hq : q < mappedPages) (hu : Inserted s u q)
    (hu' : Inserted s' u' q) : Alike u u' where
  inUse := hu.inUse hq
  filePath_eq := by rw [hu.filePath_eq, hu'.filePath_eq, h.filePath_eq]
  numPages_eq := by rw [hu.numPages_eq, hu'.numPages_eq]
  totalRows_eq := by rw [hu.totalRows_eq, hu'.totalRows_eq, h.totalRows_eq]
  activePage_eq := by rw [hu.activePage_eq, hu'.activePage_eq]
  activePageIdx_eq := by rw [hu.activePageIdx_eq, hu'.activePageIdx_eq]

theorem Alike.hasRoom_iff (h : Alike s s') (hagree : AgreeTo s.numPages m m') :
    s.HasRoom m f ↔ s'.HasRoom m' f := by
  have hfits := h.inUse.fits
  simp only [HasRoom, h.numPages_eq]
  refine and_congr_right fun hpos => ?_
  rw [hagree.full_eq (by omega) hfits]

/-- The results of the same insertion into two stores that look alike. -/
structure BothInserted (s : ColumnStore) (m m' : ByteMemory) (r r' : ColumnStore × ByteMemory) :
    Prop where
  alike : Alike r.1 r'.1
  agree : AgreeTo r.1.numPages r.2 r'.2
  keeps : KeepsAgreement m m' r.2 r'.2
  numPages_pos : 0 < r.1.numPages
  filePath_eq : r.1.filePath = s.filePath
  totalRows_eq : r.1.totalRows = (s.totalRows + 1) % 2 ^ 64

theorem Alike.bothInserted (h : Alike s s') (hq : q < mappedPages) (hu : Inserted s u q)
    (hu' : Inserted s' u' q) (hagree : AgreeTo (q + 1) n n') (hkeeps : KeepsAgreement m m' n n') :
    BothInserted s m m' (u, putItem n f q block) (u', putItem n' f q block) := by
  have hnum := hagree.numItems_eq (Nat.lt_succ_self q) hq
  refine ⟨h.inserted hq hu hu', ?_, hkeeps.putItem hnum, ?_, hu.filePath_eq, hu.totalRows_eq⟩
  · rw [hu.numPages_eq]
    exact (KeepsAgreement.putItem (fun _ ha => ha) hnum).agreeTo hagree
  · rw [hu.numPages_eq]
    exact Nat.succ_pos q

/-- The only fault of an insertion is the end of the mapping. -/
theorem Alike.insertItem (h : Alike s s') (hf : f.Sound) (hagree : AgreeTo s.numPages m m')
    (hblock : block.length ≤ f.slotSize) :
    (s.numPages = mappedPages ∧ s.insertItem m f block = .error .unmapped ∧
      s'.insertItem m' f block = .error .unmapped) ∨
    ∃ r r', s.insertItem m f block = .ok r ∧ s'.insertItem m' f block = .ok r' ∧
      BothInserted s m m' r r' := by
  have hfits := h.inUse.fits
  by_cases hroom : s.HasRoom m f
  · have hroom' := (h.hasRoom_iff hagree).mp hroom
    have hpos := hroom.1
    obtain ⟨u, hu, hins⟩ := insertItem_of_room h.inUse hroom hblock
    obtain ⟨u', hu', hins'⟩ := insertItem_of_room h.inUse' hroom' hblock
    rw [h.numPages_eq] at hu' hins'
    refine Or.inr ⟨_, _, hu, hu', h.bothInserted (by omega) hins hins' ?_ fun _ ha => ha⟩
    rwa [Nat.sub_add_cancel hpos]
  · have hroom' := (h.hasRoom_iff hagree).not.mp hroom
    rcases hfits.eq_or_lt with heq | hlt
    · exact Or.inl ⟨heq, insertItem_eq_unmapped h.inUse hroom heq,
        insertItem_eq_unmapped h.inUse' hroom' (h.numPages_eq.trans heq)⟩
    · obtain ⟨u, hu, hins⟩ := insertItem_of_newPage hf h.inUse hroom hlt hblock
      obtain ⟨u', hu', hins'⟩ :=
        insertItem_of_newPage hf h.inUse' hroom' (h.numPages_eq.symm ▸ hlt) hblock
      rw [h.numPages_eq] at hu' hins'
      exact Or.inr ⟨_, _, hu, hu', h.bothInserted hlt hins hins' (hagree.clearPage hlt)
        (KeepsAgreement.clearPage m m')⟩

end ColumnStore

/-! ## Reading -/

namespace ColumnReader

variable {size : ℕ} {cache cache' : CacheManager}

/-- On every page in use, the slots up to `rid` that a reader with the item size may look at lie on
the page. -/
def WithinPages (m : ByteMemory) (n size rid : ℕ) : Prop :=
  ∀ q < n, min (rid + 1) (numItems m (pageOffset q)) * slotSize size ≤ 4088

variable (hsize : 0 < size) (hnum : cache'.numPages = cache.numPages)
  (hfits : cache.numPages ≤ mappedPages) (hagree : AgreeTo cache.numPages m m')
  {rid : ℕ} (hwithin : WithinPages m cache.numPages size rid)

include hsize in
theorem slotSize_eq : slotSize size = size := if_pos hsize

include hsize hfits hagree hwithin in
/-- A slot in use lies on its page. -/
theorem readSlot_alike (hq : q < cache.numPages) {i : ℕ} (hi : i < numItems m (pageOffset q))
    (hrid : i ≤ rid) :
    ∃ out, readSlot m (pageOffset q) (i % 2 ^ 32) size = .ok out ∧
      readSlot m' (pageOffset q) (i % 2 ^ 32) size = .ok out := by
  have hpage := page_end (lt_of_lt_of_le hq hfits)
  have hle : (i + 1) * size ≤ 4088 := by
    have h2 := hwithin q hq
    rw [slotSize_eq hsize] at h2
    exact (Nat.mul_le_mul_right size (show i + 1 ≤ _ by omega)).trans h2
  have hmul : (i + 1) * size = i * size + size := by rw [Nat.add_mul, Nat.one_mul]
  have hi' : i < 4088 := by
    have := Nat.le_mul_of_pos_right i hsize
    omega
  have hread := hagree.read_page hq hfits (8 + i * size) size (by omega)
  have haddr : pageOffset q + headerSize + i % 2 ^ 32 * slotSize size % 2 ^ 32 =
      pageOffset q + (8 + i * size) := by
    rw [slotSize_eq hsize, Nat.mod_eq_of_lt (show i < 2 ^ 32 by omega),
      Nat.mod_eq_of_lt (by omega), headerSize]
    omega
  refine ⟨m.read (pageOffset q + (8 + i * size)) size, ?_, ?_⟩
  · rw [readSlot, if_pos hsize, haddr, load, if_pos (by omega)]
  · rw [readSlot, if_pos hsize, haddr, load, if_pos (by omega), hread]

include hsize hnum hfits hagree hwithin

theorem fastPath_alike : ∃ out c c', fastPath cache m rid size = .ok (out, c) ∧
    fastPath cache' m' rid size = .ok (out, c') ∧ c.numPages = cache.numPages ∧
    c'.numPages = cache.numPages := by
  unfold fastPath
  simp only [hnum]
  by_cases hp : rid / ((pageSize - headerSize) / slotSize size) % 2 ^ 32 < cache.numPages
  · have hmap : ∀ {c : CacheManager}, c.numPages = cache.numPages →
        mapped (c.getPage (rid / ((pageSize - headerSize) / slotSize size) % 2 ^ 32)).1 =
          .ok (pageOffset (rid / ((pageSize - headerSize) / slotSize size) % 2 ^ 32)) := by
      intro c hc
      rw [CacheManager.getPage_of_lt (hc ▸ hp), mapped_of_lt (by omega)]
    have hcount := hagree.numItems_eq hp hfits
    simp only [if_pos hp, hmap rfl, hmap hnum, ← hcount, Bind.bind, Except.bind]
    generalize rid / ((pageSize - headerSize) / slotSize size) % 2 ^ 32 = p at *
    by_cases hin : rid ≥ p * ((pageSize - headerSize) / slotSize size) ∧
        rid < p * ((pageSize - headerSize) / slotSize size) + numItems m (pageOffset p)
    · obtain ⟨out, hout, hout'⟩ := readSlot_alike hsize hfits hagree hwithin hp
        (i := rid - p * ((pageSize - headerSize) / slotSize size)) (by omega) (Nat.sub_le _ _)
      simp only [if_pos hin, hout, hout', Pure.pure, Except.pure]
      exact ⟨_, _, _, rfl, rfl, CacheManager.getPage_numPages _ _,
        (CacheManager.getPage_numPages _ _).trans hnum⟩
    · simp only [if_neg hin, Pure.pure, Except.pure]
      exact ⟨_, _, _, rfl, rfl, CacheManager.getPage_numPages _ _,
        (CacheManager.getPage_numPages _ _).trans hnum⟩
  · simp only [if_neg hp, Pure.pure, Except.pure]
    exact ⟨_, _, _, rfl, rfl, rfl, hnum⟩

theorem linearScan_alike {pages : List ℕ} (hpages : ∀ q ∈ pages, q < cache.numPages)
    (current : ℕ) (hle : current ≤ rid) : ∃ out c c',
    linearScan cache m rid size pages current = .ok (out, c) ∧
      linearScan cache' m' rid size pages current = .ok (out, c') := by
  have hloop : ∀ (c c' : CacheManager), c.numPages = cache.numPages →
      c'.numPages = cache.numPages → ∃ out d d',
      linearScan c m rid size pages current = .ok (out, d) ∧
        linearScan c' m' rid size pages current = .ok (out, d') := by
    induction pages generalizing current with
    | nil => exact fun c c' _ _ => ⟨none, c, c', rfl, rfl⟩
    | cons q pages ih =>
      intro c c' hc hc'
      have hq := hpages q List.mem_cons_self
      have hmap : ∀ {d : CacheManager}, d.numPages = cache.numPages →
          mapped (d.getPage q).1 = .ok (pageOffset q) := by
        intro d hd
        rw [CacheManager.getPage_of_lt (hd ▸ hq), mapped_of_lt (by omega)]
      have hcount := hagree.numItems_eq hq hfits
      simp only [linearScan, hmap hc, hmap hc', ← hcount, Bind.bind, Except.bind]
      by_cases hin : rid < current + numItems m (pageOffset q)
      · obtain ⟨out, hout, hout'⟩ := readSlot_alike hsize hfits hagree hwithin hq
          (i := rid - current) (by omega) (Nat.sub_le _ _)
        simp only [if_pos hin, hout, hout', Pure.pure, Except.pure]
        exact ⟨_, _, _, rfl, rfl⟩
      · simp only [if_neg hin]
        exact ih (fun p hp => hpages p (List.mem_cons_of_mem _ hp)) _ (by omega) _ _
          ((CacheManager.getPage_numPages _ _).trans hc)
          ((CacheManager.getPage_numPages _ _).trans hc')
  exact hloop cache cache' rfl hnum

/-- Readers of files that agree on the pages in use return the same bytes. -/
theorem readAt_alike : ∃ out c c', readAt cache m rid size = .ok (out, c) ∧
    readAt cache' m' rid size = .ok (out, c') := by
  unfold readAt
  by_cases hzero : cache.numPages = 0
  · rw [if_pos hzero, if_pos (hnum.trans hzero)]
    exact ⟨none, _, _, rfl, rfl⟩
  · rw [if_neg hzero, if_neg (hnum ▸ hzero)]
    obtain ⟨out, c, c', hfast, hfast', hc, hc'⟩ :=
      fastPath_alike hsize hnum hfits hagree hwithin
    simp only [hfast, hfast', Bind.bind, Except.bind]
    cases out with
    | some out => exact ⟨some out, c, c', rfl, rfl⟩
    | none =>
      have hpages : ∀ q ∈ List.range c.numPages, q < c.numPages := fun q hq => List.mem_range.mp hq
      rw [← hc] at hfits hagree hwithin hc'
      dsimp only
      rw [hc']
      exact linearScan_alike hsize hc' hfits hagree hwithin hpages 0 (Nat.zero_le _)

end ColumnReader

end FlexQL
