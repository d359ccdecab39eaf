import FlexQL.Storage.InsertEvents

/-!
# The file of a column, byte for byte

The bytes behind the last item of a page are clear, and the pages that are not in use are as they
were. A column with a file of its own goes through the insertions of a table as if it were alone.
-/

namespace FlexQL

open ByteMemory Runs

/-- The first `n` pages hold the items and are clear behind them, and the rest of the file is old. -/
structure Image (f : SlotFormat) (old mem : ByteMemory) (n : ℕ) (items : List (List UInt8)) : Prop where
  pages : Pages f mem n items
  clear : ∀ p < n, ∀ d < 4096, f.slotOffset (min f.capacity (items.length - p * f.capacity)) ≤ d →
    mem (pageOffset p + d) = 0
  old_eq : ∀ a, n * 4096 ≤ a → mem a = old a

variable {f : SlotFormat} {old mem : ByteMemory} {n : ℕ} {items : List (List UInt8)} {block : List UInt8}

/-- A page behind its header, when it was just cleared. -/
theorem clearPage_of_inside {q d : ℕ} (hd : 8 ≤ d) (hd' : d < 4096) :
    clearPage mem f q (pageOffset q + d) = 0 := by
  have hlt : d < (List.replicate pageSize (0 : UInt8)).length := by
    rw [List.length_replicate]
    exact hd'
  rw [clearPage, write_of_outside (by rw [encode_length]; omega), write_of_inside hlt,
    List.getD_eq_getElem _ _ hlt, List.getElem_replicate]

/-- An item on a page changes nothing behind its slot. -/
theorem putItem_of_behind {q d : ℕ} (hblock : block.length ≤ f.slotSize)
    (hd : f.slotOffset (numItems mem (pageOffset q) + 1) ≤ d) :
    putItem mem f q block (pageOffset q + d) = mem (pageOffset q + d) := by
  simp only [SlotFormat.slotOffset, headerSize, Nat.add_mul, Nat.one_mul] at hd
  rw [putItem, write_of_outside (by rw [encode_length]; omega), write_of_outside]
  simp only [SlotFormat.slotOffset, headerSize]
  omega

/-- A place on a page lies outside any other page. -/
theorem pageOffset_outside {p q d : ℕ} (hp : p < mappedPages) (hq : q < mappedPages) (hne : p ≠ q)
    (hd : d < 4096) : pageOffset p + d < pageOffset q ∨ pageOffset q + pageSize ≤ pageOffset p + d := by
  rw [pageOffset_of_lt hp, pageOffset_of_lt hq, pageSize]
  omega

theorem image_nil (old : ByteMemory) : Image f old old 0 [] where
  pages := ⟨Nat.zero_le _, by simp, by simp, by simp, by simp, by simp⟩
  clear := fun p hp => absurd hp (Nat.not_lt_zero p)
  old_eq := fun _ _ => rfl

/-- Behind the items a page is clear. -/
theorem Image.read_clear (h : Image f old mem n items) {p d len : ℕ} (hp : p < n)
    (hlow : f.slotOffset (min f.capacity (items.length - p * f.capacity)) ≤ d) (hd : d + len ≤ 4096) :
    mem.read (pageOffset p + d) len = List.replicate len 0 := by
  refine List.eq_replicate_iff.mpr ⟨read_length .., fun b hb => ?_⟩
  obtain ⟨i, hi, rfl⟩ := List.mem_map.mp hb
  have hlt := List.mem_range.mp hi
  rw [Nat.add_assoc]
  exact h.clear p hp (d + i) (by omega) (by omega)

/-- A full column takes another page. -/
theorem Image.clearPage (h : Image f old mem n items) (hf : f.Sound) (hn : n < mappedPages)
    (hfull : items.length = n * f.capacity) : Image f old (clearPage mem f n) (n + 1) items where
  pages := h.pages.newPage hf hn hfull
  clear := by
    intro p hp d hd hlow
    rcases Nat.lt_succ_iff_lt_or_eq.mp hp with hp | rfl
    · rw [clearPage_of_outside (pageOffset_outside (by omega) hn (by omega) hd)]
      exact h.clear p hp d hd hlow
    · exact clearPage_of_inside (le_trans (Nat.le_add_right _ _) hlow) hd
  old_eq := by
    intro a ha
    rw [clearPage_of_outside (by rw [pageOffset_of_lt hn, pageSize]; omega)]
    exact h.old_eq a (le_trans (Nat.mul_le_mul_right _ (Nat.le_succ n)) ha)

/-- The last page takes an item. -/
theorem Image.putItem {q : ℕ} (h : Image f old mem (q + 1) items) (hf : f.Sound)
    (hlo : q * f.capacity ≤ items.length) (hhi : items.length < (q + 1) * f.capacity)
    (hblock : block.length ≤ f.slotSize) : Image f old (putItem mem f q block) (q + 1) (items ++ [block]) := by
  have hq : q < mappedPages := h.pages.fits
  have hmul : (q + 1) * f.capacity = q * f.capacity + f.capacity := by rw [Nat.add_mul, Nat.one_mul]
  have hcount : numItems mem (pageOffset q) = items.length - q * f.capacity := by
    rw [h.pages.header q (by omega)]
    omega
  refine ⟨?_, ?_, ?_⟩
  · rw [FlexQL.putItem, hcount]
    exact h.pages.append hf hlo hhi hblock
  · intro p hp d hd hlow
    rw [List.length_append, List.length_singleton] at hlow
    rcases Nat.lt_succ_iff_lt_or_eq.mp hp with hp | rfl
    · have hpq : (p + 1) * f.capacity ≤ q * f.capacity := Nat.mul_le_mul_right _ hp
      rw [Nat.add_mul, Nat.one_mul] at hpq
      rw [putItem_of_outside (by omega) hblock (pageOffset_outside (by omega) hq (by omega) hd)]
      refine h.clear p (by omega) d hd ?_
      rwa [show min f.capacity (items.length - p * f.capacity) =
        min f.capacity (items.length + 1 - p * f.capacity) by omega]
    · have hslots : min f.capacity (items.length + 1 - p * f.capacity) = items.length - p * f.capacity + 1 := by
        omega
      rw [hslots] at hlow
      rw [putItem_of_behind hblock (by rwa [hcount])]
      refine h.clear p (by omega) d hd (le_trans ?_ hlow)
      have hmono := Nat.mul_le_mul_right f.slotSize
        (show min f.capacity (items.length - p * f.capacity) ≤ items.length - p * f.capacity + 1 by omega)
      simp only [SlotFormat.slotOffset]
      omega
  · intro a ha
    rw [putItem_of_outside (by omega) hblock (by rw [pageOffset_of_lt hq, pageSize]; omega)]
    exact h.old_eq a ha

namespace ColumnStore

variable {s s' : ColumnStore} {mem' : ByteMemory}

/-- An insertion into a store whose whole file is known. -/
theorem Holds.insertItem_image (hf : f.Sound) (h : Holds f s mem items)
    (himage : Image f old mem s.numPages items) (hblock : block.length ≤ f.slotSize)
    (hok : s.insertItem mem f block = .ok (s', mem')) :
    Holds f s' mem' (items ++ [block]) ∧ Image f old mem' s'.numPages (items ++ [block]) := by
  have hholds : Holds f s' mem' (items ++ [block]) := by
    rcases insertItem_spec hf h hblock with ⟨-, herr⟩ | ⟨u, m, hu, h', -⟩
    · rw [herr] at hok
      cases hok
    · obtain ⟨rfl, rfl⟩ := Prod.mk.inj (Except.ok.inj (hu.symm.trans hok))
      exact h'
  refine ⟨hholds, ?_⟩
  have hle := h.pages.length_le
  have hlt := h.lt_length
  by_cases hroom : s.HasRoom mem f
  · obtain ⟨u, hu, hins⟩ := insertItem_of_room h.inUse hroom hblock
    obtain ⟨rfl, rfl⟩ := Prod.mk.inj (Except.ok.inj (hu.symm.trans hok))
    have hhi := (h.hasRoom_iff hf).mp hroom
    have hpos := hroom.1
    obtain ⟨q, hq⟩ : ∃ q, s.numPages = q + 1 := ⟨s.numPages - 1, by omega⟩
    rw [hins.numPages_eq]
    rw [hq] at himage hhi hlt
    rw [hq, Nat.add_sub_cancel]
    rw [Nat.add_mul, Nat.one_mul] at hlt
    exact himage.putItem hf (by omega) hhi hblock
  · have hfull : items.length = s.numPages * f.capacity := by
      have := (h.hasRoom_iff hf).not.mp hroom
      omega
    rcases h.pages.fits.eq_or_lt with heq | hfits
    · rw [insertItem_eq_unmapped h.inUse hroom heq] at hok
      cases hok
    · obtain ⟨u, hu, hins⟩ := insertItem_of_newPage hf h.inUse hroom hfits hblock
      obtain ⟨rfl, rfl⟩ := Prod.mk.inj (Except.ok.inj (hu.symm.trans hok))
      have hcap := hf.capacity_pos
      rw [hins.numPages_eq]
      exact (himage.clearPage hf hfits hfull).putItem hf (by omega) (by rw [Nat.add_mul]; omega) hblock

end ColumnStore

/-! ## Tables -/

namespace Table

/-- Column `c` of a table, with a file that no other column has. -/
structure HasOwn (t : Table) (disk : Disk) (c : ℕ) (column : ColumnStore) (mem : ByteMemory) : Prop where
  inUse : ∀ u ∈ t.columns, u.InUse
  column_eq : t.columns[c]? = some column
  file_eq : disk.columns column.filePath = mem
  own : ∀ (j : ℕ) u, t.columns[j]? = some u → u.filePath = column.filePath → j = c

variable {t t' : Table} {disk disk' : Disk} {c : ℕ} {column : ColumnStore}

/-- Another column takes a value. -/
theorem HasOwn.insertColumn_ne (h : HasOwn t disk c column mem) {i : ℕ} (hi : i ≠ c) {v : Value}
    (hok : t.insertColumn disk i v = .ok (t', disk')) : HasOwn t' disk' c column mem := by
  obtain ⟨u, u', m, hu, -, hpath, hinUse, -, heq⟩ := insertColumn_cases h.inUse hok
  obtain ⟨rfl, rfl⟩ := Prod.mk.inj heq
  refine ⟨?_, ?_, ?_, ?_⟩
  · intro w hw
    rcases List.mem_or_eq_of_mem_set hw with hw | rfl
    · exact h.inUse w hw
    · exact hinUse
  · exact (List.getElem?_set_ne hi).trans h.column_eq
  · rw [Disk.setColumn_ne _ fun hne => hi (h.own i u hu hne.symm)]
    exact h.file_eq
  · intro j w hw hsame
    by_cases hj : i = j
    · subst hj
      obtain rfl : u' = w := by
        simpa [List.getElem?_set_self (List.getElem?_eq_some_iff.mp hu).1] using hw
      exact h.own i u hu (hpath.symm.trans hsame)
    · exact h.own j w (by simpa [List.getElem?_set_ne hj] using hw) hsame

/-- The column takes a value. -/
theorem HasOwn.insertColumn_self (h : HasOwn t disk c column mem) {v : Value}
    (hok : t.insertColumn disk c v = .ok (t', disk')) :
    ∃ column' mem', column.insertFixed mem v.bytes = .ok (column', mem') ∧
      HasOwn t' disk' c column' mem' := by
  obtain ⟨u, u', m, hu, hins, hpath, hinUse, -, heq⟩ := insertColumn_cases h.inUse hok
  obtain ⟨rfl, rfl⟩ := Prod.mk.inj heq
  obtain rfl : column = u := Option.some.inj (h.column_eq.symm.trans hu)
  have hc := (List.getElem?_eq_some_iff.mp hu).1
  rw [h.file_eq] at hins
  refine ⟨u', m, hins, ?_, ?_, ?_, ?_⟩
  · intro w hw
    rcases List.mem_or_eq_of_mem_set hw with hw | rfl
    · exact h.inUse w hw
    · exact hinUse
  · exact List.getElem?_set_self hc
  · rw [hpath]
    exact Disk.setColumn_same ..
  · intro j w hw hsame
    by_contra hj
    have hw' : t.columns[j]? = some w := by simpa [List.getElem?_set_ne (Ne.symm hj)] using hw
    exact hj (h.own j w hw' (hsame.trans hpath))

/-- In the loop of `insert_row` the column takes its own value. -/
theorem HasOwn.insertColumns (h : HasOwn t disk c column mem) {i : ℕ} {values : List Value}
    (hok : t.insertColumns disk i values = .ok (t', disk')) :
    ∃ column' mem', HasOwn t' disk' c column' mem' ∧ t'.schema = t.schema ∧
      (c < i → column' = column ∧ mem' = mem) ∧
      (i ≤ c → c < t.schema.length → ∀ v, values[c - i]? = some v →
        column.insertFixed mem v.bytes = .ok (column', mem')) := by
  induction values generalizing t disk column mem i with
  | nil =>
    obtain ⟨rfl, rfl⟩ := Prod.mk.inj (Except.ok.inj hok)
    exact ⟨column, mem, h, rfl, fun _ => ⟨rfl, rfl⟩, by simp⟩
  | cons w values ih =>
    rw [Table.insertColumns] at hok
    by_cases hi : i < t.schema.length
    · rw [if_pos hi] at hok
      obtain ⟨⟨t₁, disk₁⟩, hfirst, hrest⟩ := Fallible.bind_eq_ok hok
      have hschema := insertColumn_schema hfirst
      by_cases hic : i = c
      · subst hic
        obtain ⟨column₁, mem₁, hins, h₁⟩ := h.insertColumn_self hfirst
        obtain ⟨column', mem', h', hschema', hkeep, -⟩ := ih h₁ hrest
        obtain ⟨rfl, rfl⟩ := hkeep (Nat.lt_succ_self _)
        refine ⟨column', mem', h', hschema'.trans hschema, fun hlt => absurd hlt (Nat.lt_irrefl _), ?_⟩
        intro _ _ v hv
        rw [Nat.sub_self] at hv
        obtain rfl : w = v := by simpa using hv
        exact hins
      · obtain ⟨column', mem', h', hschema', hkeep, htake⟩ := ih (h.insertColumn_ne hic hfirst) hrest
        refine ⟨column', mem', h', hschema'.trans hschema, fun hlt => hkeep (by omega), ?_⟩
        intro hle hc v hv
        rw [show c - i = c - (i + 1) + 1 by omega, List.getElem?_cons_succ] at hv
        exact htake (by omega) (hschema ▸ hc) v hv
    · rw [if_neg hi] at hok
      obtain ⟨rfl, rfl⟩ := Prod.mk.inj (Except.ok.inj hok)
      exact ⟨column, mem, h, rfl, fun _ => ⟨rfl, rfl⟩, fun hle hc => absurd hc (by omega)⟩

/-- `insert_row` is an insertion into the column. -/
theorem HasOwn.insertRow (h : HasOwn t disk c column mem) (hc : c < t.schema.length) {row : Row} {v : Value}
    (hv : row.values[c]? = some v) (hok : t.insertRow disk row = .ok (t', disk')) :
    ∃ column' mem', column.insertFixed mem v.bytes = .ok (column', mem') ∧
      HasOwn t' disk' c column' mem' := by
  obtain ⟨rid, -, hok⟩ := Fallible.bind_eq_ok hok
  obtain ⟨⟨t₁, disk₁⟩, hcolumns, hok⟩ := Fallible.bind_eq_ok hok
  obtain ⟨t₂, hkey, hok⟩ := Fallible.bind_eq_ok hok
  obtain ⟨rfl, rfl⟩ := Prod.mk.inj (Except.ok.inj hok)
  obtain ⟨column', mem', h', -, -, htake⟩ := h.insertColumns hcolumns
  refine ⟨column', mem', htake (Nat.zero_le c) hc v hv, ?_⟩
  obtain ⟨m, -, rfl⟩ := insertKey_cases hkey
  exact ⟨h'.inUse, h'.column_eq, h'.file_eq, h'.own⟩

/-- A run of insertions, with values of one width for the column. -/
theorem HasOwn.run {w : ℕ} (hf : (SlotFormat.fixed w).Sound) (h : HasOwn t disk c column mem)
    (hc : c < t.schema.length) (hholds : ColumnStore.Holds (.fixed w) column mem items)
    (himage : Image (.fixed w) old mem column.numPages items) {rows : List Row}
    (hrows : ∀ row ∈ rows, ∃ v, row.values[c]? = some v ∧ v.bytes.length = w)
    (hrun : Runs.run insertStep (t, disk) rows = .ok (t', disk')) :
    ∃ column' mem', HasOwn t' disk' c column' mem' ∧
      ColumnStore.Holds (.fixed w) column' mem' (items ++ columnItems rows c) ∧
      Image (.fixed w) old mem' column'.numPages (items ++ columnItems rows c) := by
  induction rows generalizing t disk column mem items with
  | nil =>
    obtain ⟨rfl, rfl⟩ := Prod.mk.inj (Except.ok.inj hrun)
    exact ⟨column, mem, h, by simpa [columnItems] using hholds, by simpa [columnItems] using himage⟩
  | cons row rows ih =>
    obtain ⟨⟨t₁, disk₁⟩, hrow, hrest⟩ := run_cons_eq_ok hrun
    obtain ⟨v, hv, rfl⟩ := hrows row List.mem_cons_self
    obtain ⟨column₁, mem₁, hins, h₁⟩ := h.insertRow hc hv hrow
    obtain ⟨hholds₁, himage₁⟩ := hholds.insertItem_image hf himage le_rfl hins
    have hitems : items ++ columnItems (row :: rows) c = items ++ [v.bytes] ++ columnItems rows c := by
      simp [columnItems, hv]
    rw [hitems]
    exact ih h₁ (insertRow_schema hrow ▸ hc) hholds₁ himage₁
      (fun r hr => hrows r (List.mem_cons_of_mem _ hr)) hrest

end Table

end FlexQL
