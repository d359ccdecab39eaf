import FlexQL.Storage.ColumnSpec

/-!
# Items of variable length

`insert_variable` writes the length of an item and its first 126 bytes into a slot of 128 bytes, and
`read_at` cuts the length again. A run of insertions and clears is a list of the cut items.
-/

namespace FlexQL

open ByteMemory Runs

namespace SlotFormat

theorem variableLength_sound : variableLength.Sound :=
  ⟨by decide, by decide, by decide, fun _ => rfl⟩

@[simp] theorem variableLength_capacity : variableLength.capacity = 31 := rfl

end SlotFormat

/-- What `insert_variable` copies into a slot. -/
def variableBlock (data : List UInt8) : List UInt8 := encode 2 data.length ++ data.take 126

theorem variableBlock_length (data : List UInt8) :
    (variableBlock data).length = 2 + min 126 data.length := by
  rw [variableBlock, List.length_append, encode_length, List.length_take]

theorem variableBlock_le (data : List UInt8) :
    (variableBlock data).length ≤ SlotFormat.variableLength.slotSize := by
  rw [variableBlock_length, SlotFormat.variableLength]
  dsimp only
  omega

namespace ColumnReader

variable {mem : ByteMemory} {n : ℕ} {items : List (List UInt8)}

/-- The length is cut on both sides. -/
theorem readable_variable (h : Pages .variableLength mem n (items.map variableBlock))
    (hsize : ∀ data ∈ items, data.length < 2 ^ 16) :
    Readable .variableLength mem 0 (items.map (List.take 126)) := by
  refine ⟨rfl, fun i out hi k hk => ?_⟩
  obtain ⟨data, hdata, rfl⟩ : ∃ data, items[i]? = some data ∧ data.take 126 = out := by
    simpa using hi
  have hblock : (items.map variableBlock)[i]? = some (variableBlock data) := by simp [hdata]
  have hlt := (List.getElem?_eq_some_iff.mp hblock).1
  have hslot := h.slot i _ hblock
  have hle := h.slot_le SlotFormat.variableLength_sound hblock
  have hpage := page_end (lt_of_lt_of_le (h.page_lt SlotFormat.variableLength_sound hlt) h.fits)
  have hlength := variableBlock_length data
  have hcut : (data.take 126).length = min 126 data.length := List.length_take
  rw [SlotFormat.variableLength_capacity] at hk hslot hle hpage
  have hk' : k % 2 ^ 32 * slotSize 0 % 2 ^ 32 = i % 31 * 128 := by
    rw [hk, slotSize, if_neg (by decide)]
    omega
  simp only [SlotFormat.slotOffset, SlotFormat.variableLength, headerSize, hlength] at hslot hle
  rw [read_add, variableBlock] at hslot
  obtain ⟨hlength', hcontent⟩ := List.append_inj hslot (by simp)
  have hmin : (if data.length > 126 then 126 else data.length) = min 126 data.length := by
    split <;> omega
  have hdecode : decode (encode 2 data.length) = data.length :=
    decode_encode (hsize data (List.mem_of_getElem? hdata))
  have hbegin : pageOffset (i / 31) + headerSize + i % 31 * 128 =
      pageOffset (i / 31) + (8 + i % 31 * 128) := Nat.add_assoc ..
  have hload : load mem (pageOffset (i / 31) + (8 + i % 31 * 128)) 2 = .ok (encode 2 data.length) := by
    rw [load, if_pos (by omega), hlength']
  have hload' : load mem (pageOffset (i / 31) + (8 + i % 31 * 128) + 2) (min 126 data.length) =
      .ok (data.take 126) := by
    rw [load, if_pos (by omega), hcontent]
  rw [SlotFormat.variableLength_capacity, readSlot, hk', hbegin]
  simp only [gt_iff_lt, Nat.lt_irrefl, if_false, hload, hdecode, hmin, hload', Bind.bind, Except.bind]

end ColumnReader

namespace ColumnStore

variable {s s' : ColumnStore} {mem mem' : ByteMemory} {items : List (List UInt8)} {q k : ℕ}

/-- Slot `k` of page `q`. -/
def InSlot (q k a : ℕ) : Prop :=
  pageOffset q + headerSize + 128 * k ≤ a ∧ a < pageOffset q + headerSize + 128 * (k + 1)

/-- An insertion writes the header of a page and one of its slots. A page that it begins with is cleared
before. -/
structure WritesSlot (mem mem' : ByteMemory) (q k : ℕ) : Prop where
  slot_end : headerSize + 128 * (k + 1) ≤ pageSize
  mapped : pageOffset q + pageSize ≤ mapSize
  outside : ∀ a, (a < pageOffset q ∨ pageOffset q + headerSize ≤ a) → ¬ InSlot q k a →
    mem' a = mem a ∨
      k = 0 ∧ pageOffset q ≤ a ∧ a < pageOffset q + pageSize ∧ mem' a = 0

/-- The bytes outside the header and the slot. -/
theorem putItem_of_notInSlot {block : List UInt8} {a : ℕ} (hk : k < 31)
    (hcount : numItems mem (pageOffset q) = k) (hblock : block.length ≤ 128)
    (hheader : a < pageOffset q ∨ pageOffset q + headerSize ≤ a) (hslot : ¬ InSlot q k a) :
    putItem mem .variableLength q block a = mem a := by
  simp only [InSlot, headerSize] at hheader hslot
  rw [putItem, hcount, write_of_outside, write_of_outside]
  · simp only [SlotFormat.slotOffset, SlotFormat.variableLength, headerSize]
    omega
  · rw [encode_length]
    omega

theorem clearPage_of_inside {f : SlotFormat} {a : ℕ} (hheader : pageOffset q + headerSize ≤ a)
    (hpage : a < pageOffset q + pageSize) : clearPage mem f q a = 0 := by
  simp only [headerSize, pageSize] at hheader hpage
  obtain ⟨i, rfl⟩ := Nat.exists_eq_add_of_le (show pageOffset q ≤ a by omega)
  rw [clearPage, write_of_outside (by rw [encode_length]; omega), write_of_inside]
  · simp
  · rw [List.length_replicate, pageSize]
    omega

/-- One insertion. -/
theorem Holds.insertVariable (h : Holds .variableLength s mem (items.map variableBlock))
    (data : List UInt8) (hroom : items.length < mappedPages * 31) :
    ∃ s' mem', s.insertVariable mem data = .ok (s', mem') ∧
      Holds .variableLength s' mem' ((items ++ [data]).map variableBlock) ∧
      WritesSlot mem mem' (items.length / 31) (items.length % 31) := by
  have hf := SlotFormat.variableLength_sound
  have hblock := variableBlock_le data
  have hle := h.pages.length_le
  have hlt := h.lt_length
  have hiff := h.hasRoom_iff hf
  have hmod := Nat.mod_lt items.length (show 0 < 31 by decide)
  rw [List.length_map, SlotFormat.variableLength_capacity] at hle hlt hiff
  rcases insertItem_spec hf h hblock with ⟨hfull, -⟩ | ⟨s', mem', hs', hholds, -⟩
  · rw [List.length_map, SlotFormat.variableLength_capacity] at hfull
    omega
  · refine ⟨s', mem', hs', by simpa using hholds, ?_⟩
    by_cases hlast : s.HasRoom mem .variableLength
    · have hpos := hlast.1
      have hhi := hiff.mp hlast
      have hq : items.length / 31 = s.numPages - 1 := by omega
      have hcount : numItems mem (pageOffset (s.numPages - 1)) = items.length % 31 := by
        rw [h.pages.header _ (by omega), List.length_map, SlotFormat.variableLength_capacity]
        omega
      obtain ⟨u, hu, -⟩ := insertItem_of_room h.inUse hlast hblock
      obtain ⟨-, rfl⟩ := Prod.mk.inj (Except.ok.inj (hu.symm.trans hs'))
      rw [hq]
      refine ⟨by simp only [headerSize, pageSize]; omega, ?_, fun a hheader hslot => Or.inl ?_⟩
      · exact page_end (by have := h.pages.fits; omega)
      · exact putItem_of_notInSlot hmod hcount hblock hheader hslot
    · have hfull := hiff.not.mp hlast
      have hnew : s.numPages < mappedPages := by omega
      have hq : items.length / 31 = s.numPages := by omega
      have hk : items.length % 31 = 0 := by omega
      obtain ⟨u, hu, -⟩ := insertItem_of_newPage hf h.inUse hlast hnew hblock
      obtain ⟨-, rfl⟩ := Prod.mk.inj (Except.ok.inj (hu.symm.trans hs'))
      rw [hq, hk]
      refine ⟨by decide, page_end hnew, fun a hheader hslot => ?_⟩
      rw [putItem_of_notInSlot (by decide) (numItems_clearPage ..) hblock hheader hslot]
      by_cases hpage : pageOffset s.numPages ≤ a ∧ a < pageOffset s.numPages + pageSize
      · have hbehind : pageOffset s.numPages + headerSize ≤ a :=
          hheader.resolve_left (Nat.not_lt.mpr hpage.1)
        exact Or.inr ⟨rfl, hpage.1, hpage.2, clearPage_of_inside hbehind hpage.2⟩
      · exact Or.inl (clearPage_of_outside (by omega))

/-! ## Runs -/

/-- The calls that change a store of variable-length items. -/
inductive VariableOp
  | insertVariable (data : List UInt8)
  | clear
  deriving DecidableEq, Repr

def variableStep (st : ColumnStore × ByteMemory) : VariableOp → Except Fault (ColumnStore × ByteMemory)
  | .insertVariable data => st.1.insertVariable st.2 data
  | .clear => .ok (st.1.clear, st.2)

/-- The items inserted since the last `clear`, when `items` were there before. -/
def variableContents (items : List (List UInt8)) : List VariableOp → List (List UInt8)
  | [] => items
  | .insertVariable data :: ops => variableContents (items ++ [data]) ops
  | .clear :: ops => variableContents [] ops

/-- The lengths have 16 bits, and at no time are there more items than fit the pages of the mapping. -/
def VariableFits (items : List (List UInt8)) : List VariableOp → Prop
  | [] => True
  | .insertVariable data :: ops => data.length < 2 ^ 16 ∧ items.length < mappedPages * 31 ∧
      VariableFits (items ++ [data]) ops
  | .clear :: ops => VariableFits [] ops

theorem variableFits_append {items : List (List UInt8)} {ops ops' : List VariableOp}
    (h : VariableFits items (ops ++ ops')) :
    VariableFits items ops ∧ VariableFits (variableContents items ops) ops' := by
  induction ops generalizing items with
  | nil => exact ⟨trivial, h⟩
  | cons op ops ih =>
    cases op with
    | insertVariable data =>
      obtain ⟨hsize, hroom, hrest⟩ := h
      exact ⟨⟨hsize, hroom, (ih hrest).1⟩, (ih hrest).2⟩
    | clear => exact ih h

/-- The store holds the items, and their lengths have 16 bits. -/
structure HoldsVariable (s : ColumnStore) (mem : ByteMemory) (items : List (List UInt8)) : Prop where
  holds : Holds .variableLength s mem (items.map variableBlock)
  size : ∀ data ∈ items, data.length < 2 ^ 16

theorem HoldsVariable.of_run {ops : List VariableOp} (h : HoldsVariable s mem items)
    (hfits : VariableFits items ops) :
    ∃ s' mem', run variableStep (s, mem) ops = .ok (s', mem') ∧
      HoldsVariable s' mem' (variableContents items ops) := by
  induction ops generalizing s mem items with
  | nil => exact ⟨s, mem, rfl, h⟩
  | cons op ops ih =>
    cases op with
    | insertVariable data =>
      obtain ⟨hsize, hroom, hrest⟩ := hfits
      obtain ⟨u, mem₁, hu, hholds, -⟩ := h.holds.insertVariable data hroom
      have hnext : HoldsVariable u mem₁ (items ++ [data]) :=
        ⟨hholds, by simpa [or_imp, forall_and] using ⟨h.size, hsize⟩⟩
      obtain ⟨s', mem', hrun, hs'⟩ := ih hnext hrest
      exact ⟨s', mem', (run_cons_of_ok _ hu).trans hrun, hs'⟩
    | clear =>
      have hnext : HoldsVariable s.clear mem [] :=
        ⟨clear_holds SlotFormat.variableLength_sound s mem, by simp⟩
      obtain ⟨s', mem', hrun, hs'⟩ := ih hnext hfits
      exact ⟨s', mem', (run_cons_of_ok _ rfl).trans hrun, hs'⟩

/-- Behind any run the reader finds the first 126 bytes of the items inserted since the last `clear`, and
both row counts are the number of these items. Every insertion stays inside a page and, on it, inside the
header and a slot of 128 bytes. -/
theorem variable_items_read_back (filePath : Text) (mem : ByteMemory) (ops : List VariableOp)
    (hfits : VariableFits [] ops) :
    ∃ s s' mem', init filePath mem = .ok s ∧ run variableStep (s, mem) ops = .ok (s', mem') ∧
      (∀ rid, ∃ cache, ColumnReader.readAt s'.cache mem' rid 0 =
        .ok ((variableContents [] ops)[rid]?.map (List.take 126), cache)) ∧
      s'.getTotalRows = (variableContents [] ops).length ∧
      (∃ cache, ColumnReader.getTotalRows s'.cache mem' =
        .ok ((variableContents [] ops).length, cache)) ∧
      ∀ past data next, ops = past ++ .insertVariable data :: next →
        ∃ u mem₁ u' mem₂, run variableStep (s, mem) past = .ok (u, mem₁) ∧
          u.insertVariable mem₁ data = .ok (u', mem₂) ∧
          WritesSlot mem₁ mem₂ ((variableContents [] past).length / 31)
            ((variableContents [] past).length % 31) := by
  have hf := SlotFormat.variableLength_sound
  obtain ⟨s, hs, hinit⟩ := init_holds hf filePath mem
  have h : HoldsVariable s mem [] := ⟨hinit, by simp⟩
  obtain ⟨s', mem', hrun, h'⟩ := h.of_run hfits
  refine ⟨s, s', mem', hs, hrun, fun rid => ?_, ?_, ?_, ?_⟩
  · obtain ⟨cache, hread, -⟩ :=
      (ColumnReader.readable_variable h'.holds.pages h'.size).readAt_eq hf h'.holds.pages (by simp) rid
    rw [List.getElem?_map] at hread
    exact ⟨cache, hread⟩
  · exact h'.holds.totalRows_eq.trans (List.length_map _)
  · obtain ⟨cache, hread, -⟩ := ColumnReader.getTotalRows_eq h'.holds.pages
    rw [List.length_map] at hread
    exact ⟨cache, hread⟩
  · rintro past data next rfl
    obtain ⟨hpast, -, hroom, -⟩ := variableFits_append hfits
    obtain ⟨u, mem₁, hu, hheld⟩ := h.of_run hpast
    obtain ⟨u', mem₂, hu', -, hwrites⟩ := hheld.holds.insertVariable data hroom
    exact ⟨u, mem₁, u', mem₂, hu, hu', hwrites⟩

/-- A long item behind an empty one, in a store that was cleared. -/
theorem variable_items_read_back_long :
    ∃ s s' mem', init [] (fun _ => 255) = .ok s ∧
      run variableStep (s, fun _ => 255)
        [.insertVariable [1], .clear, .insertVariable [], .insertVariable (List.replicate 200 7)] =
          .ok (s', mem') ∧
      ∃ cache, ColumnReader.readAt s'.cache mem' 1 0 = .ok (some (List.replicate 126 7), cache) := by
  have hlength : (List.replicate 200 (7 : UInt8)).length < 2 ^ 16 := by
    rw [List.length_replicate]
    decide
  obtain ⟨s, s', mem', hs, hrun, hread, -⟩ := variable_items_read_back [] (fun _ => 255)
    [.insertVariable [1], .clear, .insertVariable [], .insertVariable (List.replicate 200 7)]
    ⟨by decide, by decide, by decide, by decide, hlength, by decide, trivial⟩
  have hout : (variableContents [] [.insertVariable [1], .clear, .insertVariable [],
      .insertVariable (List.replicate 200 7)])[1]?.map (List.take 126) =
      some (List.replicate 126 7) := by decide
  exact ⟨s, s', mem', hs, hrun, hout ▸ hread 1⟩

end ColumnStore

end FlexQL
