import FlexQL.Storage.ColumnStore

/-!
# The layout of a column

Item `i` of a column lies on page `i / capacity`, in slot `i % capacity`. The writer reaches this
place by counting, the reader by division or by a walk over all pages. The invariant says what
is on the pages in use and nothing about the bytes behind them, so a store that was cleared may
reuse its pages as they are.
-/

namespace FlexQL

open ByteMemory

namespace SlotFormat

/-- A format whose slots fit a page. -/
structure Sound (f : SlotFormat) : Prop where
  pos : 0 < f.slotSize
  le : f.slotSize ≤ 4088
  kind_lt : f.kind < 2 ^ 32
  kind_eq : f.checksKind = true → f.kind = 0

variable {f : SlotFormat}

theorem capacity_eq (f : SlotFormat) : f.capacity = 4088 / f.slotSize := rfl

theorem Sound.capacity_pos (hf : f.Sound) : 0 < f.capacity :=
  Nat.div_pos hf.le hf.pos

theorem slot_end (f : SlotFormat) {i : ℕ} (hi : i < f.capacity) :
    i * f.slotSize + f.slotSize ≤ 4088 := by
  calc i * f.slotSize + f.slotSize = (i + 1) * f.slotSize := by rw [Nat.add_mul, Nat.one_mul]
    _ ≤ f.capacity * f.slotSize := Nat.mul_le_mul_right _ hi
    _ ≤ 4088 := Nat.div_mul_le_self _ _

theorem capacity_le (f : SlotFormat) : f.capacity ≤ 4088 := Nat.div_le_self _ _

theorem fixed_sound {size : ℕ} (hpos : 0 < size) (hle : size ≤ 4088) : (fixed size).Sound where
  pos := hpos
  le := hle
  kind_lt := by simp only [fixed]; omega
  kind_eq := by simp [fixed]

@[simp] theorem fixed_slotSize (size : ℕ) : (fixed size).slotSize = size := rfl

/-- The distance of slot `i` from the start of its page. -/
def slotOffset (f : SlotFormat) (i : ℕ) : ℕ := headerSize + i * f.slotSize

end SlotFormat

/-! ## Bytes of different pages -/

theorem read_write_page {mem : ByteMemory} {p q d d' len : ℕ} {block : List UInt8}
    (hp : p < mappedPages) (hq : q < mappedPages) (hne : p ≠ q) (hd : d + block.length ≤ 4096)
    (hd' : d' + len ≤ 4096) :
    (mem.write (pageOffset q + d) block).read (pageOffset p + d') len =
      mem.read (pageOffset p + d') len := by
  rw [pageOffset_of_lt hp, pageOffset_of_lt hq]
  exact read_write_disjoint (by omega)

theorem page_end {p : ℕ} (hp : p < mappedPages) : pageOffset p + 4096 ≤ mapSize := by
  rw [pageOffset_of_lt hp]
  simp only [mappedPages, mapSize] at *
  omega

/-! ## The pages of a column -/

/-- The first `n` pages hold the items. -/
structure Pages (f : SlotFormat) (mem : ByteMemory) (n : ℕ) (items : List (List UInt8)) : Prop where
  fits : n ≤ mappedPages
  length_le : items.length ≤ n * f.capacity
  block_le : ∀ item ∈ items, item.length ≤ f.slotSize
  header : ∀ p < n, numItems mem (pageOffset p) = min f.capacity (items.length - p * f.capacity)
  kind : ∀ p < n, itemSize mem (pageOffset p) = f.kind
  slot : ∀ i item, items[i]? = some item →
    mem.read (pageOffset (i / f.capacity) + f.slotOffset (i % f.capacity)) item.length = item

variable {f : SlotFormat} {mem : ByteMemory} {n : ℕ} {items : List (List UInt8)}

/-- On the pages of a column, only the number of items decides whether a page is full. -/
theorem Pages.full_eq (h : Pages f mem n items) (hf : f.Sound) {p : ℕ} (hp : p < n) :
    f.full mem (pageOffset p) = decide (f.capacity ≤ items.length - p * f.capacity) := by
  have hkind : (f.checksKind && itemSize mem (pageOffset p) ≠ 0) = false := by
    rw [h.kind p hp]
    cases hc : f.checksKind with
    | false => rfl
    | true => simp [hf.kind_eq hc]
  rw [SlotFormat.full, hkind, Bool.false_or, h.header p hp, decide_eq_decide]
  omega

theorem Pages.page_lt (h : Pages f mem n items) (hf : f.Sound) {i : ℕ} (hi : i < items.length) :
    i / f.capacity < n :=
  (Nat.div_lt_iff_lt_mul hf.capacity_pos).mpr (lt_of_lt_of_le hi h.length_le)

theorem Pages.slot_le (h : Pages f mem n items) (hf : f.Sound) {i : ℕ} {item : List UInt8}
    (hi : items[i]? = some item) : f.slotOffset (i % f.capacity) + item.length ≤ 4096 := by
  have hend := f.slot_end (Nat.mod_lt i hf.capacity_pos)
  have hblock := h.block_le item (List.mem_of_getElem? hi)
  simp only [SlotFormat.slotOffset, headerSize]
  omega

/-- A full column takes another page. The page is cleared, whatever it held before. -/
theorem Pages.newPage (h : Pages f mem n items) (hf : f.Sound) (hn : n < mappedPages)
    (hfull : items.length = n * f.capacity) :
    Pages f ((mem.write (pageOffset n) (List.replicate pageSize 0)).write (pageOffset n + 4)
      (encode 4 f.kind)) (n + 1) items := by
  have hother : ∀ {p d len : ℕ}, p < n → d + len ≤ 4096 →
      ((mem.write (pageOffset n) (List.replicate pageSize 0)).write (pageOffset n + 4)
        (encode 4 f.kind)).read (pageOffset p + d) len = mem.read (pageOffset p + d) len := by
    intro p d len hp hd
    rw [read_write_page (by omega) hn (by omega) (by simp) hd]
    exact read_write_page (d := 0) (by omega) hn (by omega)
      (by rw [List.length_replicate]; exact le_rfl) hd
  refine ⟨hn, ?_, h.block_le, ?_, ?_, ?_⟩
  · rw [Nat.add_mul]
    omega
  · intro p hp
    rcases Nat.lt_succ_iff_lt_or_eq.mp hp with hp | rfl
    · rw [numItems, ← Nat.add_zero (pageOffset p), hother hp (by omega)]
      exact h.header p hp
    · rw [numItems, read_write_disjoint (by simp), read_write_replicate le_rfl (by simp only [pageSize]; omega),
        decode_replicate_zero, hfull, Nat.sub_self, Nat.min_zero]
  · intro p hp
    rcases Nat.lt_succ_iff_lt_or_eq.mp hp with hp | rfl
    · rw [itemSize, hother hp (by omega)]
      exact h.kind p hp
    · rw [itemSize, read_write_encode, decode_encode hf.kind_lt]
  · intro i item hi
    obtain ⟨hlt, -⟩ := List.getElem?_eq_some_iff.mp hi
    rw [hother (h.page_lt hf hlt) (h.slot_le hf hi)]
    exact h.slot i item hi

/-- The last page takes an item. -/
theorem Pages.append {q : ℕ} (h : Pages f mem (q + 1) items) (hf : f.Sound)
    (hlo : q * f.capacity ≤ items.length) (hhi : items.length < (q + 1) * f.capacity)
    {block : List UInt8} (hblock : block.length ≤ f.slotSize) :
    Pages f ((mem.write (pageOffset q + f.slotOffset (items.length - q * f.capacity)) block).write
        (pageOffset q) (encode 4 (items.length - q * f.capacity + 1)))
      (q + 1) (items ++ [block]) := by
  obtain ⟨k, hk⟩ := Nat.exists_eq_add_of_le hlo
  have hmul : (q + 1) * f.capacity = q * f.capacity + f.capacity := by rw [Nat.add_mul, Nat.one_mul]
  have hkcap : k < f.capacity := by omega
  have hend := f.slot_end hkcap
  have hcap := f.capacity_le
  have hq : q < mappedPages := h.fits
  have hslot : f.slotOffset k + block.length ≤ 4096 := by
    simp only [SlotFormat.slotOffset, headerSize]
    omega
  have h8 : 8 ≤ f.slotOffset k := Nat.le_add_right _ _
  rw [show items.length - q * f.capacity = k by omega]
  have hother : ∀ {p d len : ℕ}, p < q → d + len ≤ 4096 →
      ((mem.write (pageOffset q + f.slotOffset k) block).write (pageOffset q)
        (encode 4 (k + 1))).read (pageOffset p + d) len = mem.read (pageOffset p + d) len := by
    intro p d len hp hd
    rw [← Nat.add_zero (pageOffset q),
      read_write_page (by omega) hq (by omega) (by rw [encode_length]; omega) hd, Nat.add_zero]
    exact read_write_page (by omega) hq (by omega) hslot hd
  refine ⟨h.fits, ?_, ?_, ?_, ?_, ?_⟩
  · rw [List.length_append, List.length_singleton]
    omega
  · intro item hitem
    rcases List.mem_append.mp hitem with hitem | hitem
    · exact h.block_le item hitem
    · rwa [List.mem_singleton.mp hitem]
  · intro p hp
    rw [List.length_append, List.length_singleton]
    rcases Nat.lt_succ_iff_lt_or_eq.mp hp with hp | rfl
    · have hpq : (p + 1) * f.capacity ≤ q * f.capacity := Nat.mul_le_mul_right _ hp
      rw [Nat.add_mul, Nat.one_mul] at hpq
      rw [numItems, ← Nat.add_zero (pageOffset p), hother hp (by omega), Nat.add_zero]
      refine (h.header p (by omega)).trans ?_
      omega
    · rw [numItems, read_write_encode, decode_encode (by norm_num; omega)]
      omega
  · intro p hp
    rcases Nat.lt_succ_iff_lt_or_eq.mp hp with hp | rfl
    · rw [itemSize, hother hp (by omega)]
      exact h.kind p (by omega)
    · rw [itemSize, read_write_disjoint (by rw [encode_length]; omega),
        read_write_disjoint (by omega)]
      exact h.kind p hp
  · intro i item hi
    rcases Nat.lt_or_ge i items.length with hlt | hge
    · rw [List.getElem?_append_left hlt] at hi
      have hpage := h.page_lt hf hlt
      have hle := h.slot_le hf hi
      rcases Nat.lt_succ_iff_lt_or_eq.mp hpage with hp | hp
      · rw [hother hp hle]
        exact h.slot i item hi
      · have hmod : i % f.capacity < k := by
          have := Nat.div_add_mod i f.capacity
          rw [hp, Nat.mul_comm] at this
          omega
        have hsep : i % f.capacity * f.slotSize + f.slotSize ≤ k * f.slotSize := by
          calc i % f.capacity * f.slotSize + f.slotSize
              = (i % f.capacity + 1) * f.slotSize := by rw [Nat.add_mul, Nat.one_mul]
            _ ≤ k * f.slotSize := Nat.mul_le_mul_right _ hmod
        have hitem := h.block_le item (List.mem_of_getElem? hi)
        rw [hp, read_write_disjoint (by simp [SlotFormat.slotOffset, headerSize]; omega),
          read_write_disjoint (by simp only [SlotFormat.slotOffset, headerSize]; omega), ← hp]
        exact h.slot i item hi
    · obtain rfl : i = items.length := by
        have := (List.getElem?_eq_some_iff.mp hi).1
        rw [List.length_append, List.length_singleton] at this
        omega
      obtain rfl : block = item := by simpa using hi
      have hdiv : items.length / f.capacity = q := by
        rw [hk, Nat.mul_comm, Nat.mul_add_div hf.capacity_pos, Nat.div_eq_of_lt hkcap, Nat.add_zero]
      have hmod : items.length % f.capacity = k := by
        rw [hk, Nat.mul_comm, Nat.mul_add_mod, Nat.mod_eq_of_lt hkcap]
      rw [hdiv, hmod, read_write_disjoint (by rw [encode_length]; omega), read_write_same]

end FlexQL
