import FlexQL.Executor.Materialize
import FlexQL.Storage.ColumnImage

/-!
# Columns of floats

A float is written as four bytes and read as eight. The writer puts 1022 of them on a page and the
reader counts 511, so what is read for a row belongs to another row, to the header of a page or to
nothing at all.
-/

namespace FlexQL.Executor

open ByteMemory Text Table Runs Fallible ColumnReader

/-- `f32`, the low half of the union. -/
def f32 (v : Value) : BitVec 32 := v.bits.setWidth 32

/-- The patterns in column `c`, in the order of the rows. -/
def patterns (rows : List Row) (c : ℕ) : List (BitVec 32) := rows.filterMap fun row => row.values[c]?.map f32

/-- The first half of the eight bytes with number `k` on page `q`. The page has room for 511 times
eight bytes; the next ones are the header of the page behind it. Behind the last pattern a page is
clear, and behind the last page the file is as it was. -/
def patternAt (xs : List (BitVec 32)) (old : ByteMemory) (q k : ℕ) : BitVec 32 :=
  if k < 511 then xs.getD (q * 1022 + 2 * k) 0
  else if (q + 1) * 1022 < xs.length then
    if k = 511 then BitVec.ofNat 32 (min 1022 (xs.length - (q + 1) * 1022))
    else xs.getD ((q + 1) * 1022 + 2 * (k - 512)) 0
  else BitVec.ofNat 32 (decode (old.read ((q + 1) * 4096 + 8 * (k - 511)) 4))

/-- The pattern that was inserted for a row. -/
def patternInserted (rows : List Row) (c rid : ℕ) : Option (BitVec 32) :=
  rows[rid]?.bind fun row => row.values[c]?.map f32

/-- The pattern that is found for a row. -/
def patternFound (xs : List (BitVec 32)) (old : ByteMemory) (rid : ℕ) : BitVec 32 :=
  patternAt xs old (place (.fixed 4) 511 xs.length rid).1 (place (.fixed 4) 511 xs.length rid).2

variable {s : ColumnStore} {old mem : ByteMemory} {xs : List (BitVec 32)} {rows : List Row} {c : ℕ}

/-- A float is stored as its pattern. -/
theorem bytes_float {v : Value} (h : v.type = .float) : v.bytes = encode 4 (f32 v).toNat := by
  simp only [Value.bytes, h, f32, BitVec.toNat_setWidth]
  exact (encode_mod 4 v.bits.toNat).symm

theorem columnItems_float (h : ∀ row ∈ rows, ∃ v, row.values[c]? = some v ∧ v.type = .float) :
    columnItems rows c = (patterns rows c).map fun x => encode 4 x.toNat := by
  induction rows with
  | nil => rfl
  | cons row rows ih =>
    obtain ⟨v, hv, htype⟩ := h row List.mem_cons_self
    have hrest := ih fun r hr => h r (List.mem_cons_of_mem _ hr)
    simp only [columnItems, patterns] at hrest
    simp only [columnItems, patterns, List.filterMap_cons, hv, Option.map_some, List.map_cons, hrest,
      bytes_float htype]

/-! ## The bytes of a column -/

section Store

variable (h : ColumnStore.Holds (.fixed 4) s mem (xs.map fun x => encode 4 x.toNat))
  (himage : Image (.fixed 4) old mem s.numPages (xs.map fun x => encode 4 x.toNat))

include himage in
/-- The slots of a page hold the patterns, and zeros behind the last one. -/
theorem decode_slot {q j : ℕ} (hq : q < s.numPages) (hj : j < 1022) :
    decode (mem.read (pageOffset q + (8 + j * 4)) 4) = (xs.getD (q * 1022 + j) 0).toNat := by
  have hcap : (SlotFormat.fixed 4).capacity = 1022 := rfl
  rcases Nat.lt_or_ge (q * 1022 + j) xs.length with hlt | hge
  · have hitem : (xs.map fun x => encode 4 x.toNat)[q * 1022 + j]? =
        some (encode 4 (xs.getD (q * 1022 + j) 0).toNat) := by
      rw [List.getElem?_map, List.getElem?_eq_getElem hlt, List.getD_eq_getElem _ _ hlt, Option.map_some]
    have hslot := himage.pages.slot _ _ hitem
    have hdiv : (q * 1022 + j) / 1022 = q := by omega
    have hmod : (q * 1022 + j) % 1022 = j := by omega
    rw [hcap, hdiv, hmod, encode_length, SlotFormat.slotOffset, headerSize, SlotFormat.fixed_slotSize] at hslot
    rw [hslot]
    exact decode_encode (xs.getD (q * 1022 + j) 0).isLt
  · have hclear : mem.read (pageOffset q + (8 + j * 4)) 4 = List.replicate 4 0 := by
      refine himage.read_clear hq ?_ (by omega)
      rw [hcap, List.length_map, SlotFormat.slotOffset, headerSize, SlotFormat.fixed_slotSize]
      omega
    rw [hclear, decode_replicate_zero, List.getD_eq_default _ _ hge]
    rfl

include h himage

/-- The first half of any eight bytes. -/
theorem decode_patternAt {q k : ℕ} (hq : q < s.numPages) (hk : k < 1022) :
    BitVec.ofNat 32 (decode (mem.read (pageOffset q + (8 + k * 8)) 4)) = patternAt xs old q k := by
  have hcap : (SlotFormat.fixed 4).capacity = 1022 := rfl
  have hfits := h.pages.fits
  unfold patternAt
  split
  case isTrue hlow =>
    rw [show 8 + k * 8 = 8 + 2 * k * 4 by ring, decode_slot himage hq (by omega), BitVec.ofNat_toNat,
      BitVec.setWidth_eq]
  case isFalse hhigh =>
    -- the address lies on the page behind
    have hnext : pageOffset q + (8 + k * 8) = (q + 1) * 4096 + 8 * (k - 511) := by
      rw [pageOffset_of_lt (lt_of_lt_of_le hq hfits)]
      omega
    have hle := h.pages.length_le
    have hlt := h.lt_length
    rw [hcap, List.length_map] at hle hlt
    split
    case isTrue hmore =>
      have hq' : q + 1 < s.numPages := by omega
      have hoff : pageOffset (q + 1) = (q + 1) * 4096 := pageOffset_of_lt (lt_of_lt_of_le hq' hfits)
      split
      case isTrue hheader =>
        have hcount := himage.pages.header (q + 1) hq'
        rw [hcap, List.length_map, numItems, hoff] at hcount
        rw [hnext, hheader, Nat.sub_self, Nat.mul_zero, Nat.add_zero, hcount]
      case isFalse hslot =>
        rw [hnext, ← hoff, show 8 * (k - 511) = 8 + 2 * (k - 512) * 4 by omega,
          decode_slot himage hq' (by omega), BitVec.ofNat_toNat, BitVec.setWidth_eq]
    case isFalse hend =>
      have hpages : s.numPages ≤ q + 1 := by omega
      have hold : mem.read ((q + 1) * 4096 + 8 * (k - 511)) 4 = old.read ((q + 1) * 4096 + 8 * (k - 511)) 4 :=
        read_congr fun a ha _ => himage.old_eq a ((Nat.mul_le_mul_right _ hpages).trans (le_trans (Nat.le_add_right _ _) ha))
      rw [hnext, hold]

/-- Reading a float. -/
theorem readAt_float {rid : ℕ} (hrid : rid < xs.length) {out : Option (List UInt8)} {cache : CacheManager}
    (hread : readAt s.cache mem rid 8 = .ok (out, cache)) :
    ∃ buf, out = some buf ∧ BitVec.ofNat 32 (decode buf) = patternFound xs old rid := by
  have hf : (SlotFormat.fixed 4).Sound := itemFormat_sound .float
  have hcap : (SlotFormat.fixed 4).capacity = 1022 := rfl
  have hm : (pageSize - headerSize) / slotSize 8 = 511 := rfl
  have hlength : (xs.map fun x => encode 4 x.toNat).length = xs.length := List.length_map ..
  obtain ⟨cache', heq⟩ := readAt_of_lt hf h.pages hm (hlength ▸ hrid)
  rw [hread, hlength] at heq
  obtain ⟨buf, hbuf, heq⟩ := map_eq_ok heq.symm
  have hplace : (place (.fixed 4) 511 xs.length rid).1 < s.numPages ∧
      (place (.fixed 4) 511 xs.length rid).2 < 1022 := by
    have hpage := h.pages.page_lt hf (hlength ▸ hrid)
    have hle := h.pages.length_le
    rw [hcap] at hpage hle
    rw [hlength] at hle
    unfold place
    rw [hcap]
    split <;> constructor <;> dsimp only <;> omega
  rw [readSlot_eq_load _ _ (by norm_num) (by omega)] at hbuf
  refine ⟨buf, (congrArg Prod.fst heq).symm, ?_⟩
  rw [patternFound, ← decode_patternAt h himage hplace.1 hplace.2, eq_read_of_load hbuf, read_add mem _ 4 4, decode_append,
    read_length]
  apply BitVec.eq_of_toNat_eq
  rw [BitVec.toNat_ofNat, BitVec.toNat_ofNat, show 256 ^ 4 = 2 ^ 32 by norm_num, Nat.add_mul_mod_self_left]
  rfl

end Store

/-- In a short column each row is looked for in the place of the one with twice its number. -/
theorem patternFound_of_le (old : ByteMemory) (h : xs.length ≤ 511) {rid : ℕ} (hrid : rid < xs.length) :
    patternFound xs old rid = xs.getD (2 * rid) 0 := by
  have hplace : place (.fixed 4) 511 xs.length rid = (0, rid) := by
    rw [place, Nat.div_eq_of_lt (by omega), Nat.mod_eq_of_lt (by omega), show (SlotFormat.fixed 4).capacity = 1022 from rfl,
      if_pos (by omega)]
  rw [patternFound, hplace, patternAt, if_pos (by omega), Nat.zero_mul, Nat.zero_add]

/-! ## The main result -/

theorem patterns_length (h : ∀ row ∈ rows, ∃ v, row.values[c]? = some v ∧ v.type = .float) :
    (patterns rows c).length = rows.length := by
  rw [← List.length_map fun x : BitVec 32 => encode 4 x.toNat, ← columnItems_float h]
  refine columnItems_length fun r hr => ?_
  obtain ⟨v, hv, -⟩ := h r hr
  exact (List.getElem?_eq_some_iff.mp hv).1

/-- The column of a new table that took floats. -/
theorem column_of_run {dataDir name : Text} {schema : Schema} {disk₀ disk : Disk} {t₀ t : Table}
    (hinit : Table.init dataDir name schema disk₀ = .ok t₀) {d : ColumnDef} (hd : schema[c]? = some d)
    (hown : ∀ (j : ℕ) d', schema[j]? = some d' → d'.name = d.name → j = c)
    (hfloat : ∀ row ∈ rows, ∃ v, row.values[c]? = some v ∧ v.type = .float)
    (hrun : run insertStep (t₀, disk₀) rows = .ok (t, disk)) :
    ∃ column mem, HasOwn t disk c column mem ∧ t.schema = schema ∧
      ColumnStore.Holds (.fixed 4) column mem ((patterns rows c).map fun x => encode 4 x.toNat) ∧
      Image (.fixed 4) (disk₀.columns (columnPath dataDir name d.name)) mem column.numPages
        ((patterns rows c).map fun x => encode 4 x.toNat) := by
  obtain ⟨m, rfl, -, -⟩ := init_cases hinit
  have hf : (SlotFormat.fixed 4).Sound := itemFormat_sound .float
  have hcolumn : (schema.map (newColumn dataDir name))[c]? = some (newColumn dataDir name d) := by
    rw [List.getElem?_map, hd, Option.map_some]
  have hnew : HasOwn ⟨name, schema, schema.map (newColumn dataDir name), m⟩ disk₀ c (newColumn dataDir name d)
      (disk₀.columns (columnPath dataDir name d.name)) := by
    refine ⟨?_, hcolumn, rfl, ?_⟩
    · intro u hu
      obtain ⟨d', -, rfl⟩ := List.mem_map.mp hu
      exact ⟨Nat.zero_le _, Or.inl rfl⟩
    · intro j u hu hpath
      rw [List.getElem?_map] at hu
      obtain ⟨d', hd', rfl⟩ := Option.map_eq_some_iff.mp hu
      exact hown j d' hd' (columnPath_inj hpath)
  obtain ⟨column, mem, h, hholds, himage⟩ := hnew.run hf (List.getElem?_eq_some_iff.mp hd).1
    (ColumnStore.holds_nil hf rfl rfl rfl _) (image_nil _)
    (fun row hrow => (hfloat row hrow).imp fun v hv => ⟨hv.1, by rw [v.bytes_length, hv.2]; rfl⟩) hrun
  rw [List.nil_append, columnItems_float hfloat] at hholds himage
  exact ⟨column, mem, h, run_insertStep_schema hrun, hholds, himage⟩

/-- The value that is read for a float. -/
theorem materializeValue_float {p : Platform} {t : Table} {disk : Disk} (hcolumn : HasOwn t disk c s mem)
    (h : ColumnStore.Holds (.fixed 4) s mem (xs.map fun x => encode 4 x.toNat))
    (himage : Image (.fixed 4) old mem s.numPages (xs.map fun x => encode 4 x.toNat)) {rid : ℕ}
    (hrid : rid < xs.length) {w : Value}
    (hw : materializeValue p t disk rid .float c = .ok w) : f32 w = patternFound xs old rid := by
  obtain ⟨out, hout, hw⟩ := bind_eq_ok hw
  simp only [Table.readAt, getColumn, hcolumn.column_eq, hcolumn.file_eq, ColumnType.readSize] at hout
  obtain ⟨⟨out', cache⟩, hread, hout⟩ := bind_eq_ok hout
  obtain rfl : out' = out := Except.ok.inj hout
  obtain ⟨buf, rfl, hbuf⟩ := readAt_float h himage hrid hread
  cases hw
  exact (BitVec.setWidth_ofNat_of_le (by decide) _).trans hbuf

/-- What `materialize_row` finds in a column of floats, after insertions into a new table. The name of
the column is not the name of another one, so it has a file for itself. Then the pattern of a row
comes back exactly if it is the pattern that is found in its place. -/
theorem readsPattern_iff (p : Platform) (dataDir name : Text) (schema : Schema) (disk₀ : Disk) (t₀ : Table)
    (hinit : Table.init dataDir name schema disk₀ = .ok t₀) (c : ℕ) (d : ColumnDef) (hd : schema[c]? = some d)
    (htype : d.type = .float) (hown : ∀ (j : ℕ) d', schema[j]? = some d' → d'.name = d.name → j = c)
    (rows : List Row) (hfloat : ∀ row ∈ rows, ∃ v, row.values[c]? = some v ∧ v.type = .float)
    (t : Table) (disk : Disk) (hrun : run insertStep (t₀, disk₀) rows = .ok (t, disk)) (rid : ℕ)
    (hrid : rid < rows.length) (read : Row) (hread : materializeRow p t disk rid = .ok read) :
    read.values[c]?.map f32 = patternInserted rows c rid ↔ patternInserted rows c rid =
      some (patternFound (patterns rows c) (disk₀.columns (columnPath dataDir name d.name)) rid) := by
  obtain ⟨column, mem, hcolumn, hschema, hholds, himage⟩ := column_of_run hinit hd hown hfloat hrun
  obtain ⟨values, hvalues, hread⟩ := bind_eq_ok hread
  cases hread
  obtain ⟨w, hw, hstored⟩ := materializeFrom_getElem? hvalues (hschema ▸ hd)
  rw [htype, Nat.zero_add] at hstored
  rw [← patterns_length hfloat] at hrid
  rw [hw, Option.map_some, materializeValue_float hcolumn hholds himage hrid hstored, eq_comm]

/-- `(id INT, val FLOAT)`. -/
def intAndFloat : Schema := [⟨str "id", .int⟩, ⟨str "val", .float⟩]

/-- The floats `0` and `1.5`. -/
def twoFloats : List Row :=
  [⟨[⟨.int, 0, []⟩, ⟨.float, 0, []⟩]⟩, ⟨[⟨.int, 1, []⟩, ⟨.float, 0x3FC00000, []⟩]⟩]

theorem exists_twoFloats :
    ∃ t₀ t disk read₀ read₁, Table.init (str "data") (str "t") intAndFloat .blank = .ok t₀ ∧
      run insertStep (t₀, .blank) twoFloats = .ok (t, disk) ∧ materializeRow .reference t disk 0 = .ok read₀ ∧
      materializeRow .reference t disk 1 = .ok read₁ ∧ (read₁.values[1]?.map f32) = some 0 := by
  have hend : (do
      let t₀ ← Table.init (str "data") (str "t") intAndFloat .blank
      let st ← run insertStep (t₀, .blank) twoFloats
      let read₀ ← materializeRow .reference st.1 st.2 0
      let read₁ ← materializeRow .reference st.1 st.2 1
      return (read₁.values[1]?.map f32)) = (.ok (some 0) : Except Fault (Option (BitVec 32))) := by
    decide +kernel
  obtain ⟨t₀, hinit, hend⟩ := bind_eq_ok hend
  obtain ⟨⟨t, disk⟩, hrun, hend⟩ := bind_eq_ok hend
  obtain ⟨read₀, hread₀, hend⟩ := bind_eq_ok hend
  obtain ⟨read₁, hread₁, hend⟩ := bind_eq_ok hend
  exact ⟨t₀, t, disk, read₀, read₁, hinit, hrun, hread₀, hread₁, Except.ok.inj hend⟩

theorem twoFloats_own : ∀ (j : ℕ) d', intAndFloat[j]? = some d' → d'.name = str "val" → j = 1 := by
  intro j d' hd' hname
  rcases j with - | - | j
  · obtain rfl := Option.some.inj hd'
    exact absurd hname (by decide)
  · rfl
  · cases hd'

theorem twoFloats_float : ∀ row ∈ twoFloats, ∃ v, row.values[1]? = some v ∧ v.type = .float := by
  intro row hrow
  rcases List.mem_pair.mp hrow with rfl | rfl
  · exact ⟨_, rfl, rfl⟩
  · exact ⟨_, rfl, rfl⟩

/-- The first row is found in its own place. -/
theorem readsPattern_first :
    ∃ t₀ t disk read, Table.init (str "data") (str "t") intAndFloat .blank = .ok t₀ ∧
      run insertStep (t₀, .blank) twoFloats = .ok (t, disk) ∧ materializeRow .reference t disk 0 = .ok read ∧
      read.values[1]?.map f32 = patternInserted twoFloats 1 0 := by
  obtain ⟨t₀, t, disk, read, -, hinit, hrun, hread, -⟩ := exists_twoFloats
  refine ⟨t₀, t, disk, read, hinit, hrun, hread, ?_⟩
  refine (readsPattern_iff .reference (str "data") (str "t") intAndFloat .blank t₀ hinit 1 ⟨str "val", .float⟩ rfl
    rfl twoFloats_own twoFloats twoFloats_float t disk hrun 0 (by decide) read hread).mpr ?_
  decide

/-- The second row is found behind the last pattern. -/
theorem not_readsPattern_second :
    ∃ t₀ t disk read, Table.init (str "data") (str "t") intAndFloat .blank = .ok t₀ ∧
      run insertStep (t₀, .blank) twoFloats = .ok (t, disk) ∧ materializeRow .reference t disk 1 = .ok read ∧
      patternInserted twoFloats 1 1 = some 0x3FC00000 ∧
      ¬ read.values[1]?.map f32 = patternInserted twoFloats 1 1 := by
  obtain ⟨t₀, t, disk, -, read, hinit, hrun, -, hread, hzero⟩ := exists_twoFloats
  have hinserted : patternInserted twoFloats 1 1 = some 0x3FC00000 := by decide
  refine ⟨t₀, t, disk, read, hinit, hrun, hread, hinserted, ?_⟩
  rw [hzero, hinserted]
  decide

end FlexQL.Executor
