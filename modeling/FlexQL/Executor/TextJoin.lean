import FlexQL.Executor.InsertAtomic
import FlexQL.Executor.JoinSpec

/-!
# Joins on columns of texts

The hash join reads eight bytes for each row, where a column of numbers would have them. The slots of
a column of texts have 128 bytes and there are 31 of them on a page, so for most rows these eight
bytes belong to the text of another row, and to some place within it.
-/

namespace FlexQL.Executor

open ByteMemory Text Table Runs Fallible ColumnReader

/-- A text as it is stored. -/
def storedText (s : Text) : Text := (cStr s).take 127

/-- The texts that are stored in column `c`, in the order of the rows. -/
def texts (rows : List Row) (c : ℕ) : List Text :=
  rows.filterMap fun row => row.values[c]?.map fun v => storedText v.str

/-- The eight bytes with number `k` on page `q`: each text has sixteen times eight bytes. -/
def chunkAt (xs : List Text) (q k : ℕ) : List UInt8 :=
  ((Value.strBytes (xs.getD (q * 31 + k / 16) [])).drop (k % 16 * 8)).take 8

/-- The eight bytes that are found for a row. -/
def chunkFound (xs : List Text) (rid : ℕ) : List UInt8 :=
  chunkAt xs (place (.fixed 128) 511 xs.length rid).1 (place (.fixed 128) 511 xs.length rid).2

/-- The text in a column of a row. -/
def text (c : ℕ) (row : Row) : Option Text := row.values[c]?.map Value.str

/-- The double loop over the rows of two tables, for rows with equal texts. -/
def textLoop (p : Platform) (t1 t2 : Table) (disk : Disk) (c1 c2 : ℕ) : Except Fault (List Row) := do
  let rows1 ← materializeRows p t1 disk (List.range (← t1.totalRows 0))
  let rows2 ← materializeRows p t2 disk (List.range (← t2.totalRows 0))
  return NestedLoop.pairs (fun row1 row2 => text c1 row1 = text c2 row2)
    (fun row1 row2 => ⟨row1.values ++ row2.values⟩) rows1 rows2

variable {p : Platform} {t t1 t2 : Table} {disk : Disk} {rows rows1 rows2 : List Row} {c : ℕ} {d : ColumnDef}
  {xs : List Text}

/-! ## The bytes of a text column -/

theorem strBytes_storedText (s : Text) : Value.strBytes (storedText s) = Value.strBytes s := by
  have hzero : ∀ b ∈ storedText s, b ≠ 0 := fun b hb => by
    simpa using List.mem_takeWhile_imp (List.mem_of_mem_take hb)
  have hcut : (cStr (storedText s)).take 127 = storedText s := by
    rw [cStr, List.takeWhile_eq_self_iff.mpr (by simpa using hzero)]
    exact List.take_of_length_le (List.length_take_le ..)
  simp only [Value.strBytes, hcut]
  rfl

theorem strBytes_length (s : Text) : (Value.strBytes s).length = 128 := by
  have hlen : ((cStr s).take 127).length ≤ 127 := List.length_take_le _ _
  simp only [Value.strBytes, List.length_append, List.length_replicate]
  omega

theorem chunkAt_length (xs : List Text) (q k : ℕ) : (chunkAt xs q k).length = 8 := by
  have := Nat.mod_lt k (show 16 > 0 by decide)
  simp only [chunkAt, List.length_take, List.length_drop, strBytes_length]
  omega

theorem columnItems_text (h : ∀ row ∈ rows, ∃ v, row.values[c]? = some v ∧ v.type = .varchar) :
    columnItems rows c = (texts rows c).map Value.strBytes := by
  induction rows with
  | nil => rfl
  | cons row rows ih =>
    obtain ⟨v, hv, htype⟩ := h row List.mem_cons_self
    have hrest := ih fun r hr => h r (List.mem_cons_of_mem _ hr)
    simp only [columnItems, texts] at hrest
    simp only [columnItems, texts, List.filterMap_cons, hv, Option.map_some, List.map_cons, hrest, Value.bytes,
      htype, strBytes_storedText]

/-- The place where a row is looked for is in some text of the column. -/
theorem place_text {n rid : ℕ} (hrid : rid < n) :
    (place (.fixed 128) 511 n rid).2 < 31 ∧
      (place (.fixed 128) 511 n rid).1 * 31 + (place (.fixed 128) 511 n rid).2 < n := by
  have hcap : (SlotFormat.fixed 128).capacity = 31 := rfl
  unfold place
  rw [hcap]
  split <;> dsimp only <;> omega

/-- Eight bytes of a text column. -/
theorem load_chunk {mem : ByteMemory} {n : ℕ} (h : Pages (.fixed 128) mem n (xs.map Value.strBytes)) {q k : ℕ}
    (hk : k < 31) (hq : q * 31 + k < xs.length) :
    load mem (pageOffset q + (headerSize + k * 8)) 8 = .ok (chunkAt xs q k) := by
  have hf : (SlotFormat.fixed 128).Sound := itemFormat_sound .varchar
  have hcap : (SlotFormat.fixed 128).capacity = 31 := rfl
  have hitem : (xs.map Value.strBytes)[q * 31 + k / 16]? =
      some (Value.strBytes (xs.getD (q * 31 + k / 16) [])) := by
    have hlt : q * 31 + k / 16 < xs.length := by omega
    rw [List.getElem?_map, List.getElem?_eq_getElem hlt, List.getD_eq_getElem _ _ hlt, Option.map_some]
  have hslot := h.slot _ _ hitem
  have hpage := h.page_lt hf (List.getElem?_eq_some_iff.mp hitem).1
  have hdiv : (q * 31 + k / 16) / 31 = q := by omega
  have hmod : (q * 31 + k / 16) % 31 = k / 16 := by omega
  rw [hcap, hdiv] at hpage
  rw [hcap, hdiv, hmod, strBytes_length, SlotFormat.slotOffset, SlotFormat.fixed_slotSize] at hslot
  have hend := page_end (lt_of_lt_of_le hpage h.fits)
  have haddr : pageOffset q + (headerSize + k * 8) = pageOffset q + (headerSize + k / 16 * 128) + k % 16 * 8 := by
    omega
  rw [load, if_pos (by rw [headerSize]; omega), haddr, read_part mem _ (n := 128) (by omega), hslot]
  rfl

/-- Reading the join key of a row. -/
theorem readAt_text (h : Table.Holds t disk (columnItems rows)) (hd : t.schema[c]? = some d)
    (htype : d.type = .varchar) (hrows : ∀ row ∈ rows, ∃ v, row.values[c]? = some v ∧ v.type = .varchar)
    {rid : ℕ} (hrid : rid < (texts rows c).length) :
    t.readAt disk c rid 8 = .ok (some (chunkFound (texts rows c) rid)) := by
  obtain ⟨column, hcolumn, hc⟩ := h.exists_column hd
  have hpages := hc.holds.pages
  rw [htype, columnItems_text hrows] at hpages
  have hf : (SlotFormat.fixed 128).Sound := itemFormat_sound .varchar
  have hm : (pageSize - headerSize) / slotSize 8 = 511 := rfl
  have hlength : ((texts rows c).map Value.strBytes).length = (texts rows c).length := List.length_map ..
  obtain ⟨cache, hread⟩ := readAt_of_lt hf hpages hm (hlength ▸ hrid)
  obtain ⟨hk, hq⟩ := place_text hrid
  rw [hlength, readSlot_eq_load _ _ (by decide) (by omega), load_chunk hpages hk hq] at hread
  simp only [Table.readAt, getColumn, hcolumn, hread, Bind.bind, Except.bind, Except.map, Pure.pure, Except.pure]
  rfl

/-! ## Rows as they are read -/

/-- A table with a value of its type for each column of each row. -/
structure Holding (t : Table) (disk : Disk) (rows : List Row) : Prop where
  holds : ∃ es, HoldsRows t disk rows es
  full : ∀ row ∈ rows, RowFull t.schema row

theorem Holding.exists_text (h : Holding t disk rows) (hd : t.schema[c]? = some d) (htype : d.type = .varchar) :
    ∀ row ∈ rows, ∃ v, row.values[c]? = some v ∧ v.type = .varchar := by
  intro row hrow
  obtain ⟨v, hv, hvtype⟩ := (h.full row hrow).exists_value hd
  exact ⟨v, hv, hvtype.trans htype⟩

theorem texts_getElem? (h : ∀ row ∈ rows, ∃ v, row.values[c]? = some v ∧ v.type = .varchar) (rid : ℕ) :
    (texts rows c)[rid]? = rows[rid]?.bind fun row => row.values[c]?.map fun v => storedText v.str := by
  induction rows generalizing rid with
  | nil => rfl
  | cons row rows ih =>
    obtain ⟨v, hv, -⟩ := h row List.mem_cons_self
    have hrest := ih fun r hr => h r (List.mem_cons_of_mem _ hr)
    simp only [texts] at hrest
    cases rid with
    | zero => simp [texts, hv]
    | succ rid => simpa [texts, hv] using hrest rid

theorem texts_length (h : ∀ row ∈ rows, ∃ v, row.values[c]? = some v ∧ v.type = .varchar) :
    (texts rows c).length = rows.length := by
  induction rows with
  | nil => rfl
  | cons row rows ih =>
    obtain ⟨v, hv, -⟩ := h row List.mem_cons_self
    have hrest := ih fun r hr => h r (List.mem_cons_of_mem _ hr)
    simp only [texts] at hrest
    simp only [texts, List.filterMap_cons, hv, Option.map_some, List.length_cons, hrest]

/-- A row that is read has the stored text. -/
theorem Holding.text_eq (h : Holding t disk rows) (hd : t.schema[c]? = some d) (htype : d.type = .varchar)
    {rid : ℕ} (hrid : rid < rows.length) {read : Row} (hread : materializeRow p t disk rid = .ok read) :
    text c read = (texts rows c)[rid]? := by
  obtain ⟨es, hholds⟩ := h.holds
  have hrow := List.getElem?_eq_getElem hrid
  obtain ⟨v, hv, hvtype⟩ := (h.full _ (List.getElem_mem hrid)).exists_value hd
  obtain ⟨values, hvalues, hread⟩ := bind_eq_ok hread
  cases hread
  obtain ⟨w, hw, hstored⟩ := materializeFrom_getElem? hvalues hd
  have hitem : (columnItems rows c)[rid]? = some v.bytes := by
    rw [columnItems_getElem? _ rid, hrow, Option.bind_some, hv, Option.map_some]
    intro r hr
    rw [(h.full r hr).length_eq]
    exact (List.getElem?_eq_some_iff.mp hd).1
  have hvalue : materializeValue p t disk rid d.type c = .ok (v.stored p) :=
    materializeValue_eq hholds.columns hd (by rw [htype]; rfl) hvtype hitem
  rw [Nat.zero_add] at hstored
  obtain rfl := Except.ok.inj (hstored.symm.trans hvalue)
  have hstr : (v.stored p).str = storedText v.str := by
    rw [htype] at hvtype
    simp only [Value.stored, hvtype]
    rfl
  rw [text, hw, texts_getElem? (h.exists_text hd htype), hrow, Option.bind_some, hv, Option.map_some,
    Option.map_some, hstr]

theorem forall₂_of_materializeRows {rids : List ℕ} (h : materializeRows p t disk rids = .ok rows) :
    List.Forall₂ (fun rid row => materializeRow p t disk rid = .ok row) rids rows := by
  induction rids generalizing rows with
  | nil =>
    cases h
    exact List.Forall₂.nil
  | cons rid rids ih =>
    obtain ⟨row, hrow, h⟩ := bind_eq_ok h
    obtain ⟨rest, hrest, h⟩ := bind_eq_ok h
    cases h
    exact List.Forall₂.cons hrow (ih hrest)

theorem materializeFrom_length {rid : ℕ} {schema : Schema} {values : List Value}
    (h : materializeFrom p t disk rid schema c = .ok values) : values.length = schema.length := by
  induction schema generalizing c values with
  | nil =>
    cases h
    rfl
  | cons d schema ih =>
    obtain ⟨v, -, h⟩ := bind_eq_ok h
    obtain ⟨vs, hvs, h⟩ := bind_eq_ok h
    cases h
    rw [List.length_cons, List.length_cons, ih hvs]

theorem materializeRow_length {rid : ℕ} {read : Row} (h : materializeRow p t disk rid = .ok read) :
    read.values.length = t.schema.length := by
  obtain ⟨values, hvalues, h⟩ := bind_eq_ok h
  cases h
  exact materializeFrom_length hvalues

/-! ## The join of two tables -/

/-- The rows as they are read, with the numbers that the join takes for their texts. -/
def entries (xs : List Text) (read : List Row) : List (ℕ × Row) :=
  ((List.range read.length).map fun rid => decode (chunkFound xs rid)).zip read

theorem entries_map_snd (xs : List Text) (read : List Row) : (entries xs read).map Prod.snd = read :=
  List.map_snd_zip (by simp)

theorem entries_getElem? {read : List Row} {rid : ℕ} {e : ℕ × Row} :
    (entries xs read)[rid]? = some e ↔ e.1 = decode (chunkFound xs rid) ∧ read[rid]? = some e.2 := by
  rw [entries, List.getElem?_zip_eq_some, List.getElem?_map]
  refine and_congr_left fun hread => ?_
  rw [List.getElem?_range (List.getElem?_eq_some_iff.mp hread).1, Option.map_some, Option.some.injEq, eq_comm]

section Tables

variable {c1 c2 : ℕ} {d1 d2 : ColumnDef} {col1 col2 : Text}

/-- All rows of a table, as they are read. -/
theorem rows_of_materializeRows {n : ℕ} {read : List Row}
    (hread : materializeRows p t disk (List.range n) = .ok read) :
    read.length = n ∧
      ∀ (rid : ℕ) row, read[rid]? = some row → rid < n ∧ materializeRow p t disk rid = .ok row := by
  have hrows := forall₂_of_materializeRows hread
  have hlength : read.length = n := by
    have := hrows.length_eq
    rw [List.length_range] at this
    exact this.symm
  refine ⟨hlength, fun rid row hrow => ?_⟩
  have hlt : rid < n := hlength ▸ (List.getElem?_eq_some_iff.mp hrow).1
  obtain ⟨row', hrow', hmat⟩ := exists_getElem?_of_forall₂ hrows (List.getElem?_range hlt)
  obtain rfl := Option.some.inj (hrow.symm.trans hrow')
  exact ⟨hlt, hmat⟩

theorem Holding.joinInput (h : Holding t disk rows) (hd : t.schema[c]? = some d) (htype : d.type = .varchar)
    {read : List Row} (hread : materializeRows p t disk (List.range rows.length) = .ok read) :
    JoinInput p t disk c (entries (texts rows c) read) := by
  obtain ⟨hlength, hrows⟩ := rows_of_materializeRows hread
  have htexts := h.exists_text hd htype
  obtain ⟨es, hholds⟩ := h.holds
  refine ⟨?_, ?_, ?_⟩
  · rw [totalRows_eq hholds.columns hd, columnItems_text htexts, List.length_map, texts_length htexts,
      ← List.length_map Prod.snd, entries_map_snd, hlength]
  · intro rid e he
    obtain ⟨hkey, hrow⟩ := entries_getElem?.mp he
    refine ⟨_, readAt_text hholds.columns hd htype htexts ?_, hkey.symm⟩
    rw [texts_length htexts]
    exact (hrows rid _ hrow).1
  · intro rid e he
    exact (hrows rid _ (entries_getElem?.mp he).2).2

/-- An entry belongs to a row. -/
structure IsEntry (t : Table) (rows : List Row) (c rid : ℕ) (e : ℕ × Row) : Prop where
  key_eq : e.1 = decode (chunkFound (texts rows c) rid)
  text_eq : text c e.2 = (texts rows c)[rid]?
  length_eq : e.2.values.length = t.schema.length

section Entries

variable (h : Holding t disk rows) (hd : t.schema[c]? = some d) (htype : d.type = .varchar) {read : List Row}
  (hread : materializeRows p t disk (List.range rows.length) = .ok read)

include h hd htype hread

theorem Holding.exists_rid {e : ℕ × Row} (he : e ∈ entries (texts rows c) read) :
    ∃ rid < rows.length, IsEntry t rows c rid e := by
  obtain ⟨rid, he⟩ := List.getElem?_of_mem he
  obtain ⟨hkey, hrow⟩ := entries_getElem?.mp he
  obtain ⟨hlt, hmat⟩ := (rows_of_materializeRows hread).2 rid _ hrow
  exact ⟨rid, hlt, hkey, h.text_eq hd htype hlt hmat, materializeRow_length hmat⟩

theorem Holding.exists_entry {rid : ℕ} (hrid : rid < rows.length) :
    ∃ e ∈ entries (texts rows c) read, IsEntry t rows c rid e := by
  obtain ⟨hlength, hrows⟩ := rows_of_materializeRows hread
  have hrow := List.getElem?_eq_getElem (hlength ▸ hrid : rid < read.length)
  have he : (entries (texts rows c) read)[rid]? = some (decode (chunkFound (texts rows c) rid), read[rid]) :=
    entries_getElem?.mpr ⟨rfl, hrow⟩
  obtain ⟨hlt, hmat⟩ := hrows rid _ hrow
  exact ⟨_, List.mem_of_getElem? he, rfl, h.text_eq hd htype hlt hmat, materializeRow_length hmat⟩

end Entries

/-- Whether the join and the double loop agree on two rows. -/
theorem IsEntry.agree_iff {i j : ℕ} {a b : ℕ × Row} (ha : IsEntry t1 rows1 c1 i a) (hb : IsEntry t2 rows2 c2 j b) :
    (b.1 = a.1 ↔ text c1 a.2 = text c2 b.2) ↔
      (chunkFound (texts rows1 c1) i = chunkFound (texts rows2 c2) j ↔
        (texts rows1 c1)[i]? = (texts rows2 c2)[j]?) := by
  have hlength : (chunkFound (texts rows2 c2) j).length = (chunkFound (texts rows1 c1) i).length :=
    (chunkAt_length ..).trans (chunkAt_length ..).symm
  rw [ha.key_eq, hb.key_eq, ha.text_eq, hb.text_eq, decode_inj hlength]
  exact iff_congr eq_comm Iff.rfl

/-- For two tables in any state in which they hold rows. -/
theorem join_eq_textLoop_iff (h1 : Holding t1 disk rows1) (h2 : Holding t2 disk rows2)
    (hcol1 : columnIndex t1.schema col1 = some c1) (hd1 : t1.schema[c1]? = some d1) (htype1 : d1.type = .varchar)
    (hcol2 : columnIndex t2.schema col2 = some c2) (hd2 : t2.schema[c2]? = some d2) (htype2 : d2.type = .varchar)
    {nested : List Row} (hloop : textLoop p t1 t2 disk c1 c2 = .ok nested) :
    HashJoin.join p t1 t2 disk col1 col2 = .ok nested ↔
      ∀ i < rows1.length, ∀ j < rows2.length, (chunkFound (texts rows1 c1) i = chunkFound (texts rows2 c2) j ↔
        (texts rows1 c1)[i]? = (texts rows2 c2)[j]?) := by
  obtain ⟨es1, hholds1⟩ := h1.holds
  obtain ⟨es2, hholds2⟩ := h2.holds
  rw [textLoop, totalRows_of_holdsRows hholds1, totalRows_of_holdsRows hholds2] at hloop
  obtain ⟨n1, hn1, hloop⟩ := bind_eq_ok hloop
  cases hn1
  obtain ⟨read1, hread1, hloop⟩ := bind_eq_ok hloop
  obtain ⟨n2, hn2, hloop⟩ := bind_eq_ok hloop
  cases hn2
  obtain ⟨read2, hread2, hloop⟩ := bind_eq_ok hloop
  cases hloop
  have hpairs := NestedLoop.pairs_map (r := fun row1 row2 => text c1 row1 = text c2 row2)
    (f := fun row1 row2 : Row => (⟨row1.values ++ row2.values⟩ : Row)) Prod.snd Prod.snd
    (entries (texts rows1 c1) read1) (entries (texts rows2 c2) read2)
  rw [entries_map_snd, entries_map_snd] at hpairs
  rw [(h1.joinInput hd1 htype1 hread1).join (h2.joinInput hd2 htype2 hread2) hcol1 hcol2, hpairs, Except.ok.injEq]
  -- the texts can be read off a joined row
  have hshow : ∀ a ∈ entries (texts rows1 c1) read1, ∀ b ∈ entries (texts rows2 c2) read2,
      ∀ a' ∈ entries (texts rows1 c1) read1, ∀ b' ∈ entries (texts rows2 c2) read2,
        joinPair a b = joinPair a' b' → text c1 a'.2 = text c2 b'.2 → text c1 a.2 = text c2 b.2 := by
    intro a ha b hb a' ha' b' hb' hsame htext
    obtain ⟨i, -, hentry⟩ := h1.exists_rid hd1 htype1 hread1 ha
    obtain ⟨i', -, hentry'⟩ := h1.exists_rid hd1 htype1 hread1 ha'
    obtain ⟨hleft, hright⟩ := List.append_inj (congrArg Row.values hsame)
      (hentry.length_eq.trans hentry'.length_eq.symm)
    rw [text, text, hleft, hright]
    exact htext
  refine (NestedLoop.pairs_eq_iff hshow).trans ⟨fun h i hi j hj => ?_, fun h a ha b hb => ?_⟩
  · obtain ⟨a, ha, hentry1⟩ := h1.exists_entry hd1 htype1 hread1 hi
    obtain ⟨b, hb, hentry2⟩ := h2.exists_entry hd2 htype2 hread2 hj
    exact (hentry1.agree_iff hentry2).mp (h a ha b hb)
  · obtain ⟨i, hi, hentry1⟩ := h1.exists_rid hd1 htype1 hread1 ha
    obtain ⟨j, hj, hentry2⟩ := h2.exists_rid hd2 htype2 hread2 hb
    exact (hentry1.agree_iff hentry2).mpr (h i hi j hj)

end Tables

/-! ## Filling two tables -/

/-- Two tables on one disk. -/
structure TwoTables where
  left : Table
  right : Table
  disk : Disk

/-- `insert_row` of one of the tables. -/
def twoStep (s : TwoTables) : Row ⊕ Row → Except Fault TwoTables
  | .inl row => do
    let st ← s.left.insertRow s.disk row
    return ⟨st.1, s.right, st.2⟩
  | .inr row => do
    let st ← s.right.insertRow s.disk row
    return ⟨s.left, st.1, st.2⟩

/-- Both tables hold their rows, in different files. -/
structure Both (s : TwoTables) (rows1 rows2 : List Row) : Prop where
  left : Holding s.left s.disk rows1
  right : Holding s.right s.disk rows2
  apart : ∀ u ∈ s.left.columns, ∀ w ∈ s.right.columns, u.filePath ≠ w.filePath

theorem Holding.congr_disk {disk' : Disk} (h : Holding t disk rows)
    (hdisk : ∀ column ∈ t.columns, disk'.columns column.filePath = disk.columns column.filePath) :
    Holding t disk' rows :=
  ⟨h.holds.imp fun _ hholds => Executor.HoldsRows.congr_disk hholds hdisk, h.full⟩

theorem Holding.insertRow (h : Holding t disk rows) {row : Row} (hrow : RowFull t.schema row)
    {st : Table × Disk} (hok : t.insertRow disk row = .ok st) :
    Holding st.1 st.2 (rows ++ [row]) ∧ Frame t disk st.1 st.2 := by
  obtain ⟨es, hholds⟩ := h.holds
  rcases hholds.insertRow (hrow.rowFits hholds.schema_ne) with herr | ⟨t', disk', hok', h', hframe⟩
  · rw [herr] at hok
    cases hok
  · obtain rfl := Except.ok.inj (hok.symm.trans hok')
    refine ⟨⟨⟨_, h'⟩, fun r hr => ?_⟩, hframe⟩
    rw [hframe.schema_eq]
    rcases List.mem_append.mp hr with hr | hr
    · exact h.full r hr
    · rwa [List.mem_singleton.mp hr]

/-- The paths of a table are those of its columns. -/
theorem mem_paths_of_frame {st : Table × Disk} (h : Frame t disk st.1 st.2) {u : ColumnStore}
    (hu : u ∈ st.1.columns) : ∃ w ∈ t.columns, w.filePath = u.filePath := by
  have hmem := List.mem_map_of_mem (f := ColumnStore.filePath) hu
  rw [h.paths_eq] at hmem
  exact List.mem_map.mp hmem

theorem Both.step {s s' : TwoTables} (h : Both s rows1 rows2) {op : Row ⊕ Row}
    (hleft : ∀ row ∈ op.getLeft?, RowFull s.left.schema row)
    (hright : ∀ row ∈ op.getRight?, RowFull s.right.schema row) (hok : twoStep s op = .ok s') :
    Both s' (rows1 ++ op.getLeft?.toList) (rows2 ++ op.getRight?.toList) ∧
      s'.left.schema = s.left.schema ∧ s'.right.schema = s.right.schema := by
  cases op with
  | inl row =>
    obtain ⟨st, hst, hok⟩ := bind_eq_ok hok
    cases hok
    obtain ⟨hheld, hframe⟩ := h.left.insertRow (hleft row rfl) hst
    refine ⟨⟨hheld, ?_, ?_⟩, hframe.schema_eq, rfl⟩
    · simp only [Sum.getRight?_inl, Option.toList_none, List.append_nil]
      refine h.right.congr_disk fun w hw => hframe.outside _ fun hmem => ?_
      obtain ⟨u, hu, hsame⟩ := List.mem_map.mp hmem
      exact h.apart u hu w hw hsame
    · intro u hu w hw
      obtain ⟨u', hu', hsame⟩ := mem_paths_of_frame hframe hu
      exact hsame ▸ h.apart u' hu' w hw
  | inr row =>
    obtain ⟨st, hst, hok⟩ := bind_eq_ok hok
    cases hok
    obtain ⟨hheld, hframe⟩ := h.right.insertRow (hright row rfl) hst
    refine ⟨⟨?_, hheld, ?_⟩, rfl, hframe.schema_eq⟩
    · simp only [Sum.getLeft?_inr, Option.toList_none, List.append_nil]
      refine h.left.congr_disk fun u hu => hframe.outside _ fun hmem => ?_
      obtain ⟨w, hw, hsame⟩ := List.mem_map.mp hmem
      exact h.apart u hu w hw hsame.symm
    · intro u hu w hw
      obtain ⟨w', hw', hsame⟩ := mem_paths_of_frame hframe hw
      exact hsame ▸ h.apart u hu w' hw'

theorem Both.run {s s' : TwoTables} (h : Both s rows1 rows2) {ops : List (Row ⊕ Row)}
    (hleft : ∀ row ∈ ops.filterMap Sum.getLeft?, RowFull s.left.schema row)
    (hright : ∀ row ∈ ops.filterMap Sum.getRight?, RowFull s.right.schema row)
    (hrun : Runs.run twoStep s ops = .ok s') :
    Both s' (rows1 ++ ops.filterMap Sum.getLeft?) (rows2 ++ ops.filterMap Sum.getRight?) ∧
      s'.left.schema = s.left.schema ∧ s'.right.schema = s.right.schema := by
  induction ops generalizing s rows1 rows2 with
  | nil =>
    cases hrun
    exact ⟨by simpa using h, rfl, rfl⟩
  | cons op ops ih =>
    obtain ⟨s₁, hop, hrest⟩ := run_cons_eq_ok hrun
    have hcons : ∀ {α : Type} (f : Row ⊕ Row → Option α), (op :: ops).filterMap f = (f op).toList ++ ops.filterMap f := by
      intro α f
      cases hf : f op <;> simp [hf]
    simp only [hcons, List.mem_append, Option.mem_toList] at hleft hright
    obtain ⟨h₁, hschema1, hschema2⟩ := h.step (fun row hrow => hleft row (Or.inl hrow))
      (fun row hrow => hright row (Or.inl hrow)) hop
    obtain ⟨h', hschema1', hschema2'⟩ := ih h₁ (fun row hrow => hschema1 ▸ hleft row (Or.inr hrow))
      (fun row hrow => hschema2 ▸ hright row (Or.inr hrow)) hrest
    rw [List.append_assoc, List.append_assoc, ← hcons, ← hcons] at h'
    exact ⟨h', hschema1'.trans hschema1, hschema2'.trans hschema2⟩

/-- A new table with files of its own for its columns. -/
theorem holding_of_init {dataDir name : Text} {schema : Schema} {disk₀ : Disk}
    (hinit : Table.init dataDir name schema disk₀ = .ok t)
    (hfiles : (schema.map fun d => columnPath dataDir name d.name).Nodup) :
    Holding t disk₀ [] ∧ t.schema = schema ∧
      t.columns.map ColumnStore.filePath = schema.map fun d => columnPath dataDir name d.name := by
  have hnodup : (schema.map ColumnDef.name).Nodup := by
    refine List.Nodup.of_map (columnPath dataDir name) ?_
    rwa [List.map_map]
  obtain ⟨t', hinit', hholds, -, hschema, hpaths⟩ := init_holdsRows dataDir name disk₀ (schema_ne_of_init hinit) hnodup
  obtain rfl := Except.ok.inj (hinit.symm.trans hinit')
  exact ⟨⟨⟨_, hholds⟩, by simp⟩, hschema, by rw [hpaths, List.map_map]; rfl⟩

/-- Two new tables, each with files of its own, take rows in any order, with a value of its type for
every column. The hash join of two columns of texts is the double loop exactly when for any two rows
the eight bytes that are found agree if and only if the texts do. -/
theorem textJoin_iff (p : Platform) (dataDir name1 name2 : Text) (schema1 schema2 : Schema) (disk₀ : Disk)
    (t1 t2 : Table) (hinit1 : Table.init dataDir name1 schema1 disk₀ = .ok t1)
    (hinit2 : Table.init dataDir name2 schema2 disk₀ = .ok t2)
    (hfiles : ((schema1.map fun d => columnPath dataDir name1 d.name) ++
      schema2.map fun d => columnPath dataDir name2 d.name).Nodup)
    (ops : List (Row ⊕ Row)) (hfull1 : ∀ row ∈ ops.filterMap Sum.getLeft?, RowFull schema1 row)
    (hfull2 : ∀ row ∈ ops.filterMap Sum.getRight?, RowFull schema2 row) (s : TwoTables)
    (hrun : run twoStep ⟨t1, t2, disk₀⟩ ops = .ok s) (col1 col2 : Text) (c1 c2 : ℕ) (d1 d2 : ColumnDef)
    (hcol1 : columnIndex schema1 col1 = some c1) (hd1 : schema1[c1]? = some d1) (htype1 : d1.type = .varchar)
    (hcol2 : columnIndex schema2 col2 = some c2) (hd2 : schema2[c2]? = some d2) (htype2 : d2.type = .varchar)
    (nested : List Row) (hloop : textLoop p s.left s.right s.disk c1 c2 = .ok nested) :
    HashJoin.join p s.left s.right s.disk col1 col2 = .ok nested ↔
      ∀ i < (ops.filterMap Sum.getLeft?).length, ∀ j < (ops.filterMap Sum.getRight?).length,
        (chunkFound (texts (ops.filterMap Sum.getLeft?) c1) i = chunkFound (texts (ops.filterMap Sum.getRight?) c2) j ↔
          (texts (ops.filterMap Sum.getLeft?) c1)[i]? = (texts (ops.filterMap Sum.getRight?) c2)[j]?) := by
  obtain ⟨hnodup1, hnodup2, hapart⟩ := List.nodup_append.mp hfiles
  obtain ⟨hnew1, hschema1, hpaths1⟩ := holding_of_init hinit1 hnodup1
  obtain ⟨hnew2, hschema2, hpaths2⟩ := holding_of_init hinit2 hnodup2
  have hboth : Both ⟨t1, t2, disk₀⟩ [] [] := by
    refine ⟨hnew1, hnew2, fun u hu w hw => ?_⟩
    have hu' := List.mem_map_of_mem (f := ColumnStore.filePath) hu
    have hw' := List.mem_map_of_mem (f := ColumnStore.filePath) hw
    rw [hpaths1] at hu'
    rw [hpaths2] at hw'
    exact hapart _ hu' _ hw'
  obtain ⟨h, hleft, hright⟩ := hboth.run (hschema1 ▸ hfull1) (hschema2 ▸ hfull2) hrun
  dsimp only at hleft hright
  rw [hschema1] at hleft
  rw [hschema2] at hright
  exact join_eq_textLoop_iff h.left h.right (hleft ▸ hcol1) (hleft ▸ hd1) htype1 (hright ▸ hcol2) (hright ▸ hd2)
    htype2 hloop

/-! ## Examples -/

/-- `(N VARCHAR)`. -/
def oneText : Schema := [⟨str "N", .varchar⟩]

def textRow (s : Text) : Row := ⟨[⟨.varchar, 0, s⟩]⟩

/-- The first row of each table. -/
def firstRows : List (Row ⊕ Row) := [.inl (textRow (str "A")), .inr (textRow (str "A"))]

/-- The text of the left table is the second one of the right table. -/
def secondRow : List (Row ⊕ Row) :=
  [.inl (textRow (str "A")), .inr (textRow (str "B")), .inr (textRow (str "A"))]

/-- What comes of two tables after some insertions, with the join and the double loop. -/
def joinBoth (ops : List (Row ⊕ Row)) : Except Fault (List Row × List Row) := do
  let t1 ← Table.init (str "data") (str "T") oneText .blank
  let t2 ← Table.init (str "data") (str "U") oneText .blank
  let s ← run twoStep ⟨t1, t2, .blank⟩ ops
  let joined ← HashJoin.join .reference s.left s.right s.disk (str "N") (str "N")
  let nested ← textLoop .reference s.left s.right s.disk 0 0
  return (joined, nested)

theorem exists_of_joinBoth {ops : List (Row ⊕ Row)} {joined nested : List Row}
    (h : joinBoth ops = .ok (joined, nested)) :
    ∃ t1 t2 s, Table.init (str "data") (str "T") oneText .blank = .ok t1 ∧
      Table.init (str "data") (str "U") oneText .blank = .ok t2 ∧ run twoStep ⟨t1, t2, .blank⟩ ops = .ok s ∧
      HashJoin.join .reference s.left s.right s.disk (str "N") (str "N") = .ok joined ∧
      textLoop .reference s.left s.right s.disk 0 0 = .ok nested := by
  obtain ⟨t1, ht1, h⟩ := bind_eq_ok h
  obtain ⟨t2, ht2, h⟩ := bind_eq_ok h
  obtain ⟨s, hs, h⟩ := bind_eq_ok h
  obtain ⟨joined', hjoin, h⟩ := bind_eq_ok h
  obtain ⟨nested', hloop, h⟩ := bind_eq_ok h
  obtain ⟨rfl, rfl⟩ := Prod.mk.inj (Except.ok.inj h)
  exact ⟨t1, t2, s, ht1, ht2, hs, hjoin, hloop⟩

/-- The first rows find each other. -/
theorem textJoin_first :
    ∃ t1 t2 s nested, Table.init (str "data") (str "T") oneText .blank = .ok t1 ∧
      Table.init (str "data") (str "U") oneText .blank = .ok t2 ∧ run twoStep ⟨t1, t2, .blank⟩ firstRows = .ok s ∧
      textLoop .reference s.left s.right s.disk 0 0 = .ok nested ∧
      HashJoin.join .reference s.left s.right s.disk (str "N") (str "N") = .ok nested := by
  obtain ⟨⟨joined, nested⟩, hboth⟩ := exists_of_isOk (x := joinBoth firstRows) (by decide +kernel)
  obtain ⟨t1, t2, s, ht1, ht2, hs, -, hloop⟩ := exists_of_joinBoth hboth
  refine ⟨t1, t2, s, nested, ht1, ht2, hs, hloop, ?_⟩
  refine (textJoin_iff .reference (str "data") (str "T") (str "U") oneText oneText .blank t1 t2 ht1 ht2 (by decide)
    firstRows ?_ ?_ s hs (str "N") (str "N") 0 0 ⟨str "N", .varchar⟩ ⟨str "N", .varchar⟩ (by decide) rfl rfl
    (by decide) rfl rfl nested hloop).mpr ?_
  · intro row hrow
    rw [List.mem_singleton.mp hrow]
    rfl
  · intro row hrow
    rw [List.mem_singleton.mp hrow]
    rfl
  · decide

/-- The double loop finds the second row of the right table, and the join does not. -/
theorem not_textJoin_second :
    ∃ t1 t2 s, Table.init (str "data") (str "T") oneText .blank = .ok t1 ∧
      Table.init (str "data") (str "U") oneText .blank = .ok t2 ∧ run twoStep ⟨t1, t2, .blank⟩ secondRow = .ok s ∧
      textLoop .reference s.left s.right s.disk 0 0 =
        .ok [⟨[⟨.varchar, 0, str "A"⟩, ⟨.varchar, 0, str "A"⟩]⟩] ∧
      HashJoin.join .reference s.left s.right s.disk (str "N") (str "N") = .ok [] := by
  have hboth : joinBoth secondRow = .ok ([], [⟨[⟨.varchar, 0, str "A"⟩, ⟨.varchar, 0, str "A"⟩]⟩]) := by
    decide +kernel
  obtain ⟨t1, t2, s, ht1, ht2, hs, hjoin, hloop⟩ := exists_of_joinBoth hboth
  exact ⟨t1, t2, s, ht1, ht2, hs, hloop, hjoin⟩

end FlexQL.Executor
