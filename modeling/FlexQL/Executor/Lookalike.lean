import FlexQL.Executor.Executor
import FlexQL.Storage.TableAlike

/-!
# Queries on tables that look alike

A query reads a table through `read_at` and `get_total_rows` only. So tables that look alike, on
files that agree on the pages in use, answer every query in the same way.
-/

namespace FlexQL.Executor

open ByteMemory Text Table

/-- The slots of the rows up to `rid` lie on the pages in use, for the sizes with which the columns
are read. -/
def ReadsWithin (t : Table) (disk : Disk) (rid : ℕ) : Prop :=
  ∀ (j : ℕ) d column, t.schema[j]? = some d → t.columns[j]? = some column →
    ColumnReader.WithinPages (disk.columns column.filePath) column.numPages d.type.readSize rid

/-- Two tables that look alike, on files that agree. -/
structure TablesAgree (t t' : Table) (disk disk' : Disk) : Prop where
  alike : ColumnsAlike t t'
  agree : FilesAgree t 0 disk disk'
  length_eq : t.columns.length = t.schema.length

variable {p : Platform} {t t' : Table} {disk disk' : Disk} {c rid size : ℕ} {d : ColumnDef}

theorem readSize_ge (type : ColumnType) : 8 ≤ type.readSize := by
  cases type <;> decide

theorem TablesAgree.exists_columns (h : TablesAgree t t' disk disk') (hd : t.schema[c]? = some d) :
    ∃ column column', t.getColumn c = some column ∧ t'.getColumn c = some column' ∧
      column.Alike column' ∧
      AgreeTo column.numPages (disk.columns column.filePath) (disk'.columns column.filePath) := by
  have hc := (List.getElem?_eq_some_iff.mp hd).1
  rw [← h.length_eq] at hc
  have hcolumn := List.getElem?_eq_getElem hc
  obtain ⟨column', hcolumn', halike⟩ := h.alike.exists_column hcolumn
  exact ⟨_, column', hcolumn, hcolumn', halike, h.agree c _ (Nat.zero_le c) hcolumn⟩

theorem TablesAgree.readAt_eq (h : TablesAgree t t' disk disk') (hd : t.schema[c]? = some d)
    (hwithin : ReadsWithin t disk rid) (hpos : 0 < size) (hsize : size ≤ d.type.readSize) :
    t.readAt disk c rid size = t'.readAt disk' c rid size := by
  obtain ⟨column, column', hcolumn, hcolumn', halike, hagree⟩ := h.exists_columns hd
  have hwithin' : ColumnReader.WithinPages (disk.columns column.filePath) column.cache.numPages size
      rid := by
    intro q hq
    refine le_trans (Nat.mul_le_mul_left _ ?_) (hwithin c d column hd hcolumn q hq)
    rw [ColumnReader.slotSize_eq hpos, ColumnReader.slotSize_eq (by omega)]
    exact hsize
  obtain ⟨out, m, m', hout, hout'⟩ := ColumnReader.readAt_alike hpos halike.numPages_eq
    halike.inUse.fits hagree hwithin'
  rw [← halike.filePath_eq] at hout'
  simp only [Table.readAt, hcolumn, hcolumn', hout, hout', Bind.bind, Except.bind]

theorem TablesAgree.totalRows_eq (h : TablesAgree t t' disk disk') (hd : t.schema[c]? = some d) :
    t.totalRows c = t'.totalRows c := by
  obtain ⟨column, column', hcolumn, hcolumn', halike, -⟩ := h.exists_columns hd
  simp only [Table.totalRows, hcolumn, hcolumn', ColumnStore.getTotalRows, halike.totalRows_eq]

theorem TablesAgree.materializeValue_eq (h : TablesAgree t t' disk disk')
    (hwithin : ReadsWithin t disk rid) (hd : t.schema[c]? = some d) :
    materializeValue p t disk rid d.type c = materializeValue p t' disk' rid d.type c := by
  have hread := h.readAt_eq hd hwithin (by have := readSize_ge d.type; omega) le_rfl
  simp only [materializeValue, hread]

theorem TablesAgree.materializeFrom_eq (h : TablesAgree t t' disk disk')
    (hwithin : ReadsWithin t disk rid) {schema : Schema}
    (hschema : ∀ (j : ℕ) d, schema[j]? = some d → t.schema[c + j]? = some d) :
    materializeFrom p t disk rid schema c = materializeFrom p t' disk' rid schema c := by
  induction schema generalizing c with
  | nil => rfl
  | cons d schema ih =>
    have hrest : ∀ (j : ℕ) d', schema[j]? = some d' → t.schema[c + 1 + j]? = some d' := by
      intro j d' hd'
      rw [Nat.add_right_comm, Nat.add_assoc]
      exact hschema (j + 1) d' hd'
    have hvalue : materializeValue p t disk rid d.type c = materializeValue p t' disk' rid d.type c :=
      h.materializeValue_eq hwithin (hschema 0 d rfl)
    simp only [materializeFrom, hvalue, ih hrest]

/-- `materialize_row` reads the same values. -/
theorem TablesAgree.materializeRow_eq (h : TablesAgree t t' disk disk')
    (hwithin : ReadsWithin t disk rid) :
    materializeRow p t disk rid = materializeRow p t' disk' rid := by
  simp only [materializeRow, h.alike.schema_eq]
  rw [h.materializeFrom_eq hwithin fun j d hd => by rwa [Nat.zero_add]]

theorem TablesAgree.materializeRows_eq (h : TablesAgree t t' disk disk')
    (hwithin : ∀ rid, ReadsWithin t disk rid) (rids : List ℕ) :
    materializeRows p t disk rids = materializeRows p t' disk' rids := by
  induction rids with
  | nil => rfl
  | cons rid rids ih => simp only [materializeRows, h.materializeRow_eq (hwithin rid), ih]

/-! ## Filtering and emitting -/

/-- Nothing is compared in a short list. -/
theorem orderRows_short {s : SelectStmt} {t2 : Option Table} {rows : List Row}
    (h : rows.length ≤ 1) :
    orderRows p t t2 s rows = rows := by
  unfold orderRows
  split
  · split
    · rfl
    · exact p.sort_short _ _ h
  · rfl

section Columns

variable {t2 t2' : Option Table}

/-- The schemas of a table and of the one that is joined to it are all that is used behind the
reads. -/
theorem resultIndex_congr (t2 t2' : Option Table) (h : t'.schema = t.schema)
    (h2 : t2'.map Table.schema = t2.map Table.schema) (name : Text) :
    resultIndex t t2 name = resultIndex t' t2' name := by
  simp only [resultIndex, h]
  cases t2 with
  | none =>
    obtain rfl : t2' = none := by simpa using h2
    rfl
  | some u =>
    obtain ⟨u', rfl, hu⟩ : ∃ u', t2' = some u' ∧ u'.schema = u.schema := by simpa using h2
    simp only [hu]

variable (h : ∀ name, resultIndex t t2 name = resultIndex t' t2' name)

include h

theorem matchesAll_congr (row : Row) (filters : List WhereClause) :
    matchesAll t t2 row filters = matchesAll t' t2' row filters := by
  induction filters with
  | nil => rfl
  | cons w filters ih => simp only [matchesAll, h, ih]

theorem filterRows_congr (filters : List WhereClause) (rows : List Row) :
    filterRows t t2 filters rows = filterRows t' t2' filters rows := by
  induction rows with
  | nil => rfl
  | cons row rows ih => simp only [filterRows, matchesAll_congr h, ih]

theorem emit_congr (s : SelectStmt) (rows : List Row) : emit p t t2 s rows = emit p t' t2' s rows := by
  have hproject : project t t2 s.columns = project t' t2' s.columns := by
    funext row
    simp only [project, cell, h]
  simp only [emit, orderRows, h, hproject]

end Columns

/-! ## Joins -/

theorem columnIndex_getElem? {schema : Schema} {name : Text} (h : columnIndex schema name = some c) :
    ∃ d, schema[c]? = some d := by
  obtain ⟨hc, -⟩ := List.findIdx?_eq_some_iff_getElem.mp h
  exact ⟨_, List.getElem?_eq_getElem hc⟩

theorem TablesAgree.readKeys_eq (h : TablesAgree t t' disk disk')
    (hwithin : ∀ rid, ReadsWithin t disk rid) (hd : t.schema[c]? = some d) (rids : List ℕ) :
    HashJoin.readKeys t disk c rids = HashJoin.readKeys t' disk' c rids := by
  induction rids with
  | nil => rfl
  | cons rid rids ih =>
    have hread := h.readAt_eq hd (hwithin rid) (show 0 < 8 by decide) (readSize_ge d.type)
    simp only [HashJoin.readKeys, hread, ih]

variable {u u' : Table}

theorem TablesAgree.joinRow_eq (h : TablesAgree t t' disk disk') (h2 : TablesAgree u u' disk disk')
    (hwithin : ∀ rid, ReadsWithin t disk rid) (hwithin2 : ∀ rid, ReadsWithin u disk rid)
    (hashTable : List (ℕ × ℕ)) (val rid : ℕ) :
    HashJoin.joinRow p t u disk hashTable val rid = HashJoin.joinRow p t' u' disk' hashTable val rid := by
  unfold HashJoin.joinRow
  split
  · rfl
  · simp only [h.materializeRow_eq (p := p) (hwithin rid), h2.materializeRows_eq (p := p) hwithin2]

theorem TablesAgree.probe_eq (h : TablesAgree t t' disk disk') (h2 : TablesAgree u u' disk disk')
    (hwithin : ∀ rid, ReadsWithin t disk rid) (hwithin2 : ∀ rid, ReadsWithin u disk rid)
    (hd : t.schema[c]? = some d) (hashTable : List (ℕ × ℕ)) (rids : List ℕ) :
    HashJoin.probe p t u disk c hashTable rids = HashJoin.probe p t' u' disk' c hashTable rids := by
  induction rids with
  | nil => rfl
  | cons rid rids ih =>
    have hread := h.readAt_eq hd (hwithin rid) (show 0 < 8 by decide) (readSize_ge d.type)
    simp only [HashJoin.probe, hread, h.joinRow_eq (p := p) h2 hwithin hwithin2, ih]

theorem TablesAgree.join_eq (h : TablesAgree t t' disk disk') (h2 : TablesAgree u u' disk disk')
    (hwithin : ∀ rid, ReadsWithin t disk rid) (hwithin2 : ∀ rid, ReadsWithin u disk rid)
    (col1 col2 : Text) :
    HashJoin.join p t u disk col1 col2 = HashJoin.join p t' u' disk' col1 col2 := by
  simp only [HashJoin.join, h.alike.schema_eq, h2.alike.schema_eq]
  cases hc1 : columnIndex t.schema col1 with
  | none => rfl
  | some c1 =>
    cases hc2 : columnIndex u.schema col2 with
    | none => rfl
    | some c2 =>
      obtain ⟨d1, hd1⟩ := columnIndex_getElem? hc1
      obtain ⟨d2, hd2⟩ := columnIndex_getElem? hc2
      simp only [h.totalRows_eq hd1, h2.totalRows_eq hd2, h2.readKeys_eq hwithin2 hd2,
        h.probe_eq (p := p) h2 hwithin hwithin2 hd1]

/-! ## Queries -/

theorem TablesAgree.scan_eq (h : TablesAgree t t' disk disk')
    (hwithin : ∀ rid, ReadsWithin t disk rid) (hne : t.schema ≠ []) (s : SelectStmt) :
    scan p t disk s = scan p t' disk' s := by
  have hd : t.schema[0]? = some (t.schema.head hne) := by
    rw [← List.head?_eq_getElem?, List.head?_eq_some_head hne]
  have hindex := resultIndex_congr none none h.alike.schema_eq rfl
  simp only [scan, h.totalRows_eq hd, h.materializeRows_eq (p := p) hwithin, filterRows_congr hindex,
    emit_congr (p := p) hindex]

theorem TablesAgree.indexLookup_eq (h : TablesAgree t t' disk disk')
    (hindex : t'.indexManager = t.indexManager) (hwithin : ∀ rid, ReadsWithin t disk rid)
    (s : SelectStmt) : indexLookup p t disk s = indexLookup p t' disk' s := by
  simp only [indexLookup, hindex, h.materializeRow_eq (p := p) (hwithin _)]

end FlexQL.Executor
