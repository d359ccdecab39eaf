import FlexQL.Executor.Lookalike
import FlexQL.Executor.Materialize

/-!
# Point queries

A query for one value of `ID` tries the index first and falls back to a scan. For tables whose
columns have names of their own both give the rows that were inserted with that value. Columns
with one name share a file, and then a row is not read as it was inserted.
-/

namespace FlexQL.Executor

open ByteMemory Text Table Runs

variable {p : Platform} {t : Table} {disk : Disk} {s : SelectStmt} {rows : List Row}

/-- A row as it is read from a table that stored it. -/
def storedRow (p : Platform) (row : Row) : Row := ⟨row.values.map (Value.stored p)⟩

/-- The table was created with the given schema and filled with the given rows. -/
def Filled (dataDir name : Text) (schema : Schema) (disk₀ : Disk) (rows : List Row) (t : Table)
    (disk : Disk) : Prop :=
  ∃ t₀, Table.init dataDir name schema disk₀ = .ok t₀ ∧
    run insertStep (t₀, disk₀) rows = .ok (t, disk)

/-- The statement selects known columns with the single clause `ID = w`. -/
structure AsksFor (t : Table) (s : SelectStmt) (w : Text) : Prop where
  hasJoin_eq : s.hasJoin = false
  filters_eq : s.filters = [⟨idName, str "=", w⟩]
  known : unknownColumn t s.columns = none

/-- Every query for one value of `ID`, in every table with the schema, emits what the scan emits,
which is the rows inserted with that value. -/
def LookupCorrect (p : Platform) (dataDir name : Text) (disk₀ : Disk) (schema : Schema) : Prop :=
  ∀ rows, (∀ row ∈ rows, RowFull schema row) → (rows.map rowKey).Nodup →
    ∀ t disk, Filled dataDir name schema disk₀ rows t disk →
      ∀ (e : Executor) s w v, e.tables (upper s.tableName) = some t → e.disk = disk →
        AsksFor t s w → stoll w = .ok v →
          execSelect p e s = scan p t disk s ∧
          execSelect p e s = .ok ⟨.returned 0 none, (rows.filter fun row => rowKey row = v.toNat).map
            fun row => project t none s.columns (storedRow p row)⟩

/-! ## Distinct columns -/

/-- A run of insertions appends its rows. -/
theorem run_holdsRows_of {past : List Row} {es : List (ℕ × ℕ)} (h : HoldsRows t disk past es) {t' : Table}
    {disk' : Disk} (hrows : ∀ row ∈ rows, RowFits t.schema row)
    (hrun : run insertStep (t, disk) rows = .ok (t', disk')) :
    HoldsRows t' disk' (past ++ rows) (es ++ (rows.zipIdx past.length).map fun r => (rowKey r.1, r.2)) ∧
      Frame t disk t' disk' := by
  induction rows generalizing t disk past es with
  | nil =>
    cases hrun
    simp only [List.append_nil, List.zipIdx_nil, List.map_nil]
    exact ⟨h, Frame.refl _ _⟩
  | cons row rows ih =>
    rcases h.insertRow (hrows row List.mem_cons_self) with herr | ⟨t₁, disk₁, hok, h', hframe⟩
    · simp [run, insertStep, herr] at hrun
    · rw [run_cons_of_ok (t := (t₁, disk₁)) _ hok] at hrun
      have hrows' : ∀ r ∈ rows, RowFits t₁.schema r := fun r hr =>
        hframe.schema_eq ▸ hrows r (List.mem_cons_of_mem _ hr)
      obtain ⟨hfinal, hframe'⟩ := ih h' hrows' hrun
      refine ⟨?_, hframe.trans hframe'⟩
      simpa [List.zipIdx_cons] using hfinal

theorem run_holdsRows {past : List Row} (h : HoldsRows t disk past (keyEntries past)) {t' : Table}
    {disk' : Disk}
    (hrows : ∀ row ∈ rows, RowFits t.schema row)
    (hrun : run insertStep (t, disk) rows = .ok (t', disk')) :
    HoldsRows t' disk' (past ++ rows) (keyEntries (past ++ rows)) ∧ t'.schema = t.schema := by
  obtain ⟨hfinal, hframe⟩ := run_holdsRows_of h hrows hrun
  refine ⟨?_, hframe.schema_eq⟩
  simpa [keyEntries, List.zipIdx_append] using hfinal

/-- At most one row has a given key. -/
theorem filter_key {rid : ℕ} {row : Row} (hnodup : (rows.map rowKey).Nodup)
    (hrow : rows[rid]? = some row) :
    (rows.filter fun r => rowKey r = rowKey row) = [row] := by
  induction rows generalizing rid with
  | nil => simp at hrow
  | cons r rows ih =>
    rw [List.map_cons, List.nodup_cons] at hnodup
    cases rid with
    | zero =>
      obtain rfl : r = row := by simpa using hrow
      rw [List.filter_cons_of_pos (by simp), List.filter_eq_nil_iff.mpr]
      intro r' hr'
      have : rowKey r' ≠ rowKey r := fun heq => hnodup.1 (heq ▸ List.mem_map_of_mem hr')
      simpa using this
    | succ rid =>
      rw [List.getElem?_cons_succ] at hrow
      have hne : rowKey r ≠ rowKey row := fun heq =>
        hnodup.1 (heq ▸ List.mem_map_of_mem (List.mem_of_getElem? hrow))
      rw [List.filter_cons_of_neg (by simpa using hne)]
      exact ih hnodup.2 hrow

theorem filter_key_length (hnodup : (rows.map rowKey).Nodup) (k : ℕ) :
    (rows.filter fun r => rowKey r = k).length ≤ 1 := by
  rcases List.eq_nil_or_concat (rows.filter fun r => rowKey r = k) with hnil | ⟨l, row, hconcat⟩
  · simp [hnil]
  · have hmem : row ∈ rows.filter fun r => rowKey r = k := by rw [hconcat]; simp
    obtain ⟨hrow, hkey⟩ := List.mem_filter.mp hmem
    obtain ⟨rid, hrid⟩ := List.getElem?_of_mem hrow
    have hfilter := filter_key hnodup hrid
    rw [of_decide_eq_true hkey] at hfilter
    simp [hfilter]

theorem columnIndex_head {d : ColumnDef} {schema : Schema} (hname : d.name = idName) :
    columnIndex (d :: schema) idName = some 0 := by
  simp [columnIndex, List.findIdx?_cons, hname]

theorem rowFull_storedRow {schema : Schema} {row : Row} (h : RowFull schema row) :
    RowFull schema (storedRow p row) := by
  rw [RowFull, ← h, storedRow, List.map_map]
  refine List.map_congr_left fun v _ => ?_
  cases hv : v.type <;> simp [Value.stored, hv]

theorem rowKey_storedRow {schema : Schema} {row : Row}
    (h : RowFull (⟨idName, .decimal⟩ :: schema) row) : rowKey (storedRow p row) = rowKey row := by
  obtain ⟨x, values, hvalues, htype⟩ := h.exists_head
  simp [rowKey, storedRow, hvalues, Value.stored, htype]

/-- The clause `ID = w` passes for the rows with that key. -/
theorem matchesAll_key {schema : Schema} {row : Row} {w : Text} {v : BitVec 64}
    (hschema : t.schema = ⟨idName, .decimal⟩ :: schema) (hrow : RowFull t.schema row)
    (hw : stoll w = .ok v) :
    matchesAll t none row [⟨idName, str "=", w⟩] = .ok (.ok (decide (rowKey row = v.toNat))) := by
  rw [hschema] at hrow
  obtain ⟨x, values, hvalues, htype⟩ := hrow.exists_head
  have hindex : resultIndex t none idName = some 0 := by
    rw [resultIndex, hschema, columnIndex_head rfl]
  have hvalue : row.values[0]? = some x := by rw [hvalues]; rfl
  have hkey : rowKey row = x.bits.toNat := by rw [rowKey, hvalues]
  have hpasses : passes ⟨idName, str "=", w⟩ x = .ok (decide (rowKey row = v.toNat)) := by
    simp [passes, htype, hw, hkey, BitVec.toNat_inj, Bind.bind, Except.bind, Pure.pure, Except.pure]
  simp only [matchesAll, hindex, hvalue, hpasses]
  cases decide (rowKey row = v.toNat) <;> rfl

/-- The number of rows is read from the first column. -/
theorem totalRows_of_holdsRows {es : List (ℕ × ℕ)} (h : HoldsRows t disk rows es) :
    t.totalRows 0 = .ok rows.length := by
  obtain ⟨d, schema, hschema⟩ := List.exists_cons_of_ne_nil h.schema_ne
  rw [totalRows_eq h.columns (by rw [hschema]; rfl),
    columnItems_length fun r hr => List.length_pos_iff.mpr (h.fits r hr).nonempty]

section Lookup

variable {schema : Schema} {w : Text} {v : BitVec 64}

/-- What a query for one key should emit. -/
theorem emit_key (hnodup : (rows.map rowKey).Nodup) (k : ℕ) :
    emit p t none s ((rows.filter fun row => rowKey row = k).map (storedRow p)) =
      ⟨.returned 0 none, (rows.filter fun row => rowKey row = k).map fun row =>
        project t none s.columns (storedRow p row)⟩ := by
  have hlen := filter_key_length hnodup k
  rw [emit, orderRows_short (by simpa using hlen), List.map_map]
  rfl

theorem scan_key {es : List (ℕ × ℕ)} (h : HoldsRows t disk rows es)
    (hschema : t.schema = ⟨idName, .decimal⟩ :: schema)
    (hread : ∀ d ∈ t.schema, d.type.Readable) (hfull : ∀ row ∈ rows, RowFull t.schema row)
    (hfilters : s.filters = [⟨idName, str "=", w⟩]) (hw : stoll w = .ok v) :
    scan p t disk s =
      .ok (emit p t none s ((rows.filter fun row => rowKey row = v.toNat).map (storedRow p))) := by
  have htotal := totalRows_of_holdsRows h
  have hrows : materializeRows p t disk (List.range rows.length) = .ok (rows.map (storedRow p)) :=
    materializeRows_eq h hread hfull
  have hfilter : filterRows t none s.filters (rows.map (storedRow p)) =
      .ok (.ok ((rows.filter fun row => rowKey row = v.toNat).map (storedRow p))) := by
    rw [hfilters]
    clear htotal hrows h
    induction rows with
    | nil => rfl
    | cons row rows ih =>
      have hrest := ih fun r hr => hfull r (List.mem_cons_of_mem _ hr)
      have hstored : RowFull t.schema (storedRow p row) :=
        rowFull_storedRow (hfull row List.mem_cons_self)
      have hrow := matchesAll_key hschema hstored hw
      rw [rowKey_storedRow (hschema ▸ hfull row List.mem_cons_self)] at hrow
      simp only [List.map_cons, filterRows, hrow, hrest, Bind.bind, Except.bind, Pure.pure,
        Except.pure]
      by_cases hk : rowKey row = v.toNat <;> simp [hk]
  simp only [scan, htotal, hrows, hfilter, Bind.bind, Except.bind, Pure.pure, Except.pure]

theorem mem_keyEntries {k rid : ℕ} (h : (k, rid) ∈ keyEntries rows) :
    ∃ row, rows[rid]? = some row ∧ rowKey row = k := by
  obtain ⟨⟨row, i⟩, hmem, heq⟩ := List.mem_map.mp h
  cases heq
  exact ⟨row, List.mem_zipIdx_iff_getElem?.mp hmem, rfl⟩

/-- The index leads to the row with the key, or nowhere. -/
theorem indexLookup_key (h : HoldsRows t disk rows (keyEntries rows))
    (hschema : t.schema = ⟨idName, .decimal⟩ :: schema)
    (hread : ∀ d ∈ t.schema, d.type.Readable) (hfull : ∀ row ∈ rows, RowFull t.schema row)
    (hasks : AsksFor t s w) (hw : stoll w = .ok v) :
    indexLookup p t disk s = .ok none ∨ ∃ row, ∃ rid : ℕ, rows[rid]? = some row ∧
      rowKey row = v.toNat ∧ indexLookup p t disk s = .ok (some (storedRow p row)) := by
  obtain ⟨tree, htree, hholds⟩ := h.index ⟨_, by rw [hschema]; rfl, rfl⟩
  obtain ⟨r, tree', hsearch, -, hsound⟩ := hholds.search_sound v.toNat
  have hid : asksForId s = some w := by simp [asksForId, hasks.hasJoin_eq, hasks.filters_eq]
  cases r with
  | none =>
    left
    simp only [indexLookup, hid, hw, htree, hsearch, Bind.bind, Except.bind, Pure.pure, Except.pure]
  | some rid =>
    right
    obtain ⟨row, hrow, hkey⟩ := mem_keyEntries (hsound rid rfl)
    have hmat := materializeRow_eq (p := p) h hread hfull hrow
    refine ⟨row, rid, hrow, hkey, ?_⟩
    simp only [indexLookup, hid, hw, htree, hsearch, hmat, Bind.bind, Except.bind, Pure.pure,
      Except.pure]
    rfl

theorem execSelect_key (h : HoldsRows t disk rows (keyEntries rows))
    (hschema : t.schema = ⟨idName, .decimal⟩ :: schema)
    (hread : ∀ d ∈ t.schema, d.type.Readable) (hfull : ∀ row ∈ rows, RowFull t.schema row)
    (hnodup : (rows.map rowKey).Nodup) {e : Executor} (htable : e.tables (upper s.tableName) = some t)
    (hdisk : e.disk = disk) (hasks : AsksFor t s w) (hw : stoll w = .ok v) :
    execSelect p e s =
      .ok (emit p t none s ((rows.filter fun row => rowKey row = v.toNat).map (storedRow p))) := by
  have hget : e.getTable s.tableName = .ok t := by rw [getTable, htable]
  rcases indexLookup_key (p := p) h hschema hread hfull hasks hw with
    hmiss | ⟨row, rid, hrow, hkey, hhit⟩
  · rw [← scan_key h hschema hread hfull hasks.filters_eq hw]
    simp only [execSelect, hget, hasks.hasJoin_eq, Bool.false_eq_true, if_false, hasks.known, hdisk,
      hmiss, Bind.bind, Except.bind]
  · rw [← hkey, filter_key hnodup hrow]
    simp only [execSelect, hget, hasks.hasJoin_eq, Bool.false_eq_true, if_false, hasks.known, hdisk,
      hhit, Bind.bind, Except.bind, Pure.pure, Except.pure, List.map_cons, List.map_nil]

end Lookup

end FlexQL.Executor
