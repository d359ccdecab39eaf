import FlexQL.Executor.Alignment
import FlexQL.Executor.PointQuery

/-!
# Rows come back as they were inserted

A table writes the items of a column with the size of the value and reads them with the size of the
column. It numbers a row by the items of its first column, and gives that number to the index.
-/

namespace FlexQL.Executor

open Text Table Runs Fallible

variable {p : Platform} {t t' : Table} {disk disk' : Disk} {rows : List Row} {row : Row}

/-- The values that are read for a row of a table: one for each column, the number that was
inserted, or the text up to its first zero byte and its 127th byte. -/
structure ReadsBack (schema : Schema) (row read : Row) : Prop where
  length_eq : read.values.length = schema.length
  decimal : ∀ (c : ℕ) d v w, schema[c]? = some d → d.type = .decimal → row.values[c]? = some v →
    read.values[c]? = some w → w.bits = v.bits
  varchar : ∀ (c : ℕ) d v w, schema[c]? = some d → d.type = .varchar → row.values[c]? = some v →
    read.values[c]? = some w → w.str = (cStr v.str).take 127

theorem readsBack_storedRow {schema : Schema} (h : RowFull schema row) :
    ReadsBack schema row (storedRow p row) := by
  have hstored : ∀ (c : ℕ) d v w, schema[c]? = some d → row.values[c]? = some v →
      (storedRow p row).values[c]? = some w → v.type = d.type ∧ w = v.stored p := by
    intro c d v w hd hv hw
    obtain ⟨v', hv', htype⟩ := h.exists_value hd
    rw [storedRow, List.getElem?_map, hv, Option.map_some, Option.some.injEq] at hw
    rw [hv, Option.some.injEq] at hv'
    exact ⟨hv' ▸ htype, hw.symm⟩
  refine ⟨by simpa [storedRow] using h.length_eq, ?_, ?_⟩
  · intro c d v w hd htype hv hw
    obtain ⟨hvtype, rfl⟩ := hstored c d v w hd hv hw
    simp only [Value.stored, hvtype, htype]
  · intro c d v w hd htype hv hw
    obtain ⟨hvtype, rfl⟩ := hstored c d v w hd hv hw
    simp only [Value.stored, hvtype, htype]

/-! ## One insertion -/

/-- The index of a table, if it has one, has received the keys of the rows with their numbers. -/
def IndexFilled (t : Table) (tree₀ : BPTree) (rows : List Row) : Prop :=
  t.HasIndex → ∃ tree, t.indexManager.getIndex pkName = some tree ∧
    run BPTree.insertStep tree₀ (keyEntries rows) = .ok tree ∧ tree.HoldsDense (keyEntries rows)

theorem columnItems_length_le (rows : List Row) (c : ℕ) : (columnItems rows c).length ≤ rows.length :=
  List.length_filterMap_le ..

/-- The index takes the key of a row, or it has filled its mapping. -/
theorem insertKey_filled {tree₀ : BPTree} (hne : t.schema ≠ []) (hfilled : IndexFilled t tree₀ rows)
    (hrow : row.values ≠ []) :
    (columnRoom ≤ rows.length ∧ t.insertKey row rows.length = .error .unmapped) ∨
    ∃ t', t.insertKey row rows.length = .ok t' ∧ IndexFilled t' tree₀ (rows ++ [row]) := by
  obtain ⟨d, schema, hschema⟩ := List.exists_cons_of_ne_nil hne
  obtain ⟨v, values, hvalues⟩ := List.exists_cons_of_ne_nil hrow
  have hkey : rowKey row = v.bits.toNat := by rw [rowKey, hvalues]
  by_cases hname : d.name = idName
  · obtain ⟨tree, htree, hrun, hdense⟩ := hfilled ⟨d, by rw [hschema]; rfl, hname⟩
    rcases hdense.insert (rowKey row, rows.length) with ⟨hfull, herr⟩ | ⟨tree', hstep, hdense'⟩
    · left
      rw [BPTree.insertStep, hkey] at herr
      refine ⟨?_, ?_⟩
      · rw [keyEntries, List.length_map, List.length_zipIdx] at hfull
        simp only [columnRoom, mappedPages, BPTree.half] at *
        omega
      · simp only [insertKey, hschema, if_pos hname, hvalues, htree, herr, Bind.bind, Except.bind]
    · right
      refine ⟨{ t with indexManager := t.indexManager.setIndex pkName tree' }, ?_, fun _ => ?_⟩
      · rw [BPTree.insertStep, hkey] at hstep
        simp only [insertKey, hschema, if_pos hname, hvalues, htree, hstep, Bind.bind, Except.bind,
          Pure.pure, Except.pure]
      · rw [keyEntries_append]
        refine ⟨tree', IndexManager.getIndex_setIndex .., ?_, hdense'⟩
        rw [run_append_of_ok _ hrun, run_singleton]
        exact hstep
  · right
    refine ⟨t, by simp only [insertKey, hschema, if_neg hname], ?_⟩
    rintro ⟨d', hd', hname'⟩
    obtain rfl : d = d' := by simpa [hschema] using hd'
    exact absurd hname' hname

/-- A table takes another row, or it has as many that its mappings may be full. -/
theorem insertRow_filled {tree₀ : BPTree} (h : HoldsRows t disk rows (keyEntries rows))
    (hfilled : IndexFilled t tree₀ rows) (hrow : RowFits t.schema row) :
    (columnRoom ≤ rows.length ∧ t.insertRow disk row = .error .unmapped) ∨
    ∃ t' disk', t.insertRow disk row = .ok (t', disk') ∧
      HoldsRows t' disk' (rows ++ [row]) (keyEntries (rows ++ [row])) ∧ t'.schema = t.schema ∧
      IndexFilled t' tree₀ (rows ++ [row]) := by
  rcases h.columns.insertColumns hrow.typed with ⟨⟨c, -, -, hfull⟩, herr⟩ |
    ⟨t₁, disk₁, hcolumns, -, hframe₁, hmanager⟩
  · left
    refine ⟨hfull.trans (columnItems_length_le rows c), ?_⟩
    simp only [insertRow, h.nextRid, herr, Bind.bind, Except.bind]
  have hfilled₁ : IndexFilled t₁ tree₀ rows := by
    simpa only [IndexFilled, HasIndex, hframe₁.schema_eq, hmanager] using hfilled
  rcases insertKey_filled (hframe₁.schema_eq ▸ h.schema_ne) hfilled₁ hrow.nonempty with
    ⟨hfull, herr⟩ | ⟨t₂, hkey, hfilled₂⟩
  · left
    refine ⟨hfull, ?_⟩
    simp only [insertRow, h.nextRid, hcolumns, herr, Bind.bind, Except.bind]
  right
  have hins : t.insertRow disk row = .ok (t₂, disk₁) := by
    simp only [insertRow, h.nextRid, hcolumns, hkey, Bind.bind, Except.bind, Pure.pure, Except.pure]
  refine ⟨t₂, disk₁, hins, ?_⟩
  rcases h.insertRow hrow with herr | ⟨t₃, disk₃, hins', h', hframe⟩
  · rw [hins] at herr
    cases herr
  · rw [hins] at hins'
    cases hins'
    rw [← keyEntries_append] at h'
    exact ⟨h', hframe.schema_eq, hfilled₂⟩

/-! ## Runs of insertions -/

/-- A table takes all rows, or they are more than `columnRoom`. -/
theorem run_filled {past : List Row} {tree₀ : BPTree} (h : HoldsRows t disk past (keyEntries past))
    (hfilled : IndexFilled t tree₀ past) (hrows : ∀ row ∈ rows, RowFits t.schema row) :
    (columnRoom < (past ++ rows).length ∧ run insertStep (t, disk) rows = .error .unmapped) ∨
    ∃ t' disk', run insertStep (t, disk) rows = .ok (t', disk') ∧
      HoldsRows t' disk' (past ++ rows) (keyEntries (past ++ rows)) ∧ t'.schema = t.schema ∧
      IndexFilled t' tree₀ (past ++ rows) := by
  induction rows generalizing t disk past with
  | nil =>
    rw [List.append_nil]
    exact Or.inr ⟨t, disk, rfl, h, rfl, hfilled⟩
  | cons row rows ih =>
    rcases insertRow_filled h hfilled (hrows row List.mem_cons_self) with ⟨hfull, herr⟩ |
      ⟨t₁, disk₁, hok, h₁, hschema, hfilled₁⟩
    · left
      refine ⟨?_, by simp [run, insertStep, herr]⟩
      rw [List.length_append, List.length_cons]
      omega
    · have hrows₁ : ∀ r ∈ rows, RowFits t₁.schema r := fun r hr =>
        hschema ▸ hrows r (List.mem_cons_of_mem _ hr)
      have hrest := ih h₁ hfilled₁ hrows₁
      rw [List.append_assoc, List.singleton_append] at hrest
      rw [run_cons_of_ok (t := (t₁, disk₁)) _ hok]
      refine hrest.imp id ?_
      rintro ⟨t', disk', hrun, h', hschema', hfilled'⟩
      exact ⟨t', disk', hrun, h', hschema'.trans hschema, hfilled'⟩

/-- A new index is empty. -/
theorem init_indexFilled {dataDir name : Text} {schema : Schema}
    (h : Table.init dataDir name schema disk = .ok t) :
    ∃ tree₀, BPTree.init (disk.indexes (pkPath dataDir name)) = .ok tree₀ ∧
      IndexFilled t tree₀ [] := by
  obtain ⟨tree₀, htree₀, hdense⟩ := BPTree.init_holdsDense (disk.indexes (pkPath dataDir name))
  refine ⟨tree₀, htree₀, ?_⟩
  rintro ⟨d, hd, hname⟩
  obtain ⟨m, rfl, -, -⟩ := init_cases h
  obtain ⟨d', schema', rfl⟩ := List.exists_cons_of_ne_nil (schema_ne_of_init h)
  obtain rfl : d' = d := by simpa using hd
  rw [init_of_id dataDir name schema' disk hname htree₀] at h
  cases h
  exact ⟨tree₀, IndexManager.getIndex_setIndex .., rfl, hdense⟩

/-- A table with files of its own for its columns of decimals and texts gives back the rows that
were inserted, and its index received their keys with their numbers. Only more than eight million
rows may fill a mapping. -/
theorem rows_read_back (p : Platform) (dataDir name : Text) (schema : Schema) (disk₀ : Disk)
    (t₀ : Table) (hinit : Table.init dataDir name schema disk₀ = .ok t₀) (hplain : Plain schema)
    (hfiles : (schema.map fun d => columnPath dataDir name d.name).Nodup) (rows : List Row)
    (hfull : ∀ row ∈ rows, RowFull schema row) :
    (columnRoom < rows.length ∧ run insertStep (t₀, disk₀) rows = .error .unmapped) ∨
      ∃ t disk, run insertStep (t₀, disk₀) rows = .ok (t, disk) ∧
        (∀ (rid : ℕ) row, rows[rid]? = some row →
          ∃ read, materializeRow p t disk rid = .ok read ∧ ReadsBack schema row read) ∧
        (t.HasIndex → ∃ tree₀ tree, BPTree.init (disk₀.indexes (pkPath dataDir name)) = .ok tree₀ ∧
          run BPTree.insertStep tree₀ (keyEntries rows) = .ok tree ∧
          t.indexManager.getIndex pkName = some tree) := by
  have hne := schema_ne_of_init hinit
  have hnodup : (schema.map ColumnDef.name).Nodup := by
    refine List.Nodup.of_map (columnPath dataDir name) ?_
    rwa [List.map_map]
  obtain ⟨t₁, hinit', hholds, -, hschema, -⟩ := init_holdsRows dataDir name disk₀ hne hnodup
  obtain rfl : t₀ = t₁ := Except.ok.inj (hinit.symm.trans hinit')
  obtain ⟨tree₀, htree₀, hfilled⟩ := init_indexFilled hinit
  have hfits : ∀ row ∈ rows, RowFits t₀.schema row := fun row hrow =>
    hschema ▸ (hfull row hrow).rowFits hne
  refine (run_filled hholds hfilled hfits).imp id ?_
  rintro ⟨t, disk, hrun, h, hschema', hfilled'⟩
  rw [List.nil_append] at h hfilled'
  refine ⟨t, disk, hrun, ?_, ?_⟩
  · intro rid row hrow
    have hread : ∀ d ∈ t.schema, d.type.Readable := by
      rw [hschema', hschema]
      exact hplain.readable
    have hfull' : ∀ r ∈ rows, RowFull t.schema r := by
      rw [hschema', hschema]
      exact hfull
    exact ⟨storedRow p row, materializeRow_eq h hread hfull' hrow,
      readsBack_storedRow (hfull row (List.mem_of_getElem? hrow))⟩
  · intro hindex
    obtain ⟨tree, htree, hrun', -⟩ := hfilled' hindex
    exact ⟨tree₀, tree, htree₀, hrun', htree⟩

/-- `(ID DECIMAL, N VARCHAR)`. -/
def numberAndText : Schema := [⟨idName, .decimal⟩, ⟨str "N", .varchar⟩]

theorem rows_read_back_two_rows :
    ∃ t₀ t disk read, Table.init (str "data") (str "T") numberAndText .blank = .ok t₀ ∧
      run insertStep (t₀, .blank) [⟨[⟨.decimal, 7, []⟩, ⟨.varchar, 0, str "x"⟩]⟩,
        ⟨[⟨.decimal, 7, []⟩, ⟨.varchar, 0, str "y"⟩]⟩] = .ok (t, disk) ∧
      materializeRow .reference t disk 1 = .ok read ∧
      ReadsBack numberAndText ⟨[⟨.decimal, 7, []⟩, ⟨.varchar, 0, str "y"⟩]⟩ read := by
  obtain ⟨t₀, hinit⟩ : ∃ t₀, Table.init (str "data") (str "T") numberAndText .blank = .ok t₀ :=
    exists_of_isOk (by decide +kernel)
  have hplain : Plain numberAndText := by
    intro d hd
    rcases List.mem_pair.mp hd with rfl | rfl
    · exact Or.inl rfl
    · exact Or.inr rfl
  have hfull : ∀ row ∈ ([⟨[⟨.decimal, 7, []⟩, ⟨.varchar, 0, str "x"⟩]⟩,
      ⟨[⟨.decimal, 7, []⟩, ⟨.varchar, 0, str "y"⟩]⟩] : List Row), RowFull numberAndText row := by
    intro row hrow
    rcases List.mem_pair.mp hrow with rfl | rfl <;> rfl
  rcases rows_read_back .reference (str "data") (str "T") numberAndText .blank t₀ hinit hplain
      (by decide) _ hfull with ⟨hlen, -⟩ | ⟨t, disk, hrun, hread, -⟩
  · exact absurd hlen (by decide)
  · obtain ⟨read, hmat, hback⟩ := hread 1 _ rfl
    exact ⟨t₀, t, disk, read, hinit, hrun, hmat, hback⟩

end FlexQL.Executor
