import FlexQL.Index.TreeProperties
import FlexQL.Storage.ColumnSpec
import FlexQL.Storage.Table

/-!
# The content of a table

A table whose columns have files of their own holds one list of items for each column. An insertion
appends to these lists column by column, and to the index at the end.
-/

namespace FlexQL.Table

open Runs

/-- One call of `insert_row` in a run of insertions. -/
def insertStep (st : Table × Disk) (row : Row) : Except Fault (Table × Disk) :=
  st.1.insertRow st.2 row

/-- The items of the columns, by column number. -/
abbrev Contents := ℕ → List (List UInt8)

/-- A column store holds the items of a column. -/
structure ColumnHolds (disk : Disk) (d : ColumnDef) (column : ColumnStore)
    (items : List (List UInt8)) : Prop where
  holds : ColumnStore.Holds (.fixed d.type.itemSize) column (disk.columns column.filePath) items
  size_eq : ∀ item ∈ items, item.length = d.type.itemSize

/-- The columns of a table hold the given items, each in a file of its own. -/
structure Holds (t : Table) (disk : Disk) (contents : Contents) : Prop where
  length_eq : t.columns.length = t.schema.length
  nodup : (t.columns.map ColumnStore.filePath).Nodup
  column : ∀ (i : ℕ) d column, t.schema[i]? = some d → t.columns[i]? = some column →
    ColumnHolds disk d column (contents i)

/-- What an insertion does not change: the definition of the table, and the files of others. -/
structure Frame (t : Table) (disk : Disk) (t' : Table) (disk' : Disk) : Prop where
  name_eq : t'.name = t.name
  schema_eq : t'.schema = t.schema
  paths_eq : t'.columns.map ColumnStore.filePath = t.columns.map ColumnStore.filePath
  indexes_eq : disk'.indexes = disk.indexes
  outside : ∀ path ∉ t.columns.map ColumnStore.filePath, disk'.columns path = disk.columns path

theorem Frame.refl (t : Table) (disk : Disk) : Frame t disk t disk := ⟨rfl, rfl, rfl, rfl, fun _ _ => rfl⟩

theorem Frame.trans {t t' t'' : Table} {disk disk' disk'' : Disk} (h : Frame t disk t' disk')
    (h' : Frame t' disk' t'' disk'') : Frame t disk t'' disk'' where
  name_eq := h'.name_eq.trans h.name_eq
  schema_eq := h'.schema_eq.trans h.schema_eq
  paths_eq := h'.paths_eq.trans h.paths_eq
  indexes_eq := h'.indexes_eq.trans h.indexes_eq
  outside := fun path hpath => (h'.outside path (h.paths_eq ▸ hpath)).trans (h.outside path hpath)

variable {t : Table} {disk : Disk} {contents : Contents}

theorem itemFormat_sound (type : ColumnType) : (SlotFormat.fixed type.itemSize).Sound :=
  SlotFormat.fixed_sound type.itemSize_sound.1 type.itemSize_sound.2

/-- The column with a number that the schema has. -/
theorem Holds.exists_column (h : Holds t disk contents) {i : ℕ} {d : ColumnDef}
    (hd : t.schema[i]? = some d) :
    ∃ column, t.columns[i]? = some column ∧ ColumnHolds disk d column (contents i) := by
  have hi := (List.getElem?_eq_some_iff.mp hd).1
  rw [← h.length_eq] at hi
  have hcolumn := List.getElem?_eq_getElem hi
  exact ⟨_, hcolumn, h.column i d _ hd hcolumn⟩

/-- A column store that keeps its file leaves the files of the table as they are. -/
theorem paths_set {columns : List ColumnStore} {i : ℕ} {column u : ColumnStore}
    (hcolumn : columns[i]? = some column) (hpath : u.filePath = column.filePath) :
    (columns.set i u).map ColumnStore.filePath = columns.map ColumnStore.filePath := by
  obtain ⟨hi, rfl⟩ := List.getElem?_eq_some_iff.mp hcolumn
  have hself := List.set_getElem_self
    (show i < (columns.map ColumnStore.filePath).length by simpa using hi)
  rwa [List.getElem_map, ← hpath, ← List.map_set] at hself

/-- A column takes at least this many items: a page has room for 31 of the largest ones. -/
def columnRoom : ℕ := 31 * mappedPages

theorem columnRoom_le (type : ColumnType) : columnRoom ≤ mappedPages * (4088 / type.itemSize) := by
  cases type <;> decide

/-- Appending a value to one column. -/
theorem Holds.insertColumn (h : Holds t disk contents) {i : ℕ} {d : ColumnDef} {v : Value}
    (hd : t.schema[i]? = some d) (htype : v.type = d.type) :
    (columnRoom ≤ (contents i).length ∧ t.insertColumn disk i v = .error .unmapped) ∨
    ∃ t' disk', t.insertColumn disk i v = .ok (t', disk') ∧
      Holds t' disk' (Function.update contents i (contents i ++ [v.bytes])) ∧
      Frame t disk t' disk' ∧ t'.indexManager = t.indexManager := by
  obtain ⟨column, hcolumn, hc⟩ := h.exists_column hd
  have hlen : v.bytes.length = d.type.itemSize := by rw [v.bytes_length, htype]
  have hi := (List.getElem?_eq_some_iff.mp hcolumn).1
  rcases ColumnStore.insertFixed_spec v.bytes (hlen ▸ itemFormat_sound d.type)
      (hlen ▸ hc.holds) with ⟨hroom, herr⟩ | ⟨column', mem', hok, hholds, hpath⟩
  · left
    refine ⟨?_, by simp only [Table.insertColumn, hcolumn, herr, Bind.bind, Except.bind]⟩
    rw [hroom, hlen]
    exact columnRoom_le d.type
  · right
    rw [hlen] at hholds
    have hpaths := paths_set hcolumn hpath
    have hins : t.insertColumn disk i v = .ok ({ t with columns := t.columns.set i column' },
        disk.setColumn column'.filePath mem') := by
      simp only [Table.insertColumn, hcolumn, hok, Bind.bind, Except.bind, Pure.pure, Except.pure]
    refine ⟨_, _, hins, ⟨?_, ?_, ?_⟩, ⟨rfl, rfl, hpaths, rfl, ?_⟩, rfl⟩
    · exact (List.length_set ..).trans h.length_eq
    · exact hpaths ▸ h.nodup
    · intro j d' c hd' hc'
      by_cases hj : j = i
      · subst hj
        obtain rfl : d = d' := Option.some.inj (hd.symm.trans hd')
        obtain rfl : column' = c := by
          simpa [List.getElem?_set_self hi] using hc'
        rw [Function.update_self]
        refine ⟨?_, ?_⟩
        · rw [Disk.setColumn_same]
          exact hholds
        · intro item hitem
          rcases List.mem_append.mp hitem with hitem | hitem
          · exact hc.size_eq item hitem
          · rw [List.mem_singleton.mp hitem, hlen]
      · have hc'' : t.columns[j]? = some c := by
          simpa [List.getElem?_set_ne (Ne.symm hj)] using hc'
        have hold := h.column j d' c hd' hc''
        have hne : c.filePath ≠ column'.filePath := by
          intro heq
          obtain ⟨hj', -⟩ := List.getElem?_eq_some_iff.mp hc''
          refine hj ((List.getElem?_inj (by simpa using hj') h.nodup).mp ?_)
          rw [List.getElem?_map, List.getElem?_map, hc'', hcolumn, Option.map_some,
            Option.map_some, heq, hpath]
        rw [Function.update_of_ne hj]
        exact ⟨by rw [Disk.setColumn_ne _ hne]; exact hold.holds, hold.size_eq⟩
    · intro path hpath'
      have hne : path ≠ column'.filePath := by
        rintro rfl
        exact hpath' (List.mem_map.mpr ⟨column, List.mem_of_getElem? hcolumn, hpath.symm⟩)
      exact Disk.setColumn_ne _ hne

/-- The values of a row, from column `i` on, have the types of their columns. -/
def TypedFrom (schema : Schema) (i : ℕ) (values : List Value) : Prop :=
  ∀ (j : ℕ) v, values[j]? = some v → ∃ d, schema[i + j]? = some d ∧ v.type = d.type

/-- The items with the values of a row, from column `i` on. -/
def addFrom (contents : Contents) (i : ℕ) (values : List Value) : Contents := fun c =>
  contents c ++ if i ≤ c then (values[c - i]?.map Value.bytes).toList else []

theorem addFrom_nil (contents : Contents) (i : ℕ) : addFrom contents i [] = contents := by
  funext c
  simp [addFrom]

theorem addFrom_cons (contents : Contents) (i : ℕ) (v : Value) (values : List Value) :
    addFrom (Function.update contents i (contents i ++ [v.bytes])) (i + 1) values =
      addFrom contents i (v :: values) := by
  funext c
  unfold addFrom
  rcases Nat.lt_trichotomy c i with hlt | rfl | hgt
  · rw [if_neg (by omega), if_neg (by omega), Function.update_of_ne (by omega)]
  · rw [if_neg (by omega), if_pos le_rfl, Function.update_self, Nat.sub_self]
    simp
  · rw [if_pos (by omega), if_pos (by omega), Function.update_of_ne (by omega),
      show c - i = c - (i + 1) + 1 by omega, List.getElem?_cons_succ]

/-- The loop of `insert_row`. -/
theorem Holds.insertColumns (h : Holds t disk contents) {i : ℕ} {values : List Value}
    (htyped : TypedFrom t.schema i values) :
    ((∃ c, i ≤ c ∧ c < i + values.length ∧ columnRoom ≤ (contents c).length) ∧
      t.insertColumns disk i values = .error .unmapped) ∨
    ∃ t' disk', t.insertColumns disk i values = .ok (t', disk') ∧
      Holds t' disk' (addFrom contents i values) ∧ Frame t disk t' disk' ∧
      t'.indexManager = t.indexManager := by
  induction values generalizing t disk contents i with
  | nil => exact Or.inr ⟨t, disk, rfl, by rwa [addFrom_nil], Frame.refl t disk, rfl⟩
  | cons v values ih =>
    obtain ⟨d, hd, htype⟩ := htyped 0 v rfl
    rw [Nat.add_zero] at hd
    have hi := (List.getElem?_eq_some_iff.mp hd).1
    rcases h.insertColumn hd htype with ⟨hroom, herr⟩ | ⟨t', disk', hok, h', hframe, hindex⟩
    · left
      refine ⟨⟨i, le_rfl, by simp, hroom⟩, ?_⟩
      simp only [Table.insertColumns, if_pos hi, herr, Bind.bind, Except.bind]
    · have htyped' : TypedFrom t'.schema (i + 1) values := by
        intro j w hw
        rw [hframe.schema_eq, show i + 1 + j = i + (j + 1) by omega]
        exact htyped (j + 1) w hw
      have heq : t.insertColumns disk i (v :: values) = t'.insertColumns disk' (i + 1) values := by
        simp only [Table.insertColumns, if_pos hi, hok, Bind.bind, Except.bind]
      rw [heq]
      refine (ih h' htyped').imp (And.imp_left ?_) ?_
      · rintro ⟨c, hic, hci, hroom⟩
        rw [Function.update_of_ne (by omega)] at hroom
        exact ⟨c, by omega, by rw [List.length_cons]; omega, hroom⟩
      rintro ⟨t'', disk'', hok', h'', hframe', hindex'⟩
      exact ⟨t'', disk'', hok', addFrom_cons contents i v values ▸ h'', hframe.trans hframe',
        hindex'.trans hindex⟩

/-! ## Rows -/

/-- The values of a row are for the first columns of the schema, at least for the first one. -/
structure RowFits (schema : Schema) (row : Row) : Prop where
  nonempty : row.values ≠ []
  typed : TypedFrom schema 0 row.values

/-- The items that the rows contribute to a column. -/
def columnItems (rows : List Row) (c : ℕ) : List (List UInt8) :=
  rows.filterMap fun row => row.values[c]?.map Value.bytes

/-- `row.values[0].i64` as an unsigned number. -/
def rowKey (row : Row) : ℕ := match row.values with
  | [] => 0
  | v :: _ => v.bits.toNat

/-- The index entries of the rows: each key with the number of its row. -/
def keyEntries (rows : List Row) : List (ℕ × ℕ) := rows.zipIdx.map fun r => (rowKey r.1, r.2)

theorem columnItems_append (rows : List Row) (row : Row) :
    columnItems (rows ++ [row]) = addFrom (columnItems rows) 0 row.values := by
  funext c
  unfold columnItems addFrom
  rw [List.filterMap_append, if_pos (Nat.zero_le c), Nat.sub_zero]
  cases hv : row.values[c]? <;> simp [hv]

theorem columnItems_length {rows : List Row} {c : ℕ} (h : ∀ row ∈ rows, c < row.values.length) :
    (columnItems rows c).length = rows.length := by
  induction rows with
  | nil => rfl
  | cons row rows ih =>
    have hv := List.getElem?_eq_getElem (h row List.mem_cons_self)
    have hrest := ih fun r hr => h r (List.mem_cons_of_mem _ hr)
    simp only [columnItems, List.filterMap_cons, hv, Option.map_some, List.length_cons] at hrest ⊢
    rw [hrest]

theorem keyEntries_append (rows : List Row) (row : Row) :
    keyEntries (rows ++ [row]) = keyEntries rows ++ [(rowKey row, rows.length)] := by
  simp [keyEntries, List.zipIdx_append]

/-- A table has an index. -/
def HasIndex (t : Table) : Prop := ∃ d, t.schema[0]? = some d ∧ d.name = idName

/-- The index of a table, if it should have one, holds the given entries. -/
def IndexHolds (t : Table) (es : List (ℕ × ℕ)) : Prop :=
  t.HasIndex → ∃ tree, t.indexManager.getIndex pkName = some tree ∧ tree.Holds es

/-- The table holds the rows, and its index the entries. -/
structure HoldsRows (t : Table) (disk : Disk) (rows : List Row) (es : List (ℕ × ℕ)) : Prop where
  schema_ne : t.schema ≠ []
  columns : Holds t disk (columnItems rows)
  fits : ∀ row ∈ rows, RowFits t.schema row
  index : IndexHolds t es

/-- The last part of `insert_row`. -/
theorem insertKey_spec {es : List (ℕ × ℕ)} {row : Row} (rid : ℕ) (hne : t.schema ≠ [])
    (hindex : IndexHolds t es) (hrow : row.values ≠ []) :
    t.insertKey row rid = .error .unmapped ∨
    ∃ t', t.insertKey row rid = .ok t' ∧ t'.columns = t.columns ∧ t'.schema = t.schema ∧
      t'.name = t.name ∧ IndexHolds t' (es ++ [(rowKey row, rid)]) := by
  obtain ⟨d, schema, hschema⟩ := List.exists_cons_of_ne_nil hne
  obtain ⟨v, values, hvalues⟩ := List.exists_cons_of_ne_nil hrow
  by_cases hname : d.name = idName
  · obtain ⟨tree, htree, hholds⟩ := hindex ⟨d, by rw [hschema]; rfl, hname⟩
    have hkey : rowKey row = v.bits.toNat := by rw [rowKey, hvalues]
    rcases hholds.insert (v.bits.toNat, rid) with ⟨tree', htree', hholds'⟩ | ⟨f, herr, rfl⟩
    · right
      rw [BPTree.insertStep] at htree'
      refine ⟨{ t with indexManager := t.indexManager.setIndex pkName tree' }, ?_, rfl, rfl, rfl, ?_⟩
      · simp only [insertKey, hschema, if_pos hname, hvalues, htree, htree', Bind.bind, Except.bind,
          Pure.pure, Except.pure]
      · intro _
        exact ⟨tree', IndexManager.getIndex_setIndex .., hkey ▸ hholds'⟩
    · left
      rw [BPTree.insertStep] at herr
      simp only [insertKey, hschema, if_pos hname, hvalues, htree, herr, Bind.bind, Except.bind]
  · right
    refine ⟨t, by simp only [insertKey, hschema, if_neg hname], rfl, rfl, rfl, ?_⟩
    rintro ⟨d', hd', hname'⟩
    rw [hschema] at hd'
    obtain rfl : d = d' := by simpa using hd'
    exact absurd hname' hname

theorem Holds.nextRid (h : Holds t disk contents) (hne : t.schema ≠ []) :
    t.nextRid = .ok (contents 0).length := by
  obtain ⟨d, schema, hschema⟩ := List.exists_cons_of_ne_nil hne
  have hd : t.schema[0]? = some d := by rw [hschema]; rfl
  obtain ⟨column, hcolumn, hc⟩ := h.exists_column hd
  simp only [Table.nextRid, hcolumn, ColumnStore.getTotalRows, hc.holds.totalRows_eq]

theorem HoldsRows.nextRid {rows : List Row} {es : List (ℕ × ℕ)} (h : HoldsRows t disk rows es) :
    t.nextRid = .ok rows.length := by
  rw [h.columns.nextRid h.schema_ne,
    columnItems_length fun r hr => List.length_pos_iff.mpr (h.fits r hr).nonempty]

/-- `insert_row` appends a row. -/
theorem HoldsRows.insertRow {rows : List Row} {es : List (ℕ × ℕ)} (h : HoldsRows t disk rows es)
    {row : Row}
    (hrow : RowFits t.schema row) :
    t.insertRow disk row = .error .unmapped ∨
    ∃ t' disk', t.insertRow disk row = .ok (t', disk') ∧
      HoldsRows t' disk' (rows ++ [row]) (es ++ [(rowKey row, rows.length)]) ∧
      Frame t disk t' disk' := by
  have hrid := h.nextRid
  rcases h.columns.insertColumns hrow.typed with ⟨-, herr⟩ | ⟨t', disk', hok, h', hframe, hindex⟩
  · left
    simp only [Table.insertRow, hrid, herr, Bind.bind, Except.bind]
  · have hindex' : IndexHolds t' es := by
      have := h.index
      simpa only [IndexHolds, HasIndex, hframe.schema_eq, hindex] using this
    rcases insertKey_spec rows.length (hframe.schema_eq ▸ h.schema_ne) hindex'
        hrow.nonempty with herr | ⟨t'', hok', hcolumns, hschema, hname, hindex''⟩
    · left
      simp only [Table.insertRow, hrid, hok, herr, Bind.bind, Except.bind]
    · right
      refine ⟨t'', disk', ?_, ⟨?_, ?_, ?_, ?_⟩, ?_⟩
      · simp only [Table.insertRow, hrid, hok, hok', Bind.bind, Except.bind, Pure.pure, Except.pure]
      · rw [hschema, hframe.schema_eq]
        exact h.schema_ne
      · rw [columnItems_append]
        refine ⟨?_, ?_, ?_⟩
        · rw [hcolumns, hschema]
          exact h'.length_eq
        · rw [hcolumns]
          exact h'.nodup
        · rw [hcolumns, hschema]
          exact h'.column
      · intro r hr
        rw [hschema, hframe.schema_eq]
        rcases List.mem_append.mp hr with hr | hr
        · exact h.fits r hr
        · rwa [List.mem_singleton.mp hr]
      · exact hindex''
      · exact ⟨hname.trans hframe.name_eq, hschema.trans hframe.schema_eq,
          hcolumns ▸ hframe.paths_eq, hframe.indexes_eq, hframe.outside⟩

/-! ## New and cleared tables -/

/-- A column store as its constructor leaves it. -/
def newColumn (dataDir name : Text) (d : ColumnDef) : ColumnStore :=
  ⟨columnPath dataDir name d.name, .init 256, 0, none, noPage⟩

theorem initColumns_eq (dataDir name : Text) (disk : Disk) (schema : Schema) :
    initColumns dataDir name disk schema = .ok (schema.map (newColumn dataDir name)) := by
  induction schema with
  | nil => rfl
  | cons d schema ih =>
    simp only [initColumns, ColumnStore.init_eq, ih, Bind.bind, Except.bind, Pure.pure, Except.pure]
    rfl

/-- The constructor of a table with an index. -/
theorem init_of_id (dataDir name : Text) {d : ColumnDef} (schema : Schema) (disk : Disk)
    (hname : d.name = idName) {tree : BPTree}
    (htree : BPTree.init (disk.indexes (pkPath dataDir name)) = .ok tree) :
    init dataDir name (d :: schema) disk = .ok ⟨name, d :: schema,
      (d :: schema).map (newColumn dataDir name), IndexManager.init.setIndex pkName tree⟩ := by
  simp only [init, initColumns_eq, if_pos hname, IndexManager.createIndex, htree, Bind.bind,
    Except.bind, Pure.pure, Except.pure]

/-- The constructor of a table. -/
theorem init_spec (dataDir name : Text) {schema : Schema} (disk : Disk) (hne : schema ≠ []) :
    ∃ m, init dataDir name schema disk =
        .ok ⟨name, schema, schema.map (newColumn dataDir name), m⟩ ∧
      IndexHolds ⟨name, schema, schema.map (newColumn dataDir name), m⟩ [] ∧
      (schema.head?.map ColumnDef.name ≠ some idName → m = IndexManager.init) := by
  obtain ⟨d, schema', rfl⟩ := List.exists_cons_of_ne_nil hne
  by_cases hname : d.name = idName
  · obtain ⟨tree, htree, hholds⟩ := BPTree.init_holdsLinked (disk.indexes (pkPath dataDir name))
    refine ⟨_, init_of_id dataDir name _ disk hname htree, ?_, ?_⟩
    · exact fun _ => ⟨tree, IndexManager.getIndex_setIndex .., hholds.holds⟩
    · exact fun h => absurd (congrArg some hname) h
  · refine ⟨IndexManager.init, ?_, ?_, fun _ => rfl⟩
    · simp only [init, initColumns_eq, if_neg hname, Bind.bind, Except.bind, Pure.pure, Except.pure]
    · rintro ⟨d', hd', hname'⟩
      obtain rfl : d = d' := by simpa using hd'
      exact absurd hname' hname

/-- Only a table with a column is constructed. -/
theorem schema_ne_of_init {dataDir name : Text} {schema : Schema}
    (h : init dataDir name schema disk = .ok t) : schema ≠ [] := by
  rintro rfl
  simp [init, initColumns, Bind.bind, Except.bind] at h

/-- A table that was constructed. -/
theorem init_cases {dataDir name : Text} {schema : Schema}
    (h : init dataDir name schema disk = .ok t) :
    ∃ m, t = ⟨name, schema, schema.map (newColumn dataDir name), m⟩ ∧ IndexHolds t [] ∧
      (schema.head?.map ColumnDef.name ≠ some idName → m = IndexManager.init) := by
  obtain ⟨m, hok, hindex, hno⟩ := init_spec dataDir name disk (schema_ne_of_init h)
  rw [hok] at h
  cases h
  exact ⟨m, rfl, hindex, hno⟩

theorem columnPath_inj {dataDir name a b : Text}
    (h : columnPath dataDir name a = columnPath dataDir name b) : a = b := by
  simp only [columnPath, List.append_cancel_right_eq, List.append_cancel_left_eq] at h
  exact h

theorem paths_newColumn (dataDir name : Text) (schema : Schema) :
    (schema.map (newColumn dataDir name)).map ColumnStore.filePath =
      (schema.map ColumnDef.name).map (columnPath dataDir name) := by
  simp [newColumn, Function.comp_def]

theorem paths_nodup {dataDir name : Text} {schema : Schema} :
    ((schema.map (newColumn dataDir name)).map ColumnStore.filePath).Nodup ↔
      (schema.map ColumnDef.name).Nodup := by
  rw [paths_newColumn]
  exact List.nodup_map_iff fun a b h => columnPath_inj h

/-- Columns without pages hold nothing. -/
theorem holds_empty (hlen : t.columns.length = t.schema.length)
    (hnodup : (t.columns.map ColumnStore.filePath).Nodup)
    (hcolumns : ∀ column ∈ t.columns, column.numPages = 0 ∧ column.totalRows = 0 ∧
      column.activePage = none) (disk : Disk) : Holds t disk (columnItems []) where
  length_eq := hlen
  nodup := hnodup
  column := fun i d column hd hcolumn => by
    obtain ⟨hnum, htotal, hactive⟩ := hcolumns column (List.mem_of_getElem? hcolumn)
    exact ⟨ColumnStore.holds_nil (itemFormat_sound d.type) hnum htotal hactive _,
      by simp [columnItems]⟩

/-- A new table with distinct column names is empty. -/
theorem init_holdsRows (dataDir name : Text) {schema : Schema} (disk : Disk) (hne : schema ≠ [])
    (hnodup : (schema.map ColumnDef.name).Nodup) :
    ∃ t, init dataDir name schema disk = .ok t ∧ HoldsRows t disk [] [] ∧ t.name = name ∧
      t.schema = schema ∧
      t.columns.map ColumnStore.filePath = (schema.map ColumnDef.name).map (columnPath dataDir name) := by
  obtain ⟨m, hok, hindex, -⟩ := init_spec dataDir name disk hne
  refine ⟨_, hok, ⟨hne, ?_, by simp, hindex⟩, rfl, rfl, paths_newColumn _ _ _⟩
  refine holds_empty (by simp) (paths_nodup.mpr hnodup) ?_ disk
  intro column hcolumn
  obtain ⟨d, -, rfl⟩ := List.mem_map.mp hcolumn
  exact ⟨rfl, rfl, rfl⟩

theorem paths_clear (t : Table) :
    t.clear.columns.map ColumnStore.filePath = t.columns.map ColumnStore.filePath := by
  simp only [clear, List.map_map]
  rfl

/-- The columns of a cleared table are empty. -/
theorem clear_holds (hlen : t.columns.length = t.schema.length)
    (hnodup : (t.columns.map ColumnStore.filePath).Nodup) (disk : Disk) :
    Holds t.clear disk (columnItems []) := by
  refine holds_empty (by simpa [clear] using hlen) (paths_clear t ▸ hnodup) ?_ disk
  intro column hcolumn
  obtain ⟨c, -, rfl⟩ := List.mem_map.mp hcolumn
  exact ⟨rfl, rfl, rfl⟩

end FlexQL.Table
