import FlexQL.Executor.Reachable
import FlexQL.Storage.InsertEvents

/-!
# Are tables and columns isolated?

The name of a file is that of its table and that of its column with an underscore between them, and
both may contain underscores. A statement on one table leaves the others alone as long as no two
columns get one name in this way.
-/

namespace FlexQL.Executor

open Text Table Runs Fallible

/-- What the path of a column says about it. -/
def fileName (name column : Text) : Text := name ++ str "_" ++ column

/-- The table that a statement changes, if it changes one. -/
def target (s : Statement) : Option Text :=
  match s.type with
  | .create => some s.createStmt.tableName
  | .insert => some (upper s.insertStmt.tableName)
  | .delete => some (upper s.deleteStmt.tableName)
  | _ => none

/-- What is read from a table is the same on two disks. -/
def SameReads (t : Table) (disk disk' : Disk) : Prop :=
  ∀ c rid size, t.readAt disk' c rid size = t.readAt disk c rid size

structure Isolated (p : Platform) (e : Executor) : Prop where
  /-- A path belongs to one column of one table. -/
  injective : ∀ name name' t t' (i j : ℕ) column column', e.tables name = some t →
    e.tables name' = some t' → t.columns[i]? = some column → t'.columns[j]? = some column' →
    column.filePath = column'.filePath → name = name' ∧ i = j
  /-- A statement changes nothing that is read from another table. -/
  tables : ∀ s e' o, exec p e s = .ok (e', o) → ∀ name t, target s ≠ some name →
    e.tables name = some t → e'.tables name = some t ∧ SameReads t e.disk e'.disk
  /-- Nor does it change the answers of queries on other tables. -/
  answers : ∀ s e' o, exec p e s = .ok (e', o) → ∀ q : SelectStmt,
    target s ≠ some (upper q.tableName) →
    (q.hasJoin = true → target s ≠ some (upper q.join.table)) →
    execSelect p e' q = execSelect p e q
  /-- Behind any steps of insertions, appending to a column changes no other column. -/
  columns : ∀ name t, e.tables name = some t → ∀ events st,
    run eventStep (t, e.disk) events = .ok st → ∀ i v st', st.1.insertColumn st.2 i v = .ok st' →
      ∀ j, j ≠ i → st'.1.columns[j]? = st.1.columns[j]? ∧
        ∀ rid size, st'.1.readAt st'.2 j rid size = st.1.readAt st.2 j rid size

/-- The condition on a statement: the columns of a new table have names of their own, among
themselves and among the files of the other tables. -/
def NamesApart (e : Executor) (s : Statement) : Prop :=
  s.type = .create → s.createStmt.tableName ≠ [] → e.tables s.createStmt.tableName = none →
    ∀ schema, columnDefs s.createStmt.columns = .ok schema →
      (schema.map ColumnDef.name).Nodup ∧
      ∀ name t, e.tables name = some t → ∀ d ∈ schema, ∀ d' ∈ t.schema,
        fileName s.createStmt.tableName d.name ≠ fileName name d'.name

variable {p : Platform} {e e' : Executor} {t t2 : Table} {disk disk' : Disk}

/-! ## What is read on another disk -/

theorem SameReads.of_files
    (h : ∀ column ∈ t.columns, disk'.columns column.filePath = disk.columns column.filePath) :
    SameReads t disk disk' := by
  intro c rid size
  unfold Table.readAt
  cases hc : t.getColumn c with
  | none => rfl
  | some column => simp only [h column (List.mem_of_getElem? hc)]

theorem SameReads.materializeFrom (h : SameReads t disk disk') (rid : ℕ) (schema : Schema) (c : ℕ) :
    materializeFrom p t disk' rid schema c = materializeFrom p t disk rid schema c := by
  induction schema generalizing c with
  | nil => rfl
  | cons d schema ih => simp only [Executor.materializeFrom, materializeValue, h c, ih]

theorem SameReads.materializeRow (h : SameReads t disk disk') (rid : ℕ) :
    materializeRow p t disk' rid = materializeRow p t disk rid := by
  simp only [Executor.materializeRow, h.materializeFrom]

theorem SameReads.materializeRows (h : SameReads t disk disk') (rids : List ℕ) :
    materializeRows p t disk' rids = materializeRows p t disk rids := by
  induction rids with
  | nil => rfl
  | cons rid rids ih => simp only [Executor.materializeRows, h.materializeRow, ih]

theorem SameReads.readKeys (h : SameReads t disk disk') (c : ℕ) (rids : List ℕ) :
    HashJoin.readKeys t disk' c rids = HashJoin.readKeys t disk c rids := by
  induction rids with
  | nil => rfl
  | cons rid rids ih => simp only [HashJoin.readKeys, h c, ih]

theorem SameReads.probe (h : SameReads t disk disk') (h2 : SameReads t2 disk disk') (c : ℕ)
    (hashTable : List (ℕ × ℕ)) (rids : List ℕ) :
    HashJoin.probe p t t2 disk' c hashTable rids = HashJoin.probe p t t2 disk c hashTable rids := by
  induction rids with
  | nil => rfl
  | cons rid rids ih =>
    simp only [HashJoin.probe, HashJoin.joinRow, h c, h.materializeRow, h2.materializeRows, ih]

theorem SameReads.join (h : SameReads t disk disk') (h2 : SameReads t2 disk disk')
    (col1 col2 : Text) :
    HashJoin.join p t t2 disk' col1 col2 = HashJoin.join p t t2 disk col1 col2 := by
  simp only [HashJoin.join, h2.readKeys, h.probe h2]

theorem SameReads.indexLookup (h : SameReads t disk disk') (s : SelectStmt) :
    indexLookup p t disk' s = indexLookup p t disk s := by
  simp only [Executor.indexLookup, h.materializeRow]

theorem SameReads.scan (h : SameReads t disk disk') (s : SelectStmt) :
    scan p t disk' s = scan p t disk s := by
  simp only [Executor.scan, h.materializeRows]

/-- A query depends on its own tables only. -/
theorem execSelect_congr {q : SelectStmt}
    (h : ∀ name, name = upper q.tableName ∨ (q.hasJoin = true ∧ name = upper q.join.table) →
      e'.tables name = e.tables name ∧
      ∀ t, e.tables name = some t → SameReads t e.disk e'.disk) :
    execSelect p e' q = execSelect p e q := by
  obtain ⟨htables, hreads⟩ := h _ (Or.inl rfl)
  have hget : e'.getTable q.tableName = e.getTable q.tableName := by
    simp only [getTable, htables]
  unfold execSelect
  rw [hget]
  cases ht : e.getTable q.tableName with
  | error err => rfl
  | ok t =>
    have hsame := hreads t (getTable_eq_ok.mp ht)
    simp only [hsame.indexLookup, hsame.scan]
    by_cases hjoin : q.hasJoin = true
    · obtain ⟨htables2, hreads2⟩ := h _ (Or.inr ⟨hjoin, rfl⟩)
      have hget2 : e'.getTable q.join.table = e.getTable q.join.table := by
        simp only [getTable, htables2]
      cases ht2 : e.getTable q.join.table with
      | error err => simp only [hget2, ht2]
      | ok t2 =>
        have hsame2 := hreads2 t2 (getTable_eq_ok.mp ht2)
        simp only [hget2, ht2, hsame.join hsame2]
    · simp only [hjoin, Bool.false_eq_true, if_false]

/-! ## The invariant -/

/-- The columns of the tables have files with names of their own. -/
structure Apart (e : Executor) : Prop where
  sound : e.Sound
  paths : ∀ name t, e.tables name = some t → t.columns.map ColumnStore.filePath =
    (t.schema.map ColumnDef.name).map (columnPath e.dataDir name)
  nodup : ∀ name t, e.tables name = some t → (t.schema.map ColumnDef.name).Nodup
  names : ∀ name name' t t', name ≠ name' → e.tables name = some t → e.tables name' = some t' →
    ∀ d ∈ t.schema, ∀ d' ∈ t'.schema, fileName name d.name ≠ fileName name' d'.name

theorem columnPath_eq_iff {dataDir name name' column column' : Text} :
    columnPath dataDir name column = columnPath dataDir name' column' ↔
      fileName name column = fileName name' column' := by
  have heq : ∀ name column, columnPath dataDir name column =
      dataDir ++ str "/" ++ fileName name column ++ str ".bin" := by
    intro name column
    simp only [columnPath, fileName, List.append_assoc]
  rw [heq, heq, List.append_cancel_right_eq, List.append_cancel_left_eq]

/-- The name of the file of a column. -/
theorem Apart.exists_def (h : Apart e) {name : Text} (ht : e.tables name = some t) {i : ℕ}
    {column : ColumnStore} (hcolumn : t.columns[i]? = some column) :
    ∃ d, t.schema[i]? = some d ∧ column.filePath = columnPath e.dataDir name d.name := by
  have hpath := congrArg (·[i]?) (h.paths name t ht)
  simp only [List.getElem?_map, hcolumn, Option.map_some] at hpath
  cases hd : t.schema[i]? with
  | none => simp [hd] at hpath
  | some d => exact ⟨d, rfl, by simpa [hd] using hpath⟩

theorem Apart.exists_column (h : Apart e) {name : Text} (ht : e.tables name = some t) {i : ℕ}
    {d : ColumnDef} (hd : t.schema[i]? = some d) :
    ∃ column, t.columns[i]? = some column ∧ column.filePath = columnPath e.dataDir name d.name := by
  have hpath := congrArg (·[i]?) (h.paths name t ht)
  simp only [List.getElem?_map, hd, Option.map_some] at hpath
  cases hcolumn : t.columns[i]? with
  | none => simp [hcolumn] at hpath
  | some column => exact ⟨column, rfl, by simpa [hcolumn] using hpath⟩

theorem Apart.disjoint (h : Apart e) {name name' : Text} {t t' : Table} (hne : name ≠ name')
    (ht : e.tables name = some t) (ht' : e.tables name' = some t') :
    ∀ column ∈ t.columns, column.filePath ∉ t'.columns.map ColumnStore.filePath := by
  intro column hcolumn hmem
  obtain ⟨column', hcolumn', heq⟩ := List.mem_map.mp hmem
  obtain ⟨i, hi⟩ := List.mem_iff_getElem?.mp hcolumn
  obtain ⟨j, hj⟩ := List.mem_iff_getElem?.mp hcolumn'
  obtain ⟨d, hd, hpath⟩ := h.exists_def ht hi
  obtain ⟨d', hd', hpath'⟩ := h.exists_def ht' hj
  rw [hpath, hpath'] at heq
  exact h.names _ _ _ _ hne ht ht' d (List.mem_of_getElem? hd) d' (List.mem_of_getElem? hd')
    (columnPath_eq_iff.mp heq).symm

theorem Apart.separate (h : Apart e) {name : Text} (ht : e.tables name = some t) : t.Separate where
  inUse := (h.sound name t ht).inUse
  nodup := by
    rw [h.paths name t ht]
    exact (h.nodup name t ht).map fun _ _ heq => columnPath_inj heq

/-- A change of one table that keeps its columns and their files. -/
theorem Apart.setTable (h : Apart e) {name : Text} {t t' : Table} (disk : Disk) (ht : e.tables name = some t)
    (hsound : t'.Sound) (hschema : t'.schema = t.schema)
    (hpaths : t'.columns.map ColumnStore.filePath = t.columns.map ColumnStore.filePath) :
    Apart (e.setTable name t' disk) := by
  have hold : ∀ name' u, (e.setTable name t' disk).tables name' = some u →
      ∃ u', e.tables name' = some u' ∧ u.schema = u'.schema ∧
        u.columns.map ColumnStore.filePath = u'.columns.map ColumnStore.filePath := by
    intro name' u hu
    rcases setTable_cases hu with ⟨rfl, rfl⟩ | ⟨-, hu⟩
    · exact ⟨t, ht, hschema, hpaths⟩
    · exact ⟨u, hu, rfl, rfl⟩
  constructor
  · exact h.sound.setTable name hsound disk
  · intro name' u hu
    obtain ⟨u', hu', heq, hpaths'⟩ := hold name' u hu
    rw [hpaths', heq]
    exact h.paths name' u' hu'
  · intro name' u hu
    obtain ⟨u', hu', heq, -⟩ := hold name' u hu
    rw [heq]
    exact h.nodup name' u' hu'
  · intro name₁ name₂ u₁ u₂ hne hu₁ hu₂
    obtain ⟨u₁', hu₁', heq₁, -⟩ := hold name₁ u₁ hu₁
    obtain ⟨u₂', hu₂', heq₂, -⟩ := hold name₂ u₂ hu₂
    rw [heq₁, heq₂]
    exact h.names name₁ name₂ u₁' u₂' hne hu₁' hu₂'

/-- A new table with names of its own. -/
theorem Apart.create (h : Apart e) {s : CreateStmt} {schema : Schema}
    (ht : Table.init e.dataDir s.tableName schema e.disk = .ok t)
    (hnodup : (schema.map ColumnDef.name).Nodup)
    (hnames : ∀ name u, e.tables name = some u → ∀ d ∈ schema, ∀ d' ∈ u.schema,
      fileName s.tableName d.name ≠ fileName name d'.name) :
    Apart (e.setTable s.tableName t e.disk) := by
  have hsound := init_sound _ _ ht
  obtain ⟨m, rfl, -, -⟩ := init_cases ht
  constructor
  · exact h.sound.setTable _ hsound _
  · intro name u hu
    rcases setTable_cases hu with ⟨rfl, rfl⟩ | ⟨-, hu⟩
    · exact paths_newColumn _ _ _
    · exact h.paths name u hu
  · intro name u hu
    rcases setTable_cases hu with ⟨rfl, rfl⟩ | ⟨-, hu⟩
    · exact hnodup
    · exact h.nodup name u hu
  · intro name₁ name₂ u₁ u₂ hne hu₁ hu₂ d hd d' hd'
    rcases setTable_cases hu₁ with ⟨rfl, rfl⟩ | ⟨-, hold₁⟩ <;>
      rcases setTable_cases hu₂ with ⟨rfl, rfl⟩ | ⟨-, hold₂⟩
    · exact absurd rfl hne
    · exact hnames name₂ u₂ hold₂ d hd d' hd'
    · exact (hnames name₁ u₁ hold₁ d' hd' d hd).symm
    · exact h.names name₁ name₂ u₁ u₂ hne hold₁ hold₂ d hd d' hd'

/-- Every statement that meets the condition keeps the tables apart. -/
theorem Apart.exec (h : Apart e) {s : Statement} (hnames : NamesApart e s) {o : Outcome}
    (hexec : exec p e s = .ok (e', o)) : Apart e' := by
  rcases exec_cases hexec with rfl | ⟨htype, schema, t, hname, hnew, hschema, ht, rfl⟩ |
    ⟨-, t, r, ht, hr, rfl⟩ | ⟨-, t, ht, rfl⟩
  · exact h
  · obtain ⟨hnodup, hothers⟩ := hnames htype hname hnew schema hschema
    exact h.create ht hnodup hothers
  · have hgrown := insertTuples_grown (h.sound _ t ht) hr
    exact h.setTable _ ht hgrown.sound hgrown.schema_eq hgrown.paths_eq
  · exact h.setTable _ ht (h.sound _ t ht).clear rfl (paths_clear t)

theorem Apart.sqlStep (h : Apart e) {sql : Text} (hnames : NamesApart e (Parser.parse sql))
    (hstep : sqlStep p e sql = .ok e') : Apart e' := by
  obtain ⟨o, hexec⟩ := sqlStep_cases hstep
  exact h.exec hnames hexec

theorem apart_init (dataDir : Text) (disk : Disk) : Apart (init dataDir disk) where
  sound := fun _ _ ht => nomatch ht
  paths := fun _ _ ht => nomatch ht
  nodup := fun _ _ ht => nomatch ht
  names := fun _ _ _ _ _ ht => nomatch ht

/-! ## Isolation -/

/-- A statement leaves the other tables and their files alone. -/
theorem Apart.others (h : Apart e) {s : Statement} {o : Outcome}
    (hexec : Executor.exec p e s = .ok (e', o)) {name : Text} (hname : target s ≠ some name) :
    e'.tables name = e.tables name ∧ ∀ u, e.tables name = some u → SameReads u e.disk e'.disk := by
  have hother : ∀ {name'} (t : Table) (disk : Disk), name' ≠ name →
      (e.setTable name' t disk).tables name = e.tables name :=
    fun t disk hne => setTable_ne e t disk hne.symm
  rcases exec_cases hexec with rfl | ⟨htype, schema, t, -, -, -, -, rfl⟩ | ⟨htype, t, r, ht, hr, rfl⟩ |
    ⟨htype, t, ht, rfl⟩
  · exact ⟨rfl, fun _ _ _ _ _ => rfl⟩
  · simp only [target, htype, ne_eq, Option.some.injEq] at hname
    exact ⟨hother _ _ hname, fun _ _ _ _ _ => rfl⟩
  · simp only [target, htype, ne_eq, Option.some.injEq] at hname
    refine ⟨hother _ _ hname, fun u hu => SameReads.of_files ?_⟩
    intro column hcolumn
    have hgrown := insertTuples_grown (h.sound _ t ht) hr
    exact hgrown.outside _ (h.disjoint (Ne.symm hname) hu ht column hcolumn)
  · simp only [target, htype, ne_eq, Option.some.injEq] at hname
    exact ⟨hother _ _ hname, fun _ _ _ _ _ => rfl⟩

theorem Apart.isolated (h : Apart e) : Isolated p e := by
  constructor
  · intro name name' t t' i j column column' ht ht' hi hj heq
    by_cases hname : name = name'
    · subst hname
      rw [ht] at ht'
      cases ht'
      refine ⟨rfl, ?_⟩
      by_contra hij
      exact (h.separate ht).filePath_ne hij hi hj heq
    · exact absurd (heq ▸ List.mem_map_of_mem (List.mem_of_getElem? hj))
        (h.disjoint hname ht ht' column (List.mem_of_getElem? hi))
  · intro s e' o hexec name t hname ht
    obtain ⟨htables, hreads⟩ := h.others hexec hname
    exact ⟨htables.trans ht, hreads t ht⟩
  · intro s e' o hexec q hname hjoin
    apply execSelect_congr
    rintro name (rfl | ⟨hq, rfl⟩)
    · exact h.others hexec hname
    · exact h.others hexec (hjoin hq)
  · intro name t ht events st hrun i v st' hst j hij
    exact ((h.separate ht).run hrun).readAt_insertColumn hij hst

theorem exists_newColumn (dataDir name : Text) {schema : Schema} {i : ℕ} {d : ColumnDef}
    (hd : schema[i]? = some d) : ∃ column, (schema.map (newColumn dataDir name))[i]? = some column ∧
      column.filePath = columnPath dataDir name d.name :=
  ⟨newColumn dataDir name d, by simp [hd], rfl⟩

/-- A new table is isolated only when its names are apart. -/
theorem Apart.namesApart (h : Apart e) {s : Statement}
    (hisolated : ∀ e' o, Executor.exec p e s = .ok (e', o) → Isolated p e') : NamesApart e s := by
  intro htype hname hnew schema hschema
  by_cases hne : schema = []
  · subst hne
    simp
  obtain ⟨m, hinit, -, -⟩ := init_spec e.dataDir s.createStmt.tableName e.disk hne
  generalize hname' : s.createStmt.tableName = name at *
  have hexec : Executor.exec p e s = .ok (e.setTable name
      ⟨name, schema, schema.map (newColumn e.dataDir name), m⟩ e.disk, ⟨.returned 0 none, []⟩) := by
    subst hname'
    simp only [Executor.exec, htype, execCreate_of_init hname hnew hschema hinit]
  have hiso := (hisolated _ _ hexec).injective
  have hself := setTable_same e name ⟨name, schema, schema.map (newColumn e.dataDir name), m⟩ e.disk
  constructor
  · rw [List.nodup_iff_injective_get]
    rintro ⟨i, hi⟩ ⟨j, hj⟩ heq
    rw [List.length_map] at hi hj
    obtain ⟨c, hc, hpath⟩ := exists_newColumn e.dataDir name (List.getElem?_eq_getElem hi)
    obtain ⟨c', hc', hpath'⟩ := exists_newColumn e.dataDir name (List.getElem?_eq_getElem hj)
    have heq' : schema[i].name = schema[j].name := by simpa using heq
    exact Fin.ext (hiso _ _ _ _ _ _ _ _ hself hself hc hc' (by rw [hpath, hpath', heq'])).2
  · intro name' t ht d hd d' hd' heq
    have hother : name' ≠ name := by
      rintro rfl
      rw [hnew] at ht
      cases ht
    obtain ⟨i, hi⟩ := List.mem_iff_getElem?.mp hd
    obtain ⟨j, hj⟩ := List.mem_iff_getElem?.mp hd'
    obtain ⟨c, hc, hpath⟩ := exists_newColumn e.dataDir name hi
    obtain ⟨c', hc', hpath'⟩ := h.exists_column ht hj
    have hpaths : c.filePath = c'.filePath := by rw [hpath, hpath', columnPath_eq_iff, heq]
    exact hother (hiso _ _ _ _ _ _ _ _ hself ((setTable_ne e _ _ hother).trans ht) hc hc' hpaths).1.symm

/-- `T` with a column `A_B` and `T_A` with a column `B` have one file between them. -/
def sharedName : List Text :=
  [str "CREATE TABLE T (A_B INT)", str "CREATE TABLE T_A (B INT)",
    str "INSERT INTO T VALUES (1)"]

end FlexQL.Executor
