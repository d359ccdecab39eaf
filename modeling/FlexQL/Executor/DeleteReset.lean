import FlexQL.Executor.Lookalike
import FlexQL.Executor.Reachable

/-!
# Does a DELETE reset a table?

`Table::clear` resets the columns and leaves the index. So behind a `DELETE` a table behaves like a
new one as long as it has no index, or nothing was ever inserted. The files keep their bytes, which
shows when a reader runs over the end of a page: a page of a `FLOAT` column takes 1022 items, and a
reader expects 511.
-/

namespace FlexQL.Executor

open ByteMemory Text Table Runs Fallible

variable {p : Platform} {e e' : Executor} {t t' : Table}

/-- The results of a sequence of statements. -/
def outcomes (p : Platform) : Executor → List Statement → Except Fault (List Outcome)
  | _, [] => .ok []
  | e, s :: rest => do
    let (e, o) ← exec p e s
    let os ← outcomes p e rest
    return o :: os

/-- Run one statement, whatever its result. -/
def execStep (p : Platform) (e : Executor) (s : Statement) : Except Fault Executor := do
  let (e, _) ← exec p e s
  return e

/-- No page of the table holds more items than its reader expects. -/
def InPages (t : Table) (disk : Disk) : Prop :=
  ∀ (j : ℕ) d column, t.schema[j]? = some d → t.columns[j]? = some column →
    ∀ q < column.numPages,
      numItems (disk.columns column.filePath) (pageOffset q) * d.type.readSize ≤ 4088

/-- The condition for the tables that a statement reads. -/
def ReadsInPages (e : Executor) (s : Statement) : Prop :=
  s.type = .select → ∀ name ∈ [s.selectStmt.tableName, s.selectStmt.join.table], ∀ t,
    e.getTable name = .ok t → InPages t e.disk

theorem InPages.readsWithin {disk : Disk} (h : InPages t disk) (rid : ℕ) :
    ReadsWithin t disk rid := by
  intro j d column hd hcolumn q hq
  have hpos : 0 < d.type.readSize := lt_of_lt_of_le (by omega) (readSize_ge d.type)
  rw [ColumnReader.slotSize_eq hpos]
  exact (Nat.mul_le_mul_right _ (Nat.min_le_right _ _)).trans (h j d column hd hcolumn q hq)

/-! ## Executors that look alike -/

/-- Two tables that cannot be told apart. -/
structure SameTable (disk disk' : Disk) (t t' : Table) : Prop where
  alike : Table.Alike t t'
  agree : FilesAgree t 0 disk disk'
  schema_ne : t.schema ≠ []

/-- Executors whose tables cannot be told apart. -/
def Alike (e e' : Executor) : Prop :=
  ∀ name, Option.Rel (SameTable e.disk e'.disk) (e.tables name) (e'.tables name)

theorem SameTable.tablesAgree {disk disk' : Disk} (h : SameTable disk disk' t t') :
    TablesAgree t t' disk disk' := ⟨h.alike.columns, h.agree, h.alike.length_eq⟩

/-- The table with a name, in both executors. -/
theorem Alike.getTable (h : Alike e e') (name : Text) :
    (∃ err, e.getTable name = .error err ∧ e'.getTable name = .error err) ∨
    ∃ t t', e.getTable name = .ok t ∧ e'.getTable name = .ok t' ∧
      SameTable e.disk e'.disk t t' := by
  have hrel := h (upper name)
  simp only [Executor.getTable]
  generalize e.tables (upper name) = x at hrel
  generalize e'.tables (upper name) = y at hrel
  cases hrel with
  | none => exact Or.inl ⟨_, rfl, rfl⟩
  | some hsame => exact Or.inr ⟨_, _, rfl, rfl, hsame⟩

theorem Alike.execSelect (h : Alike e e') {s : SelectStmt}
    (hin : ∀ name ∈ [s.tableName, s.join.table], ∀ t, e.getTable name = .ok t → InPages t e.disk) :
    execSelect p e s = execSelect p e' s := by
  simp only [Executor.execSelect]
  rcases h.getTable s.tableName with ⟨err, hl, hr⟩ | ⟨t, t', hl, hr, hsame⟩
  · simp only [hl, hr]
  · have hagree := hsame.tablesAgree
    have hwithin := (hin s.tableName (by simp) t hl).readsWithin
    have hschema := hagree.alike.schema_eq
    have hindex := resultIndex_congr none none hschema rfl
    have hunknown : unknownColumn t s.columns = unknownColumn t' s.columns := by
      simp only [unknownColumn, hschema]
    simp only [hl, hr, ← hunknown, ← hagree.indexLookup_eq (p := p) hsame.alike.index_eq hwithin,
      ← hagree.scan_eq (p := p) hwithin hsame.schema_ne, ← emit_congr (p := p) hindex]
    rcases h.getTable s.join.table with ⟨err, hl2, hr2⟩ | ⟨u, u', hl2, hr2, hsame2⟩
    · simp only [hl2, hr2]
    · have hagree2 := hsame2.tablesAgree
      have hwithin2 := (hin s.join.table (by simp) u hl2).readsWithin
      have hindex2 := resultIndex_congr (some u) (some u') hschema
        (congrArg some hagree2.alike.schema_eq)
      simp only [hl2, hr2, ← hagree.join_eq (p := p) hagree2 hwithin hwithin2,
        ← filterRows_congr hindex2, ← emit_congr (p := p) hindex2]

/-- The loop over the tuples, on both tables. -/
theorem insertTuples_alike {disk disk' : Disk} (h : Table.Alike t t')
    (hagree : FilesAgree t 0 disk disk') (ts : List Text) :
    Lockstep (fun _ => True) (fun r r' => Table.Alike r.1 r'.1 ∧
        FilesAgree r.1 0 r.2.1 r'.2.1 ∧ DisksKeep disk disk' r.2.1 r'.2.1 ∧
        r.1.schema = t.schema ∧ r.2.2 = r'.2.2)
      (insertTuples p ts t disk) (insertTuples p ts t' disk') := by
  induction ts generalizing t t' disk disk' with
  | nil => exact .ok ⟨h, hagree, fun _ _ ha => ha, rfl, rfl⟩
  | cons tuple ts ih =>
    simp only [insertTuples, h.columns.schema_eq]
    cases parseTuple p t.schema tuple with
    | error f => exact .error trivial
    | ok parsed =>
      cases parsed with
      | error exn => exact .ok ⟨h, hagree, fun _ _ ha => ha, rfl, rfl⟩
      | ok row =>
        refine (h.insertRow hagree row).bind ?_
        rintro ⟨u, d⟩ ⟨u', d'⟩ ⟨hmoved, halike⟩
        refine (ih halike hmoved.agree).mono (fun _ _ => trivial) ?_
        rintro r r' ⟨h1, h2, h3, h4, h5⟩
        exact ⟨h1, h2, hmoved.keeps.trans h3, h4.trans hmoved.schema_eq, h5⟩

theorem Alike.setTable (h : Alike e e') (name : Text) {disk disk' : Disk}
    (hkeeps : DisksKeep e.disk e'.disk disk disk') (hsame : SameTable disk disk' t t') :
    Alike (e.setTable name t disk) (e'.setTable name t' disk') := by
  intro name'
  by_cases hname : name' = name
  · subst hname
    rw [setTable_same, setTable_same]
    exact .some hsame
  · rw [setTable_ne _ _ _ hname, setTable_ne _ _ _ hname]
    have hrel := h name'
    generalize e.tables name' = x at hrel
    generalize e'.tables name' = y at hrel
    cases hrel with
    | none => exact .none
    | some hold => exact .some ⟨hold.alike, hkeeps.filesAgree hold.agree, hold.schema_ne⟩

theorem Alike.execInsert (h : Alike e e') (s : InsertStmt) :
    Lockstep (fun _ => True) (fun r r' => Alike r.1 r'.1 ∧ r.2 = r'.2) (execInsert p e s)
      (execInsert p e' s) := by
  simp only [Executor.execInsert]
  rcases h.getTable s.tableName with ⟨err, hl, hr⟩ | ⟨t, t', hl, hr, hsame⟩
  · simp only [hl, hr]
    exact .ok ⟨h, rfl⟩
  · simp only [hl, hr]
    refine (insertTuples_alike (p := p) hsame.alike hsame.agree (tuples s.rawValues)).bind ?_
    rintro ⟨u, d, result⟩ ⟨u', d', result'⟩ ⟨halike, hagree, hkeeps, hschema, hresult⟩
    have hne : u.schema ≠ [] := by
      rw [show u.schema = t.schema from hschema]
      exact hsame.schema_ne
    exact .ok ⟨h.setTable _ hkeeps ⟨halike, hagree, hne⟩, congrArg (Outcome.mk · []) hresult⟩

/-- The same statements have the same results. -/
theorem Alike.outcomes {later : List Statement}
    (hlater : ∀ s ∈ later, s.type = .insert ∨ s.type = .select) (h : Alike e e')
    (hguard : Guarded (execStep p) ReadsInPages e later) :
    outcomes p e later = outcomes p e' later := by
  induction later generalizing e e' with
  | nil => rfl
  | cons s later ih =>
    have hstep : Lockstep (fun _ => True) (fun r r' => Alike r.1 r'.1 ∧ r.2 = r'.2)
        (exec p e s) (exec p e' s) := by
      simp only [Executor.exec]
      rcases hlater s List.mem_cons_self with htype | htype
      · simp only [htype]
        exact h.execInsert s.insertStmt
      · simp only [htype, h.execSelect (p := p) (hguard.1 htype)]
        cases Executor.execSelect p e' s.selectStmt with
        | error f => exact .error trivial
        | ok o => exact .ok ⟨h, rfl⟩
    have hrest := hguard.2
    simp only [execStep] at hrest
    simp only [Executor.outcomes]
    generalize exec p e s = x at hstep hrest
    generalize exec p e' s = y at hstep
    cases hstep with
    | error _ => rfl
    | @ok r r' hr =>
      obtain ⟨e₁, o⟩ := r
      obtain ⟨e₁', o'⟩ := r'
      obtain ⟨halike, heq⟩ := hr
      dsimp only at heq halike
      subst heq
      have := ih (fun s' hs' => hlater s' (List.mem_cons_of_mem _ hs')) halike (hrest e₁ rfl)
      simp only [this, Bind.bind, Except.bind]

/-! ## The history of a table -/

/-- Run one `INSERT`, whatever its result. -/
def insertStmtStep (p : Platform) (e : Executor) (s : InsertStmt) : Except Fault Executor := do
  let (e, _) ← execInsert p e s
  return e

/-- No other table keeps a column in a file of the table. -/
def OwnFiles (e : Executor) (name : Text) : Prop :=
  ∀ t name' u, e.tables name = some t → name' ≠ name → e.tables name' = some u →
    ∀ column ∈ u.columns, column.filePath ∉ t.columns.map ColumnStore.filePath

/-- The executor behind insertions into one table. -/
structure GrownAt (name : Text) (t : Table) (e e' : Executor) : Prop where
  table : ∃ t', e'.tables name = some t' ∧ Grown t e.disk (t', e'.disk)
  others : ∀ name' ≠ name, e'.tables name' = e.tables name'

theorem GrownAt.refl (name : Text) (ht : t.Sound) (h : e.tables name = some t) :
    GrownAt name t e e := ⟨⟨t, h, .refl ht _⟩, fun _ _ => rfl⟩

theorem GrownAt.insert {name : Text} {e'' : Executor} (h : GrownAt name t e e') {s : InsertStmt}
    (hname : upper s.tableName = name) (hstep : insertStmtStep p e' s = .ok e'') :
    GrownAt name t e e'' := by
  obtain ⟨⟨u, hu, hgrown⟩, hothers⟩ := h
  have hget : e'.getTable s.tableName = .ok u := getTable_eq_ok.mpr (hname ▸ hu)
  cases hins : insertTuples p (tuples s.rawValues) u e'.disk with
  | error f => simp [insertStmtStep, execInsert, hget, hins, Bind.bind, Except.bind] at hstep
  | ok r =>
    simp only [insertStmtStep, execInsert, hget, hins, Bind.bind, Except.bind, Pure.pure,
      Except.pure] at hstep
    cases hstep
    rw [hname]
    refine ⟨⟨r.1, setTable_same .., hgrown.trans (insertTuples_grown hgrown.sound hins)⟩, ?_⟩
    intro name' hne
    rw [setTable_ne _ _ _ hne]
    exact hothers name' hne

theorem GrownAt.run {name : Text} {e'' : Executor} (h : GrownAt name t e e')
    {history : List InsertStmt} (hnames : ∀ s ∈ history, upper s.tableName = name)
    (hrun : run (insertStmtStep p) e' history = .ok e'') : GrownAt name t e e'' := by
  induction history generalizing e' with
  | nil =>
    cases hrun
    exact h
  | cons s history ih =>
    cases hstep : insertStmtStep p e' s with
    | error f => simp [Runs.run_cons_of_error _ hstep] at hrun
    | ok e₁ =>
      rw [run_cons_of_ok history hstep] at hrun
      exact ih (h.insert (hnames s List.mem_cons_self) hstep)
        (fun s' hs' => hnames s' (List.mem_cons_of_mem _ hs')) hrun

/-- A table that was created, and the executor behind that. -/
theorem execCreate_new {s : CreateStmt} {o : Outcome} (hnew : e.tables s.tableName = none)
    (hcreate : execCreate e s = .ok (e', o)) (hresult : o.result = .returned 0 none) :
    ∃ schema t, Table.init e.dataDir s.tableName schema e.disk = .ok t ∧
      e' = e.setTable s.tableName t e.disk := by
  rcases execCreate_cases hcreate with ⟨-, hold⟩ | ⟨schema, t, -, -, -, ht, he'⟩
  · rcases hold with hold | hold
    · rw [hold] at hresult
      cases hresult
    · simp [hnew] at hold
  · exact ⟨schema, t, ht, he'⟩

/-! ## A cleared table -/

/-- A column store as a constructor leaves it, but for its cache. -/
structure IsNew (s : ColumnStore) : Prop where
  numPages_eq : s.numPages = 0
  totalRows_eq : s.totalRows = 0
  activePage_eq : s.activePage = none
  activePageIdx_eq : s.activePageIdx = noPage

theorem clear_isNew (s : ColumnStore) : IsNew s.clear := ⟨rfl, rfl, rfl, rfl⟩

theorem init_columns_isNew {dataDir name : Text} {schema : Schema} {disk : Disk}
    (h : Table.init dataDir name schema disk = .ok t) : ∀ column ∈ t.columns, IsNew column := by
  obtain ⟨m, rfl, -, -⟩ := init_cases h
  intro column hcolumn
  obtain ⟨d, -, rfl⟩ := List.mem_map.mp hcolumn
  exact ⟨rfl, rfl, rfl, rfl⟩

theorem alike_clear {columns columns' : List ColumnStore}
    (hpaths : columns.map ColumnStore.filePath = columns'.map ColumnStore.filePath)
    (hnew : ∀ column ∈ columns', IsNew column) :
    List.Forall₂ ColumnStore.Alike (columns.map ColumnStore.clear) columns' := by
  induction columns generalizing columns' with
  | nil =>
    obtain rfl : columns' = [] := by simpa using hpaths
    exact .nil
  | cons c columns ih =>
    cases columns' with
    | nil => simp at hpaths
    | cons c' columns' =>
      simp only [List.map_cons, List.cons.injEq] at hpaths
      have hc' := hnew c' List.mem_cons_self
      refine .cons ⟨⟨Nat.zero_le _, Or.inl rfl⟩, hpaths.1.symm, hc'.numPages_eq, hc'.totalRows_eq,
        hc'.activePage_eq, hc'.activePageIdx_eq⟩ ?_
      exact ih hpaths.2 fun c'' hc'' => hnew c'' (List.mem_cons_of_mem _ hc'')

/-- Behind a `DELETE`, an executor looks as it did when the table was new. -/
theorem GrownAt.alike_delete {name : Text} (h : GrownAt name t e e') (hsound : e.Sound)
    (ht : e.tables name = some t) (hnew : ∀ column ∈ t.columns, IsNew column)
    (hown : OwnFiles e name) {t' : Table} (ht' : e'.tables name = some t')
    (hindex : ¬ (t'.HasIndex ∧ t'.Started)) :
    Alike (e'.setTable name t'.clear e'.disk) e := by
  obtain ⟨⟨u, hu, hgrown⟩, hothers⟩ := h
  obtain rfl : u = t' := Option.some.inj (hu.symm.trans ht')
  intro name'
  by_cases hname : name' = name
  · subst hname
    rw [setTable_same, ht]
    have hu := hgrown.sound
    refine .some ⟨⟨⟨hgrown.schema_eq.symm, alike_clear hgrown.paths_eq hnew⟩, ?_, ?_⟩, ?_, hu.schema_ne⟩
    · exact hu.clear.length_eq
    · change t.indexManager = u.indexManager
      by_cases hid : t.HasIndex
      · rcases hgrown.started hid with heq | hstarted
        · rw [show u = t from congrArg Prod.fst heq]
        · exact absurd ⟨(hasIndex_congr hgrown.schema_eq).mpr hid, hstarted⟩ hindex
      · exact (hgrown.index_eq hid).symm
    · intro j column _ hcolumn a ha
      obtain ⟨c, -, rfl⟩ := List.mem_map.mp (List.mem_of_getElem? hcolumn)
      rw [(clear_isNew c).numPages_eq, Nat.zero_mul] at ha
      exact absurd ha (Nat.not_lt_zero a)
  · rw [setTable_ne _ _ _ hname, hothers name' hname]
    cases hv : e.tables name' with
    | none => exact .none
    | some v =>
      have hvsound := hsound name' v hv
      refine .some ⟨⟨.refl hvsound.inUse, hvsound.length_eq, rfl⟩, ?_, hvsound.schema_ne⟩
      intro j column _ hcolumn a _
      have hout := hown t name' v ht hname hv column (List.mem_of_getElem? hcolumn)
      exact congrFun (hgrown.outside column.filePath hout) a

/-! ## Queries on an empty table -/

theorem emit_nil (t : Table) (t2 : Option Table) (s : SelectStmt) :
    (emit p t t2 s []).rows = [] := by
  rw [emit, orderRows_short (by simp), List.map_nil]

theorem scan_empty {disk : Disk} (h : t.totalRows 0 = .ok 0) (s : SelectStmt) :
    scan p t disk s = .ok (emit p t none s []) := by
  simp only [scan, h, List.range_zero, materializeRows, filterRows, Bind.bind, Except.bind,
    Pure.pure, Except.pure]

theorem join_empty {disk : Disk} {u : Table} {col1 col2 : Text} {rows : List Row}
    (h : ∀ (c : ℕ) d, t.schema[c]? = some d → t.totalRows c = .ok 0)
    (hjoin : HashJoin.join p t u disk col1 col2 = .ok rows) : rows = [] := by
  unfold HashJoin.join at hjoin
  cases hc1 : columnIndex t.schema col1 with
  | none =>
    simp only [hc1] at hjoin
    cases hjoin
    rfl
  | some c1 =>
    cases hc2 : columnIndex u.schema col2 with
    | none =>
      simp only [hc1, hc2] at hjoin
      cases hjoin
      rfl
    | some c2 =>
      obtain ⟨d, hd⟩ := columnIndex_getElem? hc1
      simp only [hc1, hc2, h c1 d hd, List.range_zero, HashJoin.probe, Bind.bind,
        Except.bind] at hjoin
      split at hjoin
      · cases hjoin
      · split at hjoin
        · cases hjoin
        · cases hjoin
          rfl

/-- A query on a table without rows, whose index leads nowhere, emits nothing. -/
theorem execSelect_empty {s : SelectStmt} {o : Outcome} (ht : e.getTable s.tableName = .ok t)
    (hne : t.schema ≠ []) (hrows : ∀ (c : ℕ) d, t.schema[c]? = some d → t.totalRows c = .ok 0)
    (hindex : ∀ row, indexLookup p t e.disk s ≠ .ok (some row))
    (hselect : execSelect p e s = .ok o) : o.rows = [] := by
  have hzero : t.totalRows 0 = .ok 0 := hrows 0 (t.schema.head hne) (by
    rw [← List.head?_eq_getElem?, List.head?_eq_some_head hne])
  simp only [Executor.execSelect, ht, scan_empty hzero] at hselect
  split at hselect
  · cases hselect
    rfl
  · cases hlookup : indexLookup p t e.disk s with
    | error f => simp [hlookup, Bind.bind, Except.bind] at hselect
    | ok found =>
      cases found with
      | some row => exact absurd hlookup (hindex row)
      | none =>
        simp only [hlookup, Bind.bind, Except.bind] at hselect
        split at hselect
        · split at hselect
          · cases hselect
            rfl
          · rename_i u _
            cases hjoin : HashJoin.join p t u e.disk s.join.onLeft s.join.onRight with
            | error f => simp [hjoin] at hselect
            | ok rows =>
              obtain rfl := join_empty hrows hjoin
              simp only [hjoin, filterRows, Pure.pure, Except.pure] at hselect
              cases hselect
              exact emit_nil t _ s
        · cases hselect
          exact emit_nil t none s

/-- The index of a new table leads nowhere. -/
theorem indexLookup_of_init {dataDir name : Text} {schema : Schema} {disk disk' : Disk}
    (h : Table.init dataDir name schema disk = .ok t) (hindex : t'.indexManager = t.indexManager)
    (s : SelectStmt) (row : Row) : indexLookup p t' disk' s ≠ .ok (some row) := by
  have hne : schema ≠ [] := by
    rintro rfl
    simp [Table.init, initColumns, Bind.bind, Except.bind] at h
  obtain ⟨m, hok, hholds, hno⟩ := init_spec dataDir name disk hne
  rw [hok] at h
  cases h
  dsimp only at hindex
  simp only [indexLookup, hindex]
  split
  · simp
  · split
    · simp
    · rename_i id _
      by_cases hid : schema.head?.map ColumnDef.name = some idName
      · obtain ⟨d, hd, hname⟩ := Option.map_eq_some_iff.mp hid
        obtain ⟨tree, htree, htreeHolds⟩ := hholds ⟨d, by rwa [← List.head?_eq_getElem?], hname⟩
        obtain ⟨r, tree', hsearch, -, hsound⟩ := htreeHolds.search_sound id.toNat
        cases r with
        | some rid => exact absurd (hsound rid rfl) (by simp)
        | none =>
          dsimp only at htree
          simp [htree, hsearch, Bind.bind, Except.bind, Pure.pure, Except.pure]
      · rw [hno hid]
        simp [IndexManager.getIndex, IndexManager.init]

theorem totalRows_clear (hlen : t.columns.length = t.schema.length) {c : ℕ} {d : ColumnDef}
    (hd : t.clear.schema[c]? = some d) : t.clear.totalRows c = .ok 0 := by
  have hc : c < t.columns.length := hlen ▸ (List.getElem?_eq_some_iff.mp hd).1
  simp only [Table.totalRows, getColumn, clear, List.getElem?_map, List.getElem?_eq_getElem hc,
    Option.map_some]
  rfl

/-! ## Main result -/

/-- Behind the `DELETE`, later statements have the results that they have on the new table, and a
query that follows at once emits nothing. -/
def ResetBy (p : Platform) (e₁ e₂ : Executor) (d : DeleteStmt) (later : List Statement) : Prop :=
  outcomes p (execDelete e₂ d).1 later = outcomes p e₁ later ∧
  ∀ q o, upper q.tableName = upper d.tableName → execSelect p (execDelete e₂ d).1 q = .ok o →
    o.rows = []

/-- A `DELETE` resets a table whose index has no entry, or that has none. -/
theorem delete_resets (p : Platform) (e₀ e₁ e₂ : Executor) (h₀ : Reachable p e₀)
    (c : CreateStmt) (o : Outcome) (hnew : e₀.tables c.tableName = none)
    (hcreate : execCreate e₀ c = .ok (e₁, o)) (hresult : o.result = .returned 0 none)
    (hown : OwnFiles e₁ c.tableName) (history : List InsertStmt)
    (hhistory : ∀ s ∈ history, upper s.tableName = c.tableName)
    (hrun : run (insertStmtStep p) e₁ history = .ok e₂) (d : DeleteStmt)
    (hd : upper d.tableName = c.tableName)
    (hindex : ∀ t, e₂.tables c.tableName = some t → ¬ (t.HasIndex ∧ t.Started))
    (later : List Statement) (hlater : ∀ s ∈ later, s.type = .insert ∨ s.type = .select)
    (hguard : Guarded (execStep p) ReadsInPages (execDelete e₂ d).1 later) :
    ResetBy p e₁ e₂ d later := by
  obtain ⟨schema, t₁, hinit, rfl⟩ := execCreate_new hnew hcreate hresult
  have hsound₁ := init_sound _ _ hinit
  have hsound := h₀.sound.setTable c.tableName hsound₁ e₀.disk
  have ht₁ : (e₀.setTable c.tableName t₁ e₀.disk).tables c.tableName = some t₁ := setTable_same ..
  have hgrown := (GrownAt.refl c.tableName hsound₁ ht₁).run hhistory hrun
  obtain ⟨t₂, ht₂, hgrown₂⟩ := hgrown.table
  have halike := hgrown.alike_delete hsound ht₁ (init_columns_isNew hinit) hown ht₂ (hindex t₂ ht₂)
  have hget : e₂.getTable d.tableName = .ok t₂ := getTable_eq_ok.mpr (hd ▸ ht₂)
  have hdelete : (execDelete e₂ d).1 = e₂.setTable c.tableName t₂.clear e₂.disk := by
    simp only [execDelete, hget, hd]
  rw [ResetBy, hdelete]
  rw [hdelete] at hguard
  refine ⟨halike.outcomes hlater hguard, ?_⟩
  intro q o hq hselect
  have hsame := halike c.tableName
  rw [setTable_same, ht₁] at hsame
  cases hsame with
  | some hsame =>
    have hgetq : (e₂.setTable c.tableName t₂.clear e₂.disk).getTable q.tableName = .ok t₂.clear := by
      rw [getTable_eq_ok, hq, hd, setTable_same]
    exact execSelect_empty hgetq hsame.schema_ne
      (fun _ _ hc => totalRows_clear hgrown₂.sound.length_eq hc)
      (indexLookup_of_init hinit hsame.alike.index_eq.symm q) hselect

theorem readsInPages_of_isNew (h : ∀ name t, e.tables name = some t → ∀ column ∈ t.columns, IsNew column)
    (s : Statement) : ReadsInPages e s := by
  intro _ name _ t ht j d column _ hcolumn q hq
  rw [(h _ t (getTable_eq_ok.mp ht) column (List.mem_of_getElem? hcolumn)).numPages_eq] at hq
  exact absurd hq (Nat.not_lt_zero q)

theorem delete_resets_without_index :
    ∃ e₁ o e₂, execCreate (init (str "data") .blank) ⟨str "T", [⟨str "K", str "INT"⟩]⟩ = .ok (e₁, o) ∧
      run (insertStmtStep .reference) e₁ [⟨str "T", str "(1)"⟩] = .ok e₂ ∧
      ResetBy .reference e₁ e₂ ⟨str "T"⟩ [Parser.parse (str "SELECT K FROM T")] := by
  obtain ⟨⟨e₁, o⟩, he₁⟩ := exists_of_isOk
    (x := execCreate (init (str "data") .blank) ⟨str "T", [⟨str "K", str "INT"⟩]⟩) (by decide)
  have hrun : (do
      let r ← execCreate (init (str "data") .blank) ⟨str "T", [⟨str "K", str "INT"⟩]⟩
      let e ← run (insertStmtStep .reference) r.1 [⟨str "T", str "(1)"⟩]
      return (r.2.result, (e.tables (str "T")).map Table.schema)) =
      .ok (.returned 0 none, some [⟨str "K", .decimal⟩]) := by decide +kernel
  simp only [he₁, Bind.bind, Except.bind] at hrun
  cases he₂ : run (insertStmtStep .reference) e₁ [⟨str "T", str "(1)"⟩] with
  | error f => simp [he₂] at hrun
  | ok e₂ =>
    simp only [he₂, Pure.pure, Except.pure, Except.ok.injEq, Prod.mk.injEq] at hrun
    obtain ⟨hresult, hschema⟩ := hrun
    obtain ⟨schema, t₁, hinit, he⟩ := execCreate_new rfl he₁ hresult
    have hempty : ∀ name ≠ str "T", e₁.tables name = none := by
      intro name hname
      rw [he, setTable_ne _ _ _ hname]
      rfl
    have ht₁ : e₁.tables (str "T") = some t₁ := he ▸ setTable_same ..
    have hgrown := (GrownAt.refl (str "T") (init_sound _ _ hinit) ht₁).run (by decide) he₂
    obtain ⟨t₂, ht₂, -⟩ := hgrown.table
    have hget : e₂.getTable (str "T") = .ok t₂ := getTable_eq_ok.mpr ht₂
    refine ⟨e₁, o, e₂, he₁, he₂, ?_⟩
    refine delete_resets .reference _ e₁ e₂ ⟨str "data", .blank, [], rfl⟩ _ o rfl he₁ hresult ?_ _
      (by decide) he₂ ⟨str "T"⟩ (by decide) ?_ _ (by decide) ⟨?_, fun _ _ => trivial⟩
    · intro t name' u _ hne hu
      rw [hempty name' hne] at hu
      cases hu
    · rintro t ht ⟨⟨d, hd, hname⟩, -⟩
      rw [show e₂.tables (str "T") = some t from ht, Option.map_some] at hschema
      rw [Option.some.inj hschema] at hd
      cases hd
      exact absurd hname (by decide)
    · apply readsInPages_of_isNew
      intro name t ht column hcolumn
      have hdelete : (execDelete e₂ ⟨str "T"⟩).1 = e₂.setTable (str "T") t₂.clear e₂.disk := by
        simp only [execDelete, hget]
        rfl
      rw [hdelete] at ht
      by_cases hname : name = str "T"
      · subst hname
        obtain rfl : t₂.clear = t := Option.some.inj ((setTable_same ..).symm.trans ht)
        obtain ⟨column', -, rfl⟩ := List.mem_map.mp hcolumn
        exact clear_isNew column'
      · rw [setTable_ne _ _ _ hname, hgrown.others name hname, hempty name hname] at ht
        cases ht

/-- The row with `ID` 1 is gone, and the index still leads to it: the query emits one row, with an
empty text, where it should emit none. -/
theorem not_resetBy_with_index :
    ∃ e₁ o e₂, execCreate (init (str "data") .blank)
        ⟨str "T", [⟨str "ID", str "INT"⟩, ⟨str "NAME", str "VARCHAR"⟩]⟩ = .ok (e₁, o) ∧
      run (insertStmtStep .reference) e₁ [⟨str "T", str "(1,'a')"⟩] = .ok e₂ ∧
      execSelect .reference (execDelete e₂ ⟨str "T"⟩).1
        (Parser.parse (str "SELECT NAME FROM T WHERE ID = 1")).selectStmt =
          .ok ⟨.returned 0 none, [[[]]]⟩ ∧
      ¬ ResetBy .reference e₁ e₂ ⟨str "T"⟩
        [Parser.parse (str "SELECT NAME FROM T WHERE ID = 1")] := by
  obtain ⟨⟨e₁, o⟩, he₁⟩ := exists_of_isOk (x := execCreate (init (str "data") .blank)
    ⟨str "T", [⟨str "ID", str "INT"⟩, ⟨str "NAME", str "VARCHAR"⟩]⟩) (by decide +kernel)
  have hselect : (do
      let r ← execCreate (init (str "data") .blank)
        ⟨str "T", [⟨str "ID", str "INT"⟩, ⟨str "NAME", str "VARCHAR"⟩]⟩
      let e ← run (insertStmtStep .reference) r.1 [⟨str "T", str "(1,'a')"⟩]
      execSelect .reference (execDelete e ⟨str "T"⟩).1
        (Parser.parse (str "SELECT NAME FROM T WHERE ID = 1")).selectStmt) =
      .ok ⟨.returned 0 none, [[[]]]⟩ := by decide +kernel
  simp only [he₁, Bind.bind, Except.bind] at hselect
  cases he₂ : run (insertStmtStep .reference) e₁ [⟨str "T", str "(1,'a')"⟩] with
  | error f => simp [he₂] at hselect
  | ok e₂ =>
    simp only [he₂] at hselect
    refine ⟨e₁, o, e₂, he₁, he₂, hselect, ?_⟩
    rintro ⟨-, hempty⟩
    exact absurd (hempty _ _ (by decide) hselect) (by simp)

end FlexQL.Executor
