import FlexQL.Executor.Materialize
import FlexQL.Executor.Reachable

/-!
# Do the columns of a table stay aligned?

A row number means the same row in every column as long as every tuple has one value for each
column and no two columns share a file. A column of floating point numbers is read with twice the
size of its items, so what is read there mixes two rows.
-/

namespace FlexQL.Executor

open Text Table Runs Fallible

/-- The row of a tuple of one of the texts that were run, for a table. -/
def FromInsert (p : Platform) (sqls : List Text) (name : Text) (schema : Schema) (row : Row) :
    Prop :=
  ∃ sql ∈ sqls, (Parser.parse sql).type = .insert ∧
    upper (Parser.parse sql).insertStmt.tableName = name ∧
    ∃ tuple ∈ tuples (Parser.parse sql).insertStmt.rawValues,
      parseTuple p schema tuple = .ok (.ok row)

/-- All columns report the same number of rows, and what is read at one row number comes from one
tuple. -/
def AlignedTable (p : Platform) (sqls : List Text) (disk : Disk) (name : Text) (t : Table) : Prop :=
  ∃ rows : List Row, (∀ row ∈ rows, FromInsert p sqls name t.schema row) ∧
    (∀ (c : ℕ) d, t.schema[c]? = some d → t.totalRows c = .ok rows.length) ∧
    ∀ (rid : ℕ) row, rows[rid]? = some row →
      materializeRow p t disk rid = .ok ⟨row.values.map (Value.stored p)⟩

/-- The condition on a statement. -/
structure Careful (e : Executor) (s : Statement) : Prop where
  /-- A tuple has as many values as its table has columns. -/
  arity : s.type = .insert → ∀ t, e.getTable s.insertStmt.tableName = .ok t →
    ∀ tuple ∈ tuples s.insertStmt.rawValues, (getLines (ch ',') tuple).length = t.schema.length
  /-- The columns of a new table have files of their own, and none holds floating point numbers. -/
  create : s.type = .create → e.tables s.createStmt.tableName = none →
    ∀ schema, columnDefs s.createStmt.columns = .ok schema →
      (∀ d ∈ schema, d.type ≠ .float) ∧ (schema.map ColumnDef.name).Nodup ∧
      ∀ name t, e.tables name = some t → (t.columns.map ColumnStore.filePath).Disjoint
        ((schema.map ColumnDef.name).map (columnPath e.dataDir s.createStmt.tableName))

variable {p : Platform} {e e' : Executor} {t : Table} {disk : Disk} {schema : Schema}
  {sqls : List Text} {rows : List Row} {es : List (ℕ × ℕ)}

/-! ## Parsing complete tuples -/

/-- Decimals and texts, the types of the columns of a table without floating point numbers. -/
def Plain (schema : Schema) : Prop := ∀ d ∈ schema, d.type = .decimal ∨ d.type = .varchar

theorem Plain.readable (h : Plain schema) : ∀ d ∈ schema, d.type.Readable := by
  intro d hd
  rcases h d hd with htype | htype <;> rw [htype] <;> rfl

theorem parseValue_type {type : ColumnType} (htype : type = .decimal ∨ type = .varchar)
    {val : Text} {v : Value} (h : parseValue p type val = .ok v) : v.type = type := by
  rcases htype with rfl | rfl
  · simp only [parseValue] at h
    cases hn : stoll (trim isSpace val) with
    | error exn => simp [hn, Bind.bind, Except.bind] at h
    | ok n =>
      simp only [hn, Bind.bind, Except.bind, Pure.pure, Except.pure] at h
      cases h
      rfl
  · cases h
    rfl

/-- A tuple with one value for each column is a row, or a number in it cannot be converted. -/
theorem parseValues_complete (h : Plain schema) {vals : List Text}
    (hlen : vals.length = schema.length) :
    (∃ exn, parseValues p schema vals = .ok (.error exn)) ∨
    ∃ vs, parseValues p schema vals = .ok (.ok vs) ∧
      vs.map Value.type = schema.map ColumnDef.type := by
  induction schema generalizing vals with
  | nil =>
    obtain rfl : vals = [] := List.length_eq_zero_iff.mp hlen
    exact Or.inr ⟨[], rfl, rfl⟩
  | cons d schema ih =>
    cases vals with
    | nil => simp at hlen
    | cons val vals =>
      have hrest := ih (fun d' hd' => h d' (List.mem_cons_of_mem _ hd')) (by simpa using hlen)
      simp only [parseValues]
      cases hv : parseValue p d.type val with
      | error exn => exact Or.inl ⟨exn, rfl⟩
      | ok v =>
        rcases hrest with ⟨exn, hexn⟩ | ⟨vs, hvs, htypes⟩
        · exact Or.inl ⟨exn, by simp only [hexn, Bind.bind, Except.bind, Pure.pure, Except.pure]⟩
        · refine Or.inr ⟨v :: vs, ?_, ?_⟩
          · simp only [hvs, Bind.bind, Except.bind, Pure.pure, Except.pure]
          · rw [List.map_cons, List.map_cons, htypes,
              parseValue_type (h d List.mem_cons_self) hv]

theorem parseTuple_complete (h : Plain schema) {tuple : Text}
    (hlen : (getLines (ch ',') tuple).length = schema.length) :
    (∃ exn, parseTuple p schema tuple = .ok (.error exn)) ∨
    ∃ row, parseTuple p schema tuple = .ok (.ok row) ∧ RowFull schema row := by
  rcases parseValues_complete (p := p) h hlen with ⟨exn, hexn⟩ | ⟨vs, hvs, htypes⟩
  · exact Or.inl ⟨exn, by simp only [parseTuple, hexn, Bind.bind, Except.bind, Pure.pure, Except.pure]⟩
  · exact Or.inr ⟨⟨vs⟩, by simp only [parseTuple, hvs, Bind.bind, Except.bind, Pure.pure, Except.pure],
      htypes⟩

/-! ## The loop over complete tuples -/

/-- The rows of complete tuples are appended, up to the first that cannot be converted. -/
theorem insertTuples_holds (h : HoldsRows t disk rows es) (hplain : Plain t.schema)
    {ts : List Text} (hts : ∀ tuple ∈ ts, (getLines (ch ',') tuple).length = t.schema.length) :
    Ends (fun f => f = .unmapped)
      (fun r => ∃ new es', HoldsRows r.1 r.2.1 (rows ++ new) es' ∧ Frame t disk r.1 r.2.1 ∧
        ∀ row ∈ new, RowFull t.schema row ∧ ∃ tuple ∈ ts, parseTuple p t.schema tuple = .ok (.ok row))
      (insertTuples p ts t disk) := by
  induction ts generalizing t disk rows es with
  | nil => exact .ok ⟨[], es, by rwa [List.append_nil], Frame.refl t disk, by simp⟩
  | cons tuple ts ih =>
    rw [insertTuples]
    rcases parseTuple_complete (p := p) hplain (hts tuple List.mem_cons_self) with
      ⟨exn, hparse⟩ | ⟨row, hparse, hfull⟩
    · simp only [hparse, Bind.bind, Except.bind, Pure.pure, Except.pure]
      exact .ok ⟨[], es, by rwa [List.append_nil], Frame.refl t disk, by simp⟩
    · simp only [hparse, Bind.bind, Except.bind]
      rcases h.insertRow (hfull.rowFits h.schema_ne) with herr | ⟨t', disk', hok, h', hframe⟩
      · simp only [herr]
        exact .error rfl
      · simp only [hok]
        have hschema := hframe.schema_eq
        refine (ih h' (hschema ▸ hplain) fun tuple' htuple =>
          hschema ▸ hts tuple' (List.mem_cons_of_mem _ htuple)).mono (fun _ hf => hf) ?_
        rintro r ⟨new, es', hr, hframe', hnew⟩
        refine ⟨row :: new, es', by simpa using hr, hframe.trans hframe', ?_⟩
        intro row' hrow'
        rcases List.mem_cons.mp hrow' with rfl | hrow'
        · exact ⟨hfull, tuple, List.mem_cons_self, hparse⟩
        · obtain ⟨hfull', tuple', htuple', hparse'⟩ := hnew row' hrow'
          exact ⟨hschema ▸ hfull', tuple', List.mem_cons_of_mem _ htuple', hschema ▸ hparse'⟩

/-! ## The invariant -/

/-- A table holds rows of tuples that were run. -/
def Filed (p : Platform) (sqls : List Text) (disk : Disk) (name : Text) (t : Table) : Prop :=
  Plain t.schema ∧ ∃ rows es, HoldsRows t disk rows es ∧
    ∀ row ∈ rows, RowFull t.schema row ∧ FromInsert p sqls name t.schema row

/-- All tables hold rows of tuples that were run, in files of their own. -/
structure Aligned (p : Platform) (sqls : List Text) (e : Executor) : Prop where
  filed : ∀ name t, e.tables name = some t → Filed p sqls e.disk name t
  apart : ∀ name name' t t', name ≠ name' → e.tables name = some t → e.tables name' = some t' →
    (t.columns.map ColumnStore.filePath).Disjoint (t'.columns.map ColumnStore.filePath)

theorem FromInsert.mono {sqls' : List Text} (h : ∀ sql ∈ sqls, sql ∈ sqls') {name : Text} {row : Row}
    (hrow : FromInsert p sqls name schema row) : FromInsert p sqls' name schema row := by
  obtain ⟨sql, hsql, hrest⟩ := hrow
  exact ⟨sql, h sql hsql, hrest⟩

theorem Filed.mono {sqls' : List Text} (h : ∀ sql ∈ sqls, sql ∈ sqls') {name : Text}
    (hfiled : Filed p sqls disk name t) : Filed p sqls' disk name t := by
  obtain ⟨hplain, rows, es, hholds, hrows⟩ := hfiled
  exact ⟨hplain, rows, es, hholds, fun row hrow => ⟨(hrows row hrow).1, (hrows row hrow).2.mono h⟩⟩

/-- A table depends on its own files only. -/
theorem HoldsRows.congr_disk {disk' : Disk} (h : HoldsRows t disk rows es)
    (hdisk : ∀ column ∈ t.columns,
      disk'.columns column.filePath = disk.columns column.filePath) : HoldsRows t disk' rows es where
  schema_ne := h.schema_ne
  columns := ⟨h.columns.length_eq, h.columns.nodup, fun i d column hd hcolumn => by
    have hc := h.columns.column i d column hd hcolumn
    exact ⟨by rw [hdisk column (List.mem_of_getElem? hcolumn)]; exact hc.holds, hc.size_eq⟩⟩
  fits := h.fits
  index := h.index

theorem Filed.alignedTable {name : Text} (h : Filed p sqls disk name t) :
    AlignedTable p sqls disk name t := by
  obtain ⟨hplain, rows, es, hholds, hrows⟩ := h
  refine ⟨rows, fun row hrow => (hrows row hrow).2, ?_, ?_⟩
  · intro c d hd
    have hc := (List.getElem?_eq_some_iff.mp hd).1
    rw [totalRows_eq hholds.columns hd, columnItems_length]
    intro row hrow
    rwa [(hrows row hrow).1.length_eq]
  · intro rid row hrow
    exact materializeRow_eq hholds hplain.readable (fun r hr => (hrows r hr).1) hrow

/-- A step on one table that leaves the files of the others alone. -/
theorem Aligned.setTable (h : Aligned p sqls e) {name : Text} {t' : Table} {disk' : Disk}
    (hfiled : Filed p sqls disk' name t')
    (hothers : ∀ name' u, name' ≠ name → e.tables name' = some u →
      (u.columns.map ColumnStore.filePath).Disjoint (t'.columns.map ColumnStore.filePath) ∧
      ∀ column ∈ u.columns, disk'.columns column.filePath = e.disk.columns column.filePath) :
    Aligned p sqls (e.setTable name t' disk') := by
  refine ⟨?_, ?_⟩
  · intro name' u hu
    rcases setTable_cases hu with ⟨rfl, rfl⟩ | ⟨hname, hu⟩
    · exact hfiled
    · obtain ⟨hplain, rows, es, hholds, hrows⟩ := h.filed name' u hu
      exact ⟨hplain, rows, es, HoldsRows.congr_disk hholds (hothers name' u hname hu).2, hrows⟩
  · intro name₁ name₂ u₁ u₂ hne hu₁ hu₂
    rcases setTable_cases hu₁ with ⟨rfl, rfl⟩ | ⟨hname₁, hold₁⟩ <;>
      rcases setTable_cases hu₂ with ⟨rfl, rfl⟩ | ⟨hname₂, hold₂⟩
    · exact absurd rfl hne
    · exact fun path hpath hpath' => (hothers name₂ u₂ hname₂ hold₂).1 hpath' hpath
    · exact (hothers name₁ u₁ hname₁ hold₁).1
    · exact h.apart name₁ name₂ u₁ u₂ hne hold₁ hold₂

/-! ## Statements -/

theorem columnDefs_type {cols : List CreateCol} {schema : Schema} (h : columnDefs cols = .ok schema) :
    ∀ d ∈ schema, d.type = .decimal ∨ d.type = .float ∨ d.type = .varchar := by
  induction cols generalizing schema with
  | nil =>
    cases h
    simp
  | cons col cols ih =>
    simp only [columnDefs, columnDef] at h
    split at h
    · cases hrest : columnDefs cols with
      | error f => simp [hrest, Bind.bind, Except.bind] at h
      | ok ds =>
        simp only [hrest, Bind.bind, Except.bind, Pure.pure, Except.pure] at h
        cases h
        intro d hd
        rcases List.mem_cons.mp hd with rfl | hd
        · simp only [columnType]
          split
          · exact Or.inl rfl
          · split
            · exact Or.inr (Or.inl rfl)
            · exact Or.inr (Or.inr rfl)
        · exact ih hrest d hd
    · simp [Bind.bind, Except.bind] at h

theorem Aligned.execCreate (h : Aligned p sqls e) {s : Statement} (htype : s.type = .create)
    (hcareful : Careful e s) {o : Outcome} (hexec : e.execCreate s.createStmt = .ok (e', o)) :
    Aligned p sqls e' := by
  unfold Executor.execCreate at hexec
  split at hexec
  · cases hexec
    exact h
  · split at hexec
    · cases hexec
      exact h
    · rename_i hnew
      rw [Bool.not_eq_true, Option.isSome_eq_false_iff, Option.isNone_iff_eq_none] at hnew
      cases hschema : columnDefs s.createStmt.columns with
      | error f => simp [hschema, Bind.bind, Except.bind] at hexec
      | ok schema =>
        obtain ⟨hfloat, hnodup, hfiles⟩ := hcareful.create htype hnew schema hschema
        cases ht : Table.init e.dataDir s.createStmt.tableName schema e.disk with
        | error f => simp [hschema, ht, Bind.bind, Except.bind] at hexec
        | ok t =>
          simp only [hschema, ht, Bind.bind, Except.bind, Pure.pure, Except.pure] at hexec
          cases hexec
          have hne := (init_sound _ _ ht).schema_ne
          have hne' : schema ≠ [] := by
            rintro rfl
            simp [Table.init, initColumns, Bind.bind, Except.bind] at ht
          obtain ⟨t', ht', hholds, -, htschema, hpaths⟩ :=
            init_holdsRows e.dataDir s.createStmt.tableName e.disk hne' hnodup
          obtain rfl : t' = t := Except.ok.inj (ht'.symm.trans ht)
          have hplain : Plain schema := fun d hd => by
            rcases columnDefs_type hschema d hd with hd' | hd' | hd'
            · exact Or.inl hd'
            · exact absurd hd' (hfloat d hd)
            · exact Or.inr hd'
          refine h.setTable ⟨htschema.symm ▸ hplain, [], [], hholds, by simp⟩ ?_
          intro name' u _ hu
          refine ⟨?_, fun _ _ => rfl⟩
          rw [hpaths]
          exact hfiles name' u hu

theorem Aligned.execInsert (h : Aligned p sqls e) {sql : Text} (hsql : sql ∈ sqls)
    (htype : (Parser.parse sql).type = .insert) (hcareful : Careful e (Parser.parse sql)) :
    Ends (fun f => f = .unmapped) (fun r => Aligned p sqls r.1)
      (e.execInsert p (Parser.parse sql).insertStmt) := by
  unfold Executor.execInsert
  cases ht : e.getTable (Parser.parse sql).insertStmt.tableName with
  | error err => exact .ok h
  | ok t =>
    have htable := getTable_eq_ok.mp ht
    obtain ⟨hplain, rows, es, hholds, hrows⟩ := h.filed _ t htable
    refine (insertTuples_holds (p := p) hholds hplain (hcareful.arity htype t ht)).bind ?_
    rintro ⟨t', disk', result⟩ ⟨new, es', hholds', hframe, hnew⟩
    have hschema : t'.schema = t.schema := hframe.schema_eq
    refine .ok (h.setTable ⟨hschema ▸ hplain, rows ++ new, es', hholds', ?_⟩ ?_)
    · intro row hrow
      rw [hschema]
      rcases List.mem_append.mp hrow with hrow | hrow
      · exact hrows row hrow
      · obtain ⟨hfull, tuple, htuple, hparse⟩ := hnew row hrow
        exact ⟨hfull, sql, hsql, htype, rfl, tuple, htuple, hparse⟩
    · intro name' u hname hu
      have hdisjoint := h.apart name' _ u t hname hu htable
      refine ⟨by rw [show t'.columns.map _ = _ from hframe.paths_eq]; exact hdisjoint, ?_⟩
      intro column hcolumn
      exact hframe.outside _ (hdisjoint (List.mem_map_of_mem hcolumn))

theorem Aligned.execDelete (h : Aligned p sqls e) (s : DeleteStmt) :
    Aligned p sqls (e.execDelete s).1 := by
  unfold Executor.execDelete
  cases ht : e.getTable s.tableName with
  | error err => exact h
  | ok t =>
    have htable := getTable_eq_ok.mp ht
    obtain ⟨hplain, rows, es, hholds, hrows⟩ := h.filed _ t htable
    refine h.setTable ⟨hplain, [], es, ?_, by simp⟩ ?_
    · exact ⟨hholds.schema_ne, clear_holds hholds.columns.length_eq hholds.columns.nodup _, by simp,
        hholds.index⟩
    · intro name' u hname hu
      refine ⟨?_, fun _ _ => rfl⟩
      rw [paths_clear]
      exact h.apart name' _ u t hname hu htable

theorem Aligned.mono {sqls' : List Text} (h : Aligned p sqls e) (hsub : ∀ sql ∈ sqls, sql ∈ sqls') :
    Aligned p sqls' e := ⟨fun name t ht => (h.filed name t ht).mono hsub, h.apart⟩

/-- Every careful statement keeps the tables aligned. -/
theorem Aligned.sqlStep (h : Aligned p sqls e) {sql : Text} (hcareful : Careful e (Parser.parse sql))
    (hstep : sqlStep p e sql = .ok e') : Aligned p (sqls ++ [sql]) e' := by
  have h' : Aligned p (sqls ++ [sql]) e := h.mono fun s hs => List.mem_append_left _ hs
  cases hexec : exec p e (Parser.parse sql) with
  | error f => simp [Executor.sqlStep, hexec, Bind.bind, Except.bind] at hstep
  | ok r =>
    simp only [Executor.sqlStep, hexec, Bind.bind, Except.bind, Pure.pure, Except.pure] at hstep
    cases hstep
    unfold exec at hexec
    cases htype : (Parser.parse sql).type with
    | create =>
      simp only [htype] at hexec
      exact h'.execCreate htype hcareful hexec
    | insert =>
      simp only [htype] at hexec
      have hends := h'.execInsert (by simp) htype hcareful
      rw [hexec] at hends
      exact hends.of_ok
    | select =>
      simp only [htype, Bind.bind, Except.bind, Pure.pure, Except.pure] at hexec
      split at hexec
      · cases hexec
      · cases hexec
        exact h'
    | delete =>
      simp only [htype, Except.ok.injEq] at hexec
      have := h'.execDelete (Parser.parse sql).deleteStmt
      rwa [hexec] at this
    | none =>
      simp only [htype] at hexec
      cases hexec
      exact h'

theorem aligned_init (p : Platform) (dataDir : Text) (disk : Disk) :
    Aligned p [] (init dataDir disk) where
  filed := fun _ _ ht => nomatch ht
  apart := fun _ _ _ _ _ ht => nomatch ht

theorem Aligned.of_run {dataDir : Text} {past : List Text}
    (hcareful : Guarded (Executor.sqlStep p) (fun e sql => Careful e (Parser.parse sql))
      (init dataDir disk) past)
    (hrun : run (Executor.sqlStep p) (init dataDir disk) past = .ok e) : Aligned p past e := by
  refine hcareful.run_induction (Aligned p) ?_ (aligned_init p dataDir disk) hrun
  intro past e sql e' h hguard hstep
  exact h.sqlStep hguard hstep

/-- In every run of careful statements, in every state that is reached, the columns of all tables are
aligned, and the next `INSERT` indexes nothing out of range. -/
theorem aligned_of_run (p : Platform) (dataDir : Text) (disk : Disk) (sqls : List Text)
    (hcareful : Guarded (sqlStep p) (fun e sql => Careful e (Parser.parse sql))
      (init dataDir disk) sqls) :
    ∀ past next e, sqls = past ++ next → run (sqlStep p) (init dataDir disk) past = .ok e →
      (∀ name t, e.tables name = some t → AlignedTable p past e.disk name t) ∧
      ∀ sql rest, next = sql :: rest → (Parser.parse sql).type = .insert →
        exec p e (Parser.parse sql) ≠ .error .outOfBounds := by
  rintro past next e rfl hrun
  obtain ⟨hpast, hnext⟩ := hcareful.append
  have haligned := Aligned.of_run hpast hrun
  refine ⟨fun name t ht => (haligned.filed name t ht).alignedTable, ?_⟩
  rintro sql rest rfl htype herr
  have hc := (hnext e hrun).1
  have hends := (haligned.mono fun s hs => List.mem_append_left [sql] hs).execInsert
    (by simp) htype hc
  simp only [exec, htype] at herr
  rw [herr] at hends
  cases hends with
  | error hf => cases hf

/-- A table with two columns, and a complete tuple for it. -/
def twoColumns : List Text :=
  [str "CREATE TABLE T (ID INT, V INT)", str "INSERT INTO T VALUES (1,2)"]

theorem careful_twoColumns :
    Guarded (sqlStep .reference) (fun e sql => Careful e (Parser.parse sql))
      (init (str "data") .blank) twoColumns := by
  have hschema : (do
      let e ← sqlStep .reference (init (str "data") .blank) (str "CREATE TABLE T (ID INT, V INT)")
      return (e.tables (str "T")).map Table.schema) =
      .ok (some [⟨str "ID", .decimal⟩, ⟨str "V", .decimal⟩]) := by decide +kernel
  refine ⟨⟨fun h => absurd h (by decide), ?_⟩, fun e₁ he₁ =>
    ⟨⟨?_, fun h => absurd h (by decide)⟩, fun _ _ => trivial⟩⟩
  · intro _ _ schema h
    have hdefs : columnDefs (Parser.parse (str "CREATE TABLE T (ID INT, V INT)")).createStmt.columns =
        .ok [⟨str "ID", .decimal⟩, ⟨str "V", .decimal⟩] := by decide
    obtain rfl := Except.ok.inj (hdefs.symm.trans h)
    exact ⟨by decide, by decide, fun _ _ ht => nomatch ht⟩
  · intro _ t ht tuple htuple
    have htable : e₁.tables (str "T") = some t := getTable_eq_ok.mp ht
    simp only [he₁, htable, Option.map_some, Bind.bind, Except.bind, Pure.pure, Except.pure,
      Except.ok.injEq, Option.some.injEq] at hschema
    have htuples : tuples (Parser.parse (str "INSERT INTO T VALUES (1,2)")).insertStmt.rawValues =
        [str "1,2"] := by decide
    rw [htuples, List.mem_singleton] at htuple
    rw [hschema, htuple]
    decide

theorem aligned_two_columns :
    ∃ e, runNew [str "CREATE TABLE T (ID INT, V INT)", str "INSERT INTO T VALUES (1,2)"] = .ok e ∧
      ∀ name t, e.tables name = some t → AlignedTable .reference
        [str "CREATE TABLE T (ID INT, V INT)", str "INSERT INTO T VALUES (1,2)"] e.disk name t := by
  obtain ⟨e, he⟩ := exists_of_isOk (x := runNew twoColumns) (by decide +kernel)
  exact ⟨e, he, (aligned_of_run .reference (str "data") .blank _ careful_twoColumns _ [] e
    (List.append_nil _).symm he).1⟩

/-- A tuple with one value for two columns, and then a complete one: the first column has two rows,
the second has one. -/
theorem not_aligned_short_tuple :
    ∃ e t, runNew [str "CREATE TABLE T (ID INT, V INT)", str "INSERT INTO T VALUES (1)",
        str "INSERT INTO T VALUES (2,3)"] = .ok e ∧ e.tables (str "T") = some t ∧
      t.totalRows 0 = .ok 2 ∧ t.totalRows 1 = .ok 1 ∧
      ¬ AlignedTable .reference [str "CREATE TABLE T (ID INT, V INT)",
        str "INSERT INTO T VALUES (1)", str "INSERT INTO T VALUES (2,3)"] e.disk (str "T") t := by
  obtain ⟨e, he⟩ := exists_of_isOk (x := runNew [str "CREATE TABLE T (ID INT, V INT)",
    str "INSERT INTO T VALUES (1)", str "INSERT INTO T VALUES (2,3)"]) (by decide +kernel)
  have htotals : (do
      let e ← runNew [str "CREATE TABLE T (ID INT, V INT)", str "INSERT INTO T VALUES (1)",
        str "INSERT INTO T VALUES (2,3)"]
      return (e.tables (str "T")).map fun t : Table => (t.totalRows 0, t.totalRows 1, t.schema)) =
      (.ok (some (.ok 2, .ok 1, [⟨str "ID", .decimal⟩, ⟨str "V", .decimal⟩])) :
        Except Fault (Option (Except Fault ℕ × Except Fault ℕ × Schema))) := by decide +kernel
  simp only [he, Bind.bind, Except.bind, Pure.pure, Except.pure, Except.ok.injEq] at htotals
  obtain ⟨t, ht, hvalues⟩ := Option.map_eq_some_iff.mp htotals
  simp only [Prod.mk.injEq] at hvalues
  obtain ⟨h0, h1, hschema⟩ := hvalues
  refine ⟨e, t, he, ht, h0, h1, ?_⟩
  rintro ⟨rows, -, hsame, -⟩
  have hrows0 := hsame 0 _ (by rw [hschema]; rfl)
  have hrows1 := hsame 1 _ (by rw [hschema]; rfl)
  rw [h0] at hrows0
  rw [h1, ← Except.ok.inj hrows0] at hrows1
  cases hrows1

end FlexQL.Executor
