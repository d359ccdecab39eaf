import FlexQL.Executor.ResultRows

/-!
# When a SELECT returns

A query for one value of `ID` dereferences the index of the table without a test, and the filter
converts operands to numbers outside the block that catches the exceptions. Nothing else keeps a
query from returning, except a read behind the end of the mapping.
-/

namespace FlexQL.Executor

open Text Table Runs Fallible

variable {p : Platform} {e e' : Executor} {t : Table} {u : Option Table} {s : SelectStmt}
  {rows kept : List Row} {row : Row}

/-- The query returns 0 or 1. -/
def Returns (p : Platform) (e : Executor) (s : SelectStmt) : Prop :=
  ∃ code err emitted, execSelect p e s = .ok ⟨.returned code err, emitted⟩ ∧ (code = 0 ∨ code = 1)

/-- The filter converts the operand of the clause to a number. -/
def NeedsNumber (schema : Schema) (w : WhereClause) : Prop :=
  ∃ d, schema.find? (fun d => d.name = w.columnName) = some d ∧
    (w.op = str "=" ∧ d.type ≠ .varchar ∨ w.op = str ">" ∨ w.op = str ">=")

/-- Every operand that the filter converts for a row is a number. It converts those of the clauses
up to the first one that the row does not pass. -/
def OperandsRead (t : Table) (u : Option Table) (filters : List WhereClause) (row : Row) : Prop :=
  ∀ ws w ws', filters = ws ++ w :: ws' → passesAll t u ws row = true →
    NeedsNumber (resultSchema t u) w → ∃ n, stoll w.valueStr = .ok n

/-- What a query needs behind its checks. -/
structure Safe (p : Platform) (e : Executor) (s : SelectStmt) (t : Table) : Prop where
  /-- A table that is asked for a number as `ID` has an index. -/
  index : ∀ valueStr id, asksForId s = some valueStr → stoll valueStr = .ok id → t.HasIndex
  /-- The row that the index leads to is inside the mapping. -/
  row : ∀ rid, LooksUp s t rid → ∃ row, materializeRow p t e.disk rid = .ok row
  /-- Otherwise the rows of the table or of the join are, and the filter gets its numbers. -/
  rows : (¬ ∃ rid, LooksUp s t rid) →
    ∃ u rows, Scanned p e s t u rows ∧ ∀ row ∈ rows, OperandsRead t u s.filters row

/-! ## Indexes -/

/-- Only the tables with the column `ID` in front have an index. -/
def Indexed (e : Executor) : Prop :=
  ∀ name t, e.tables name = some t → ¬ t.HasIndex → t.indexManager.getIndex pkName = none

theorem Indexed.setTable (h : e.Indexed) (name : Text)
    (ht : ¬ t.HasIndex → t.indexManager.getIndex pkName = none) (disk : Disk) :
    (e.setTable name t disk).Indexed := by
  intro name' t' ht' hno
  rcases setTable_cases ht' with ⟨-, rfl⟩ | ⟨-, ht'⟩
  · exact ht hno
  · exact h name' t' ht' hno

theorem Indexed.exec (h : e.Indexed) (hsound : e.Sound) {stmt : Statement} {o : Outcome}
    (hexec : Executor.exec p e stmt = .ok (e', o)) : e'.Indexed := by
  rcases exec_cases hexec with rfl | ⟨-, schema, t, -, -, -, ht, rfl⟩ | ⟨-, t, r, ht, hr, rfl⟩ |
    ⟨-, t, ht, rfl⟩
  · exact h
  · refine h.setTable _ (fun hno => ?_) _
    obtain ⟨m, rfl, -, hm⟩ := init_cases ht
    have hhead : schema.head?.map ColumnDef.name ≠ some idName := by
      intro hname
      obtain ⟨d, hd, hname⟩ := Option.map_eq_some_iff.mp hname
      exact hno ⟨d, by rwa [← List.head?_eq_getElem?], hname⟩
    rw [hm hhead]
    rfl
  · have hgrown := insertTuples_grown (hsound _ t ht) hr
    refine h.setTable _ (fun hno => ?_) _
    have hno' : ¬ t.HasIndex := (hasIndex_congr hgrown.schema_eq).not.mp hno
    rw [hgrown.index_eq hno']
    exact h _ t ht hno'
  · exact h.setTable _ (t := t.clear) (h _ t ht) _

theorem Reachable.indexed (h : Reachable p e) : e.Indexed := by
  obtain ⟨dataDir, disk, sqls, hrun⟩ := h
  have hboth : e.Sound ∧ e.Indexed := by
    refine run_induction (fun e : Executor => e.Sound ∧ e.Indexed) ?_ ⟨?_, ?_⟩ hrun
    · intro e sql e' h hstep
      obtain ⟨o, hexec⟩ := sqlStep_cases hstep
      exact ⟨h.1.exec hexec, h.2.exec h.1 hexec⟩
    · intro name t ht
      cases ht
    · intro name t ht
      cases ht
  exact hboth.2

/-- A miss, for a table that has an index just when it should. -/
theorem indexLookup_eq_none (hsound : t.Sound)
    (hno : ¬ t.HasIndex → t.indexManager.getIndex pkName = none) {disk : Disk} :
    indexLookup p t disk s = .ok none ↔
      (∀ valueStr id, asksForId s = some valueStr → stoll valueStr = .ok id → t.HasIndex) ∧
        ¬ ∃ rid, LooksUp s t rid := by
  unfold indexLookup
  cases hasks : asksForId s with
  | none =>
    refine ⟨fun _ => ⟨fun _ _ h => absurd h (by simp), ?_⟩, fun _ => rfl⟩
    rintro ⟨rid, valueStr, id, tree, tree', h, -⟩
    simp [hasks] at h
  | some valueStr =>
    cases hid : stoll valueStr with
    | error exn =>
      refine ⟨fun _ => ⟨?_, ?_⟩, fun _ => by simp only [hid]⟩
      · rintro _ id ⟨⟩ h
        simp [hid] at h
      · rintro ⟨rid, valueStr', id, tree, tree', h, h', -⟩
        rw [hasks] at h
        cases h
        simp [hid] at h'
    | ok id =>
      simp only [hid]
      by_cases hindex : t.HasIndex
      · obtain ⟨es, hes⟩ := hsound.index
        obtain ⟨tree, htree, hholds⟩ := hes hindex
        obtain ⟨r, tree', hsearch, -, -⟩ := hholds.search_sound id.toNat
        have hlooks := looksUp_iff hasks hid htree hsearch
        simp only [htree, hsearch, hlooks, Bind.bind, Except.bind, Pure.pure, Except.pure]
        cases r with
        | none => simp [hindex]
        | some rid =>
          simp only [Option.some.injEq, exists_eq', not_true_eq_false, and_false, iff_false]
          cases materializeRow p t disk rid <;> simp
      · simp only [hno hindex]
        exact ⟨nofun, fun h => absurd (h.1 valueStr id rfl hid) hindex⟩

/-! ## Operands -/

/-- A comparison throws when it needs a number and the operand is none. -/
theorem passes_throws_iff {w : WhereClause} {v : Value} {exn : Exn} :
    passes w v = .error exn ↔
      (w.op = str "=" ∧ v.type ≠ .varchar ∨ w.op = str ">" ∨ w.op = str ">=") ∧
        stoll w.valueStr = .error exn := by
  have hops : str "=" ≠ str ">" ∧ str "=" ≠ str ">=" ∧ str ">" ≠ str ">=" := by decide
  unfold passes
  by_cases heq : w.op = str "="
  · by_cases htype : v.type = .varchar
    · simp [heq, htype, hops.1, hops.2.1]
    · cases stoll w.valueStr <;>
        simp [heq, htype, hops.1, hops.2.1, Bind.bind, Except.bind, Pure.pure, Except.pure]
  · by_cases hgt : w.op = str ">"
    · cases stoll w.valueStr <;>
        simp [hgt, hops.1.symm, Bind.bind, Except.bind, Pure.pure, Except.pure]
    · by_cases hge : w.op = str ">="
      · cases stoll w.valueStr <;>
          simp [hge, hops.2.1.symm, hops.2.2.symm, Bind.bind, Except.bind, Pure.pure, Except.pure]
      · simp [heq, hgt, hge]

/-- A test throws when it needs a number and the operand is none. -/
theorem matchesAll_singleton_throws (hrow : RowFull (resultSchema t u) row) {w : WhereClause} {exn : Exn} :
    matchesAll t u row [w] = .ok (.error exn) ↔
      NeedsNumber (resultSchema t u) w ∧ stoll w.valueStr = .error exn := by
  cases hd : (resultSchema t u).find? fun d => d.name = w.columnName with
  | none =>
    simp [matchesAll, resultIndex_eq_none hd, NeedsNumber, hd]
  | some d =>
    obtain ⟨i, v, hi, hv, htype, -⟩ := exists_value hrow hd
    rw [← resultIndex_eq_columnIndex] at hi
    rw [matchesAll_singleton hi hv, Except.ok.injEq]
    simp only [NeedsNumber, hd, Option.some.injEq, exists_eq_left', ← htype]
    exact passes_throws_iff

/-- The tests of a row throw when an operand that is reached is no number. -/
theorem operandsRead_iff (hrow : RowFull (resultSchema t u) row) (ws : List WhereClause) :
    OperandsRead t u ws row ↔ ∀ exn, matchesAll t u row ws ≠ .ok (.error exn) := by
  constructor
  · intro h exn hthrows
    induction ws with
    | nil => cases hthrows
    | cons w ws ih =>
      rcases matchesAll_cons (t := t) (u := u) row w with ⟨hpass, hcons⟩ | ⟨-, hcons⟩
      · refine ih (fun ws₁ w' ws₂ heq hws₁ hneeds => ?_) ((hcons ws).symm.trans hthrows)
        refine h (w :: ws₁) w' ws₂ (by rw [heq]; rfl) ?_ hneeds
        rw [← List.singleton_append, passesAll_append, hpass, hws₁]
        rfl
      · rw [hcons, matchesAll_singleton_throws hrow] at hthrows
        obtain ⟨n, hn⟩ := h [] w ws rfl rfl hthrows.1
        rw [hthrows.2] at hn
        cases hn
  · rintro h ws₁ w ws₂ rfl hws₁ hneeds
    cases hn : stoll w.valueStr with
    | ok n => exact ⟨n, rfl⟩
    | error exn =>
      have htest := (matchesAll_singleton_throws hrow).mpr ⟨hneeds, hn⟩
      have hfail : passesAll t u [w] row = false := by rw [passesAll, htest]
      rcases matchesAll_cons (t := t) (u := u) row w with ⟨hpass, -⟩ | ⟨-, hcons⟩
      · rw [hfail] at hpass
        cases hpass
      · rcases matchesAll_append (t := t) (u := u) row ws₁ (w :: ws₂) with ⟨-, happend⟩ | ⟨hno, -⟩
        · exact absurd (happend.trans ((hcons ws₂).trans htest)) (h exn)
        · rw [hws₁] at hno
          cases hno

/-! ## Queries -/

theorem Safe.of_keeps (hsound : t.Sound)
    (hno : ¬ t.HasIndex → t.indexManager.getIndex pkName = none) (h : Keeps p e s t u kept) :
    Safe p e s t := by
  cases h with
  | @index row hindex =>
    obtain ⟨rid, hlooks, hrow⟩ := indexLookup_eq_some.mp hindex
    obtain ⟨valueStr, id, tree, tree', hasks, hid, htree, hsearch⟩ := id hlooks
    refine ⟨fun _ _ _ _ => ?_, fun rid' hlooks' => ?_, fun hnone => absurd ⟨rid, hlooks⟩ hnone⟩
    · by_contra hindex
      rw [hno hindex] at htree
      cases htree
    · rw [looksUp_iff hasks hid htree hsearch] at hlooks'
      obtain rfl := Option.some.inj hlooks'
      exact ⟨row, hrow⟩
  | @filter _ rows _ hindex hrows hkept =>
    obtain ⟨hhas, hnone⟩ := (indexLookup_eq_none hsound hno).mp hindex
    refine ⟨hhas, fun rid hlooks => absurd ⟨rid, hlooks⟩ hnone, fun _ => ⟨u, rows, hrows, ?_⟩⟩
    have hfull : ∀ row ∈ rows, RowFull (resultSchema t u) row := fun r hr => (hrows.read r hr).full
    intro row hrow
    rw [operandsRead_iff (hfull row hrow)]
    rcases filterRows_cases s.filters hfull with ⟨-, exn, hexn⟩ | ⟨htests, -⟩
    · rw [hexn] at hkept
      cases hkept
    · intro exn hthrows
      rw [htests row hrow] at hthrows
      cases hthrows

theorem Safe.exists_keeps (hsound : t.Sound)
    (hno : ¬ t.HasIndex → t.indexManager.getIndex pkName = none) (h : Safe p e s t) :
    ∃ u kept, Keeps p e s t u kept := by
  by_cases hlooks : ∃ rid, LooksUp s t rid
  · obtain ⟨rid, hlooks⟩ := hlooks
    obtain ⟨row, hrow⟩ := h.row rid hlooks
    exact ⟨none, [row], .index (indexLookup_eq_some.mpr ⟨rid, hlooks, hrow⟩)⟩
  · obtain ⟨u, rows, hrows, hread⟩ := h.rows hlooks
    have hfull : ∀ row ∈ rows, RowFull (resultSchema t u) row := fun r hr => (hrows.read r hr).full
    rcases filterRows_cases s.filters hfull with ⟨⟨row, hrow, exn, hexn⟩, -⟩ | ⟨-, hkept⟩
    · exact absurd hexn ((operandsRead_iff (hfull row hrow) _).mp (hread row hrow) exn)
    · exact ⟨u, _, .filter ((indexLookup_eq_none hsound hno).mpr ⟨h.index, hlooks⟩) hrows hkept⟩

theorem reachable_of_runNew {sqls : List Text} (h : runNew sqls = .ok e) : Reachable .reference e :=
  ⟨str "data", .blank, sqls, h⟩

/-- One row of two numbers. -/
theorem tableBehind_oneSeven :
    tableBehind [str "CREATE TABLE T (ID INT, V INT)", str "INSERT INTO T VALUES (1,7)"] (str "T") =
      .ok (some ([⟨str "ID", .decimal⟩, ⟨str "V", .decimal⟩],
        .ok [⟨[⟨.decimal, 1, []⟩, ⟨.decimal, 7, []⟩]⟩])) := by
  decide +kernel

/-- `SELECT V FROM T WHERE V > 5`. -/
def selectAbove : SelectStmt where
  columns := [str "V"]
  tableName := str "T"
  filters := [⟨str "V", str ">", str "5"⟩]

end FlexQL.Executor
