import FlexQL.Executor.SelectSpec

/-!
# The rows of a result

A query is refused, it ends with an exception of its filter, or it emits rows. The rows come from
the index, or they are those of a table or of a join that the filter keeps. What a query emits is
the projection of these rows; which rows they are does not depend on the columns it asks for.
-/

namespace FlexQL.Executor

open Text Table Fallible

/-- The query finds its table and, without a join, the columns it asks for. -/
structure Accepted (e : Executor) (s : SelectStmt) (t : Table) : Prop where
  table : e.getTable s.tableName = .ok t
  known : s.hasJoin = false → unknownColumn t s.columns = none

/-- The rows that a query scans, and the table that is joined to the first one. -/
inductive Scanned (p : Platform) (e : Executor) (s : SelectStmt) (t : Table) :
    Option Table → List Row → Prop
  | table {n : ℕ} {rows : List Row} (hjoin : s.hasJoin = false) (hn : t.totalRows 0 = .ok n)
      (hrows : materializeRows p t e.disk (List.range n) = .ok rows) : Scanned p e s t none rows
  | join {t2 : Table} {rows : List Row} (hjoin : s.hasJoin = true)
      (ht2 : e.getTable s.join.table = .ok t2)
      (hrows : HashJoin.join p t t2 e.disk s.join.onLeft s.join.onRight = .ok rows) :
      Scanned p e s t (some t2) rows

/-- The rows that a query keeps: the one that the index leads to, or those that pass the filter. -/
inductive Keeps (p : Platform) (e : Executor) (s : SelectStmt) (t : Table) :
    Option Table → List Row → Prop
  | index {row : Row} (hindex : indexLookup p t e.disk s = .ok (some row)) : Keeps p e s t none [row]
  | filter {u : Option Table} {rows kept : List Row} (hindex : indexLookup p t e.disk s = .ok none)
      (hrows : Scanned p e s t u rows) (hkept : filterRows t u s.filters rows = .ok (.ok kept)) :
      Keeps p e s t u kept

/-- The query is refused with a message. -/
inductive Refused (e : Executor) (s : SelectStmt) : Text → Prop
  | table {err : Text} (ht : e.getTable s.tableName = .error err) : Refused e s err
  | column {t : Table} {name : Text} (ht : e.getTable s.tableName = .ok t) (hjoin : s.hasJoin = false)
      (hname : unknownColumn t s.columns = some name) :
      Refused e s (str "Unknown column: " ++ name)
  | join {t : Table} {err : Text} (ht : e.getTable s.tableName = .ok t) (hjoin : s.hasJoin = true)
      (ht2 : e.getTable s.join.table = .error err) : Refused e s err

/-- The ways in which a query ends. -/
inductive Selects (p : Platform) (e : Executor) (s : SelectStmt) : Outcome → Prop
  | refused {err : Text} (h : Refused e s err) : Selects p e s ⟨.returned 1 (some err), []⟩
  | thrown {t : Table} {u : Option Table} {rows : List Row} {exn : Exn} (ht : Accepted e s t)
      (hindex : indexLookup p t e.disk s = .ok none) (hrows : Scanned p e s t u rows)
      (hexn : filterRows t u s.filters rows = .ok (.error exn)) : Selects p e s ⟨.thrown exn, []⟩
  | emits {t : Table} {u : Option Table} {kept : List Row} (ht : Accepted e s t)
      (hkept : Keeps p e s t u kept) : Selects p e s (emit p t u s kept)

variable {p : Platform} {e : Executor} {t : Table} {u : Option Table} {s : SelectStmt}
  {rows kept : List Row} {o : Outcome}

/-- A join does not ask the index. -/
theorem indexLookup_of_join (hjoin : s.hasJoin = true) (disk : Disk) :
    indexLookup p t disk s = .ok none := by
  simp [indexLookup, asksForId, hjoin]

/-- The query asks for one value of `ID`, which is a number, and the index leads to a row. -/
def LooksUp (s : SelectStmt) (t : Table) (rid : ℕ) : Prop :=
  ∃ valueStr id tree tree', asksForId s = some valueStr ∧ stoll valueStr = .ok id ∧
    t.indexManager.getIndex pkName = some tree ∧ tree.search id.toNat = .ok (some rid, tree')

/-- What the search returns for the number. -/
theorem looksUp_iff {valueStr : Text} {id : BitVec 64} {tree tree' : BPTree} {r : Option ℕ}
    (hasks : asksForId s = some valueStr) (hid : stoll valueStr = .ok id)
    (htree : t.indexManager.getIndex pkName = some tree)
    (hsearch : tree.search id.toNat = .ok (r, tree')) (rid : ℕ) : LooksUp s t rid ↔ r = some rid := by
  constructor
  · rintro ⟨valueStr', id', tree₁, tree₂, h₁, h₂, h₃, h₄⟩
    rw [hasks] at h₁
    cases h₁
    rw [hid] at h₂
    cases h₂
    rw [htree] at h₃
    cases h₃
    rw [hsearch] at h₄
    cases h₄
    rfl
  · rintro rfl
    exact ⟨valueStr, id, tree, tree', hasks, hid, htree, hsearch⟩

theorem indexLookup_eq_some {disk : Disk} {row : Row} :
    indexLookup p t disk s = .ok (some row) ↔
      ∃ rid, LooksUp s t rid ∧ materializeRow p t disk rid = .ok row := by
  constructor
  · intro h
    unfold indexLookup at h
    split at h
    · cases h
    · rename_i valueStr hasks
      split at h
      · cases h
      · rename_i id hid
        split at h
        · cases h
        · rename_i tree htree
          obtain ⟨⟨r, tree'⟩, hsearch, h⟩ := bind_eq_ok h
          cases r with
          | none => cases h
          | some rid =>
            obtain ⟨row', hrow, h⟩ := bind_eq_ok h
            cases h
            exact ⟨rid, ⟨valueStr, id, tree, tree', hasks, hid, htree, hsearch⟩, hrow⟩
  · rintro ⟨rid, ⟨valueStr, id, tree, tree', hasks, hid, htree, hsearch⟩, hrow⟩
    simp only [indexLookup, hasks, hid, htree, hsearch, hrow, Bind.bind, Except.bind, Pure.pure,
      Except.pure]

theorem Refused.execSelect {err : Text} (h : Refused e s err) :
    execSelect p e s = .ok ⟨.returned 1 (some err), []⟩ := by
  cases h with
  | table ht => simp only [Executor.execSelect, ht]
  | column ht hjoin hname =>
    simp only [Executor.execSelect, ht, hjoin, hname, Bool.false_eq_true, if_false]
  | join ht hjoin ht2 =>
    simp only [Executor.execSelect, ht, hjoin, indexLookup_of_join hjoin, ht2, if_true, Bind.bind,
      Except.bind, Pure.pure, Except.pure]

/-- What follows the filter. -/
def conclude (p : Platform) (t : Table) (u : Option Table) (s : SelectStmt) :
    Except Exn (List Row) → Outcome
  | .error exn => ⟨.thrown exn, []⟩
  | .ok kept => emit p t u s kept

/-- Behind the checks and the index a query filters the rows it scans. -/
theorem execSelect_of_scanned (ht : Accepted e s t) (hindex : indexLookup p t e.disk s = .ok none)
    (hrows : Scanned p e s t u rows) :
    execSelect p e s = (filterRows t u s.filters rows).map (conclude p t u s) := by
  have htable := ht.table
  cases hrows with
  | table hjoin hn hrows =>
    simp only [execSelect, htable, hjoin, ht.known hjoin, hindex, scan, hn, hrows,
      Bool.false_eq_true, if_false, Bind.bind, Except.bind, Pure.pure, Except.pure]
    cases filterRows t none s.filters rows with
    | error f => rfl
    | ok r => cases r <;> rfl
  | @join t2 _ hjoin ht2 hrows =>
    simp only [execSelect, htable, hjoin, hindex, ht2, hrows, if_true, Bind.bind, Except.bind,
      Pure.pure, Except.pure]
    cases filterRows t (some t2) s.filters rows with
    | error f => rfl
    | ok r => cases r <;> rfl

theorem execSelect_of_index {row : Row} (ht : Accepted e s t)
    (hindex : indexLookup p t e.disk s = .ok (some row)) :
    execSelect p e s = .ok (emit p t none s [row]) := by
  have htable := ht.table
  have hjoin : s.hasJoin = false := by
    cases hjoin : s.hasJoin with
    | false => rfl
    | true =>
      rw [indexLookup_of_join hjoin] at hindex
      cases hindex
  simp only [execSelect, htable, hjoin, ht.known hjoin, hindex, Bool.false_eq_true, if_false,
    Bind.bind, Except.bind, Pure.pure, Except.pure]

/-- A query without faults ends in one of the ways. -/
theorem execSelect_cases (h : execSelect p e s = .ok o) : Selects p e s o := by
  unfold execSelect at h
  cases ht : e.getTable s.tableName with
  | error err =>
    simp only [ht] at h
    cases h
    exact .refused (.table ht)
  | ok t =>
    simp only [ht] at h
    split at h
    · rename_i name hname
      cases h
      cases hjoin : s.hasJoin with
      | true => simp [hjoin] at hname
      | false => exact .refused (.column ht hjoin (by simpa [hjoin] using hname))
    · rename_i hname
      have hacc : Accepted e s t := ⟨ht, fun hjoin => by simpa [hjoin] using hname⟩
      obtain ⟨hit, hindex, h⟩ := bind_eq_ok h
      cases hit with
      | some row =>
        cases h
        exact .emits hacc (.index hindex)
      | none =>
        cases hjoin : s.hasJoin with
        | true =>
          simp only [hjoin, if_true] at h
          cases ht2 : e.getTable s.join.table with
          | error err =>
            simp only [ht2] at h
            cases h
            exact .refused (.join ht hjoin ht2)
          | ok t2 =>
            simp only [ht2] at h
            obtain ⟨rows, hrows, h⟩ := bind_eq_ok h
            obtain ⟨kept, hkept, h⟩ := bind_eq_ok h
            cases kept with
            | error exn =>
              cases h
              exact .thrown hacc hindex (.join hjoin ht2 hrows) hkept
            | ok kept =>
              cases h
              exact .emits hacc (.filter hindex (.join hjoin ht2 hrows) hkept)
        | false =>
          simp only [hjoin, Bool.false_eq_true, if_false] at h
          obtain ⟨n, hn, h⟩ := bind_eq_ok h
          obtain ⟨rows, hrows, h⟩ := bind_eq_ok h
          obtain ⟨kept, hkept, h⟩ := bind_eq_ok h
          cases kept with
          | error exn =>
            cases h
            exact .thrown hacc hindex (.table hjoin hn hrows) hkept
          | ok kept =>
            cases h
            exact .emits hacc (.filter hindex (.table hjoin hn hrows) hkept)

theorem Keeps.execSelect (ht : Accepted e s t) (h : Keeps p e s t u kept) :
    execSelect p e s = .ok (emit p t u s kept) := by
  cases h with
  | index hindex => exact execSelect_of_index ht hindex
  | filter hindex hrows hkept =>
    rw [execSelect_of_scanned ht hindex hrows, hkept]
    rfl

theorem execSelect_iff : execSelect p e s = .ok o ↔ Selects p e s o := by
  refine ⟨execSelect_cases, fun h => ?_⟩
  cases h with
  | refused h => exact h.execSelect
  | thrown ht hindex hrows hexn =>
    rw [execSelect_of_scanned ht hindex hrows, hexn]
    rfl
  | emits ht hkept => exact hkept.execSelect ht

/-! ## The schema of the result -/

/-- The columns of the first table, then those of the one that is joined to it. -/
def resultSchema (t : Table) (u : Option Table) : Schema := t.schema ++ u.elim [] Table.schema

theorem resultIndex_eq_columnIndex (t : Table) (u : Option Table) (name : Text) :
    resultIndex t u name = columnIndex (resultSchema t u) name := resultIndex_eq rfl name

theorem Scanned.unique {rows' : List Row} (h : Scanned p e s t u rows) (h' : Scanned p e s t u rows') :
    rows = rows' := by
  cases h with
  | table _ hn hrows => cases h' with
    | table _ hn' hrows' =>
      obtain rfl := Except.ok.inj (hn.symm.trans hn')
      exact Except.ok.inj (hrows.symm.trans hrows')
  | join _ _ hrows => cases h' with
    | join _ _ hrows' => exact Except.ok.inj (hrows.symm.trans hrows')

theorem Scanned.read (h : Scanned p e s t u rows) : ∀ row ∈ rows, ReadRow (resultSchema t u) row := by
  cases h with
  | table _ _ hrows =>
    rw [resultSchema, Option.elim_none, List.append_nil]
    exact materializeRows_read hrows
  | join _ _ hrows => exact join_read hrows

/-! ## The filter -/

/-- The row passes all clauses, as far as the executor tests them. -/
def passesAll (t : Table) (u : Option Table) (filters : List WhereClause) (row : Row) : Bool :=
  match matchesAll t u row filters with
  | .ok (.ok b) => b
  | _ => false

theorem passesAll_iff {row : Row} {ws : List WhereClause} :
    passesAll t u ws row = true ↔ matchesAll t u row ws = .ok (.ok true) := by
  unfold passesAll
  split
  · rename_i b hb
    simp [hb]
  · rename_i hne
    simpa using fun h => hne true h

/-- A clause lets a row through, or it decides. -/
theorem matchesAll_cons (row : Row) (w : WhereClause) :
    (passesAll t u [w] row = true ∧ ∀ ws, matchesAll t u row (w :: ws) = matchesAll t u row ws) ∨
    (passesAll t u [w] row = false ∧
      ∀ ws, matchesAll t u row (w :: ws) = matchesAll t u row [w]) := by
  unfold passesAll
  simp only [matchesAll]
  cases resultIndex t u w.columnName with
  | none => exact Or.inl ⟨rfl, fun _ => rfl⟩
  | some i =>
    simp only
    cases row.values[i]? with
    | none => exact Or.inr ⟨rfl, fun _ => rfl⟩
    | some v =>
      simp only
      cases passes w v with
      | error exn => exact Or.inr ⟨rfl, fun _ => rfl⟩
      | ok b => cases b with
        | true => exact Or.inl ⟨rfl, fun _ => rfl⟩
        | false => exact Or.inr ⟨rfl, fun _ => rfl⟩

/-- The clauses are tested in their order, up to the first that a row does not pass. -/
theorem matchesAll_append (row : Row) (ws ws' : List WhereClause) :
    (passesAll t u ws row = true ∧ matchesAll t u row (ws ++ ws') = matchesAll t u row ws') ∨
    (passesAll t u ws row = false ∧ matchesAll t u row (ws ++ ws') = matchesAll t u row ws) := by
  induction ws with
  | nil => exact Or.inl ⟨rfl, rfl⟩
  | cons w ws ih =>
    rcases matchesAll_cons (t := t) (u := u) row w with ⟨-, hcons⟩ | ⟨hw, hcons⟩
    · rw [List.cons_append, hcons, hcons, passesAll, hcons]
      exact ih
    · rw [List.cons_append, hcons, hcons, passesAll, hcons]
      exact Or.inr ⟨hw, rfl⟩

theorem passesAll_append (row : Row) (ws ws' : List WhereClause) :
    passesAll t u (ws ++ ws') row = (passesAll t u ws row && passesAll t u ws' row) := by
  rcases matchesAll_append (t := t) (u := u) row ws ws' with ⟨hws, heq⟩ | ⟨hws, heq⟩
  · rw [hws, passesAll, heq]
    rfl
  · rw [passesAll, heq, ← passesAll, hws]
    rfl

/-- A column that exists is within every row. -/
theorem resultIndex_lt {row : Row} (hrow : RowFull (resultSchema t u) row) {name : Text} {i : ℕ}
    (h : resultIndex t u name = some i) : i < row.values.length := by
  rw [resultIndex_eq_columnIndex] at h
  rw [hrow.length_eq]
  exact (List.findIdx?_eq_some_iff_getElem.mp h).1

theorem resultIndex_eq_none {name : Text}
    (h : (resultSchema t u).find? (fun d => d.name = name) = none) : resultIndex t u name = none := by
  rw [resultIndex_eq_columnIndex, columnIndex, List.findIdx?_eq_none_iff]
  simpa using List.find?_eq_none.mp h

/-- A clause for a column that exists tests its value. -/
theorem matchesAll_singleton {row : Row} {w : WhereClause} {i : ℕ} {v : Value}
    (hi : resultIndex t u w.columnName = some i) (hv : row.values[i]? = some v) :
    matchesAll t u row [w] = .ok (passes w v) := by
  simp only [matchesAll, hi, hv]
  cases passes w v with
  | error exn => rfl
  | ok b => cases b <;> rfl

/-- No test goes beyond the end of a row. -/
theorem matchesAll_of_full {row : Row} (hrow : RowFull (resultSchema t u) row)
    (ws : List WhereClause) : ∃ r, matchesAll t u row ws = .ok r := by
  induction ws with
  | nil => exact ⟨_, rfl⟩
  | cons w ws ih =>
    simp only [matchesAll]
    cases hi : resultIndex t u w.columnName with
    | none => exact ih
    | some i =>
      simp only [List.getElem?_eq_getElem (resultIndex_lt hrow hi)]
      split
      · exact ⟨_, rfl⟩
      · exact ih
      · exact ⟨_, rfl⟩

/-- The filter keeps the rows that pass, unless a test of one of them throws. -/
theorem filterRows_cases (ws : List WhereClause) (hrows : ∀ row ∈ rows, RowFull (resultSchema t u) row) :
    ((∃ row ∈ rows, ∃ exn, matchesAll t u row ws = .ok (.error exn)) ∧
      ∃ exn, filterRows t u ws rows = .ok (.error exn)) ∨
    ((∀ row ∈ rows, matchesAll t u row ws = .ok (.ok (passesAll t u ws row))) ∧
      filterRows t u ws rows = .ok (.ok (rows.filter (passesAll t u ws)))) := by
  induction rows with
  | nil => exact Or.inr ⟨by simp, rfl⟩
  | cons row rows ih =>
    obtain ⟨r, hr⟩ := matchesAll_of_full (hrows row List.mem_cons_self) ws
    cases r with
    | error exn =>
      refine Or.inl ⟨⟨row, List.mem_cons_self, exn, hr⟩, exn, ?_⟩
      simp only [filterRows, hr, Bind.bind, Except.bind, Pure.pure, Except.pure]
    | ok b =>
      have hb : passesAll t u ws row = b := by rw [passesAll, hr]
      rcases ih fun r hr => hrows r (List.mem_cons_of_mem _ hr) with
        ⟨⟨row', hrow', hexn⟩, exn, hrest⟩ | ⟨htests, hrest⟩
      · refine Or.inl ⟨⟨row', List.mem_cons_of_mem _ hrow', hexn⟩, exn, ?_⟩
        simp only [filterRows, hr, hrest, Bind.bind, Except.bind, Pure.pure, Except.pure]
      · refine Or.inr ⟨List.forall_mem_cons.mpr ⟨by rw [hr, hb], htests⟩, ?_⟩
        simp only [filterRows, hr, hrest, Bind.bind, Except.bind, Pure.pure, Except.pure,
          List.filter_cons, hb]

theorem filterRows_kept {ws : List WhereClause} (hrows : ∀ row ∈ rows, RowFull (resultSchema t u) row)
    (h : filterRows t u ws rows = .ok (.ok kept)) : kept = rows.filter (passesAll t u ws) := by
  rcases filterRows_cases ws hrows with ⟨-, exn, hexn⟩ | ⟨-, hok⟩
  · rw [hexn] at h
    cases h
  · rw [hok] at h
    cases h
    rfl

/-- The rows of a result are complete. -/
theorem Keeps.read (h : Keeps p e s t u kept) : ∀ row ∈ kept, ReadRow (resultSchema t u) row := by
  cases h with
  | @index row hindex =>
    intro row' hrow'
    rw [List.mem_singleton.mp hrow', resultSchema, Option.elim_none, List.append_nil]
    obtain ⟨rid, -, hmat⟩ := indexLookup_eq_some.mp hindex
    exact materializeRow_read hmat
  | filter _ hrows hkept =>
    intro row hrow
    rw [filterRows_kept (fun r hr => (hrows.read r hr).full) hkept] at hrow
    exact hrows.read row (List.mem_of_mem_filter hrow)

/-! ## Order -/

/-- `std::sort` is given a lawful comparator, or nothing to compare. -/
def Sortable (s : SelectStmt) (kept : List Row) : Prop :=
  s.hasOrder = true → s.orderBy.ascending = true ∨ kept.length ≤ 1

theorem orderRows_perm (hrows : ∀ row ∈ kept, RowFull (resultSchema t u) row)
    (h : Sortable s kept) : (orderRows p t u s kept).Perm kept := by
  unfold orderRows
  split
  · rename_i horder
    split
    · exact List.Perm.refl _
    · rename_i i hi
      rcases h horder with hasc | hshort
      · rw [resultIndex_eq_columnIndex] at hi
        obtain ⟨hlt, -⟩ := List.findIdx?_eq_some_iff_getElem.mp hi
        rw [hasc]
        exact p.sort_perm _ _ (strictWeakOrder_orderLt (List.getElem?_eq_getElem hlt) hrows)
      · rw [p.sort_short _ _ hshort]
  · exact List.Perm.refl _

/-! ## The rows that texts leave in a table -/

/-- The schema and the rows of a table behind a run of texts on a new data directory. -/
def tableBehind (sqls : List Text) (name : Text) :
    Except Fault (Option (Schema × Except Fault (List Row))) := do
  let e ← runNew sqls
  return (e.tables name).map fun t => (t.schema, do
    let n ← t.totalRows 0
    materializeRows .reference t e.disk (List.range n))

theorem exists_of_tableBehind {sqls : List Text} {name : Text} {schema : Schema}
    (h : tableBehind sqls name = .ok (some (schema, .ok rows))) :
    ∃ e t n, runNew sqls = .ok e ∧ e.tables name = some t ∧ t.schema = schema ∧
      t.totalRows 0 = .ok n ∧ materializeRows .reference t e.disk (List.range n) = .ok rows := by
  obtain ⟨e, he, h⟩ := bind_eq_ok h
  simp only [Pure.pure, Except.pure, Except.ok.injEq] at h
  obtain ⟨t, ht, hvalues⟩ := Option.map_eq_some_iff.mp h
  obtain ⟨hschema, hrows⟩ := Prod.mk.inj hvalues
  obtain ⟨n, hn, hrows⟩ := bind_eq_ok hrows
  exact ⟨e, t, n, he, ht, hschema, hn, hrows⟩

/-- A query without a join and without a clause keeps all rows of its table. -/
theorem keeps_all {n : ℕ} (hjoin : s.hasJoin = false) (hfilters : s.filters = [])
    (hn : t.totalRows 0 = .ok n) (hrows : materializeRows p t e.disk (List.range n) = .ok rows) :
    Keeps p e s t none rows := by
  have hkept : filterRows t none s.filters rows = .ok (.ok rows) := by
    rw [hfilters]
    clear hrows
    induction rows with
    | nil => rfl
    | cons row rows ih =>
      simp only [filterRows, matchesAll, ih, Bind.bind, Except.bind, Pure.pure, Except.pure, if_true]
  refine .filter ?_ (.table hjoin hn hrows) hkept
  simp [indexLookup, asksForId, hfilters]

end FlexQL.Executor
