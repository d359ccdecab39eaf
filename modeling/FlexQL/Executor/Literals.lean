import FlexQL.Executor.ResultRows
import FlexQL.Parser.RoundTrip

/-!
# String literals

`INSERT` takes the quotes off a string literal. `WHERE` takes the literal as it stands, so it looks
for a text with quotes around it.
-/

namespace FlexQL.Executor

open Text Table Fallible FlexQL.Parser

variable {p : Platform} {e e' : Executor} {t : Table} {u : Option Table} {s : SelectStmt}
  {kept : List Row} {row : Row} {x : Text}

/-- The literal for a string. -/
def quoted (x : Text) : Text := ch '\'' :: (x ++ [ch '\''])

/-- The text, run as an `INSERT`, succeeds, and one of its tuples has the literal for a column. -/
structure InsertsLiteral (p : Platform) (e e' : Executor) (sql table column x : Text) : Prop where
  type_eq : (parse sql).type = .insert
  table_eq : upper (parse sql).insertStmt.tableName = table
  run : exec p e (parse sql) = .ok (e', ⟨.returned 0 none, []⟩)
  tuple : ∃ (t : Table) (c : ℕ) (d : ColumnDef) (tuple val : Text), e.tables table = some t ∧ t.schema[c]? = some d ∧ d.name = column ∧
    d.type = .varchar ∧ tuple ∈ tuples (parse sql).insertStmt.rawValues ∧
    (getLines (ch ',') tuple)[c]? = some val ∧ trim isSpace val = quoted x

/-- The row has the string in a column. -/
def HasString (t : Table) (u : Option Table) (column x : Text) (row : Row) : Prop :=
  ∃ v, valueOf (resultSchema t u) row column = some v ∧ v.str = x

/-- A row with the string is inserted, and the query finds one and no row with another string. -/
def FindsInserted (p : Platform) (e : Executor) (insertSql selectSql table column x : Text) : Prop :=
  ∃ e' t u kept, InsertsLiteral p e e' insertSql table column x ∧
    Accepted e' (parse selectSql).selectStmt t ∧
    Keeps p e' (parse selectSql).selectStmt t u kept ∧
    (∃ row ∈ kept, HasString t u column x row) ∧ ∀ row ∈ kept, HasString t u column x row

/-! ## The two readings of a literal -/

theorem trim_quoted (x : Text) : trim isSpace (quoted x) = quoted x := by
  have hquote : isSpace (ch '\'') = false := by decide
  rw [trim, quoted, List.dropWhile_cons_of_neg (by simp [hquote]), ← List.cons_append]
  exact dropEnd_append_of_neg _ hquote

theorem unquote_quoted (x : Text) : unquote (quoted x) = x := by
  have hlast : (quoted x).getLast? = some (ch '\'') := by
    rw [quoted, ← List.cons_append, List.getLast?_concat]
  have hlength : (quoted x).length = x.length + 2 := by simp [quoted]
  rw [unquote, if_pos ⟨by omega, rfl, hlast⟩, hlength, quoted, List.drop_succ_cons, List.drop_zero,
    Nat.add_sub_cancel, List.take_left]

/-- `INSERT` reads the literal as the string. -/
theorem parseValue_quoted (p : Platform) (x : Text) :
    parseValue p .varchar (quoted x) = .ok ⟨.varchar, p.uninitialised, x⟩ := by
  rw [parseValue, trim_quoted, unquote_quoted]

theorem quoted_ne (x : Text) : x ≠ quoted x := by
  intro h
  have hlength := congrArg List.length h
  rw [quoted, List.length_cons, List.length_append] at hlength
  omega

/-- A quote is no number. -/
theorem stoll_quoted (x : Text) : stoll (quoted x) = .error .invalidArgument := by
  have hspace : isSpace (ch '\'') = false := by decide
  have hdigit : isDigit (ch '\'') = false := by decide
  have hsign : sign (quoted x) = (false, quoted x) := by
    rcases sign_cases (quoted x) with ⟨digits, h, -⟩ | ⟨digits, h, -⟩ | h
    · exact absurd (List.cons.inj h).1 (by decide)
    · exact absurd (List.cons.inj h).1 (by decide)
    · exact h
  have hdrop : (quoted x).dropWhile isSpace = quoted x :=
    List.dropWhile_cons_of_neg (by simp [hspace])
  have htake : (quoted x).takeWhile isDigit = [] := List.takeWhile_cons_of_neg (by simp [hdigit])
  simp only [stoll, hdrop, hsign, htake, if_true]

/-- A value that passes the clause with the literal has the quotes in it. -/
theorem str_of_passes {w : WhereClause} {v : Value} (hop : w.op = str "=")
    (hvalue : w.valueStr = quoted x) (h : passes w v = .ok true) : v.str = quoted x := by
  rw [passes, if_pos hop, hvalue, stoll_quoted] at h
  split at h
  · simpa using h
  · cases h

/-! ## Queries with a literal -/

/-- A row that passes a clause for a column has a value there that passes it. -/
theorem passes_of_passesAll {w : WhereClause} {ws : List WhereClause} (hw : w ∈ ws)
    (h : passesAll t u ws row = true) {i : ℕ} (hi : resultIndex t u w.columnName = some i) :
    ∃ v, row.values[i]? = some v ∧ passes w v = .ok true := by
  obtain ⟨ws₁, ws₂, rfl⟩ := List.append_of_mem hw
  rw [passesAll_append, Bool.and_eq_true, ← List.singleton_append, passesAll_append,
    Bool.and_eq_true] at h
  have htest := passesAll_iff.mp h.2.1
  cases hv : row.values[i]? with
  | none => simp [matchesAll, hi, hv] at htest
  | some v =>
    rw [matchesAll_singleton hi hv] at htest
    exact ⟨v, rfl, Except.ok.inj htest⟩

/-- The index is not asked for a literal. -/
theorem indexLookup_quoted {w : WhereClause} (hw : w ∈ s.filters) (hvalue : w.valueStr = quoted x)
    (disk : Disk) : indexLookup p t disk s = .ok none := by
  unfold indexLookup
  cases hasks : asksForId s with
  | none => rfl
  | some valueStr =>
    have hliteral : valueStr = quoted x := by
      unfold asksForId at hasks
      split at hasks
      · rename_i w' _ hfilters
        split at hasks
        · rw [hfilters, List.mem_singleton] at hw
          rw [← hvalue, hw]
          exact (Option.some.inj hasks).symm
        · cases hasks
      · cases hasks
    simp only [hliteral, stoll_quoted]

/-- No row of the result has the string. -/
theorem not_hasString_of_keeps {w : WhereClause} (hw : w ∈ s.filters) (hop : w.op = str "=")
    (hvalue : w.valueStr = quoted x) (hkept : Keeps p e s t u kept) (hrow : row ∈ kept) :
    ¬ HasString t u w.columnName x row := by
  rintro ⟨v, hv, hstr⟩
  have hfull := (hkept.read row hrow).full
  cases hkept with
  | index hindex =>
    rw [indexLookup_quoted hw hvalue] at hindex
    cases hindex
  | filter _ hrows hkept =>
    rw [filterRows_kept (fun r hr => (hrows.read r hr).full) hkept] at hrow
    rw [valueOf_eq hfull] at hv
    obtain ⟨i, hi, hvi⟩ := Option.bind_eq_some_iff.mp hv
    rw [← resultIndex_eq_columnIndex] at hi
    obtain ⟨v', hv', hpass⟩ := passes_of_passesAll hw (List.mem_filter.mp hrow).2 hi
    obtain rfl : v = v' := Option.some.inj (hvi.symm.trans hv')
    exact quoted_ne x (hstr.symm.trans (str_of_passes hop hvalue hpass))

/-- `INSERT` reads `'x'` as `x`, and no query finds a row with `x` by the clause `c = 'x'`. -/
theorem literal_never_found (p : Platform) (e : Executor) (insertSql selectSql : Text)
    (q : SelectTree) (cond : Condition) (x : Text) (hcond : cond ∈ q.conditions)
    (hop : cond.op = .eq) (hoperand : cond.operand.text = quoted x)
    (hsql : dropEnd isJunk selectSql ∈ (Tree.select q).texts .line) :
    parseValue p .varchar (quoted x) = .ok ⟨.varchar, p.uninitialised, x⟩ ∧
      ¬ FindsInserted p e insertSql selectSql q.table.caps cond.column.name.caps x := by
  refine ⟨parseValue_quoted p x, ?_⟩
  rintro ⟨e', t, u, kept, -, -, hkept, ⟨row, hrow, hfound⟩, -⟩
  have hw : cond.statement ∈ (parse selectSql).selectStmt.filters := by
    rw [parse_layout hsql]
    exact List.mem_map_of_mem hcond
  have hop' : cond.statement.op = str "=" := by rw [Condition.statement, hop]; rfl
  exact not_hasString_of_keeps hw hop' hoperand hkept hrow hfound

/-- `SELECT N FROM T WHERE N = 'x'`. -/
def selectLiteral : SelectTree where
  items := [.column ⟨none, ⟨str "N", by decide, by decide +kernel, by decide⟩⟩]
  items_ne_nil := by simp
  table := ⟨str "T", by decide, by decide +kernel, by decide⟩
  join := none
  conditions := [⟨⟨none, ⟨str "N", by decide, by decide +kernel, by decide⟩⟩, .eq,
    ⟨quoted (str "x"), by decide, by decide +kernel⟩⟩]
  order := none

theorem literal_never_found_x :
    selectLiteral.print = str "SELECT N FROM T WHERE N = 'x'" ∧
      ¬ FindsInserted .reference (init (str "data") .blank) (str "INSERT INTO T VALUES ('x')")
        selectLiteral.print (str "T") (str "N") (str "x") := by
  refine ⟨by decide, ?_⟩
  have hclean : dropEnd isJunk selectLiteral.print = selectLiteral.print := by decide
  exact (literal_never_found .reference _ _ selectLiteral.print selectLiteral
    ⟨⟨none, ⟨str "N", by decide, by decide +kernel, by decide⟩⟩, .eq,
      ⟨quoted (str "x"), by decide, by decide +kernel⟩⟩ (str "x") List.mem_cons_self rfl rfl
    (by rw [hclean]; exact print_mem_texts (.select selectLiteral))).2

/-- The string is inserted, and the query for it emits nothing. -/
theorem not_findsInserted_x :
    ∃ e e', runNew [str "CREATE TABLE T (N VARCHAR)"] = .ok e ∧
      InsertsLiteral .reference e e' (str "INSERT INTO T VALUES ('x')") (str "T") (str "N") (str "x") ∧
      execSelect .reference e' (parse (str "SELECT N FROM T WHERE N = 'x'")).selectStmt =
        .ok ⟨.returned 0 none, []⟩ ∧
      ¬ FindsInserted .reference e (str "INSERT INTO T VALUES ('x')")
        (str "SELECT N FROM T WHERE N = 'x'") (str "T") (str "N") (str "x") := by
  have hend : (do
      let e ← runNew [str "CREATE TABLE T (N VARCHAR)"]
      let inserted ← exec .reference e (parse (str "INSERT INTO T VALUES ('x')"))
      let emitted ← execSelect .reference inserted.1
        (parse (str "SELECT N FROM T WHERE N = 'x'")).selectStmt
      return ((e.tables (str "T")).map Table.schema, inserted.2, emitted)) =
      (.ok (some [⟨str "N", .varchar⟩], ⟨.returned 0 none, []⟩, ⟨.returned 0 none, []⟩) :
        Except Fault (Option Schema × Outcome × Outcome)) := by decide +kernel
  obtain ⟨e, he, hend⟩ := bind_eq_ok hend
  obtain ⟨⟨e', o⟩, hexec, hend⟩ := bind_eq_ok hend
  obtain ⟨emitted, hselect, hend⟩ := bind_eq_ok hend
  simp only [Pure.pure, Except.pure, Except.ok.injEq, Prod.mk.injEq] at hend
  obtain ⟨hschema, rfl, rfl⟩ := hend
  obtain ⟨t, ht, hschema⟩ := Option.map_eq_some_iff.mp hschema
  refine ⟨e, e', he, ⟨by decide, by decide, hexec, ?_⟩, hselect, ?_⟩
  · exact ⟨t, 0, ⟨str "N", .varchar⟩, str "'x'", str "'x'", ht, by rw [hschema]; rfl, rfl, rfl,
      by decide, by decide, by decide⟩
  · rintro ⟨e'', t', u, kept, hinserts, hacc, hkept, ⟨row, hrow, -⟩, -⟩
    obtain rfl : e' = e'' := by
      have heq := hexec.symm.trans hinserts.run
      simp only [Except.ok.injEq, Prod.mk.injEq] at heq
      exact heq.1
    rw [hkept.execSelect hacc] at hselect
    have hnil := congrArg Outcome.rows (Except.ok.inj hselect)
    have horder : (parse (str "SELECT N FROM T WHERE N = 'x'")).selectStmt.hasOrder = false := by decide
    simp only [emit, orderRows, horder, Bool.false_eq_true, if_false, List.map_eq_nil_iff] at hnil
    rw [hnil] at hrow
    cases hrow

end FlexQL.Executor
