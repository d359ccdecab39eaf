import FlexQL.Executor.SelectSafe

/-!
# Clauses that are not tested

The filter knows three operators, skips the clauses for columns that it does not find, and compares
numbers for `>` and `>=` whatever the type of the column is. A text has no number: what is compared
then was never written. So a query emits the rows that pass its other clauses.
-/

namespace FlexQL.Executor

open Text Table Fallible

variable {p : Platform} {e : Executor} {t t2 : Table} {u : Option Table} {s : SelectStmt}
  {schema : Schema} {disk : Disk} {rows rows' kept : List Row} {row : Row} {w : WhereClause}
  {ws ws' : List WhereClause} {reading : Text → Text}

/-! ## The meaning of operators -/

/-- The usual meaning of an operator. -/
def compares {α : Type} [DecidableEq α] [LT α] [DecidableLT α] (op : Text) (a b : α) : Bool :=
  if op = str "=" then a = b
  else if op = str "!=" ∨ op = str "<>" then a ≠ b
  else if op = str "<" then a < b
  else if op = str "<=" then ¬ b < a
  else if op = str ">" then b < a
  else if op = str ">=" then ¬ a < b
  else false

/-- A row satisfies a clause. `reading` gives the string that an operand stands for. -/
def means (reading : Text → Text) (schema : Schema) (row : Row) (w : WhereClause) : Bool :=
  match valueOf schema row w.columnName with
  | none => false
  | some v =>
    if v.type = .varchar then compares w.op v.str (reading w.valueStr)
    else match intLiteral w.valueStr with
      | none => false
      | some n => compares w.op v.bits.toInt n

/-- The clause compares a column of texts as if it held numbers. -/
def OrdersTexts (schema : Schema) (w : WhereClause) : Prop :=
  (w.op = str ">" ∨ w.op = str ">=") ∧
    ∃ d, schema.find? (fun d => d.name = w.columnName) = some d ∧ d.type = .varchar

/-- The clauses that the filter does not test as they are meant. -/
def Untested (schema : Schema) (w : WhereClause) : Prop :=
  (w.op ≠ str "=" ∧ w.op ≠ str ">" ∧ w.op ≠ str ">=") ∨
    (∀ d ∈ schema, d.name ≠ w.columnName) ∨ OrdersTexts schema w

/-- The query comes to an end, and it is refused, or all its rows satisfy the clause. -/
def HeedsClause (reading : Text → Text) (p : Platform) (e : Executor) (s : SelectStmt) (t : Table)
    (u : Option Table) (w : WhereClause) : Prop :=
  ∃ o, execSelect p e s = .ok o ∧ ((∃ err, o = ⟨.returned 1 (some err), []⟩) ∨
    ∀ kept, Keeps p e s t u kept → ∀ row ∈ kept, means reading (resultSchema t u) row w = true)

/-- The clause lets rows through. For texts it depends on a number that was never written. -/
def LetsThrough (p : Platform) (schema : Schema) (w : WhereClause) : Prop :=
  OrdersTexts schema w → passes w ⟨.varchar, p.uninitialised, []⟩ = .ok true

/-! ## The number of a text -/

/-- The number of a text was never written. -/
def Unwritten (p : Platform) (row : Row) : Prop :=
  ∀ v ∈ row.values, v.type = .varchar → v.bits = p.uninitialised

theorem materializeValue_unwritten {rid c : ℕ} {type : ColumnType} {v : Value}
    (h : materializeValue p t disk rid type c = .ok v) (hv : v.type = .varchar) :
    v.bits = p.uninitialised := by
  obtain ⟨out, -, h⟩ := bind_eq_ok h
  cases out with
  | none =>
    cases h
    rfl
  | some buf =>
    by_cases htype : type = .varchar
    · simp only [htype, if_true] at h
      cases h
      rfl
    · simp only [htype, if_false] at h
      cases h
      exact absurd hv htype

theorem materializeFrom_unwritten {rid c : ℕ} {values : List Value}
    (h : materializeFrom p t disk rid schema c = .ok values) :
    ∀ v ∈ values, v.type = .varchar → v.bits = p.uninitialised := by
  induction schema generalizing c values with
  | nil =>
    cases h
    simp
  | cons d schema ih =>
    obtain ⟨v, hv, h⟩ := bind_eq_ok h
    obtain ⟨vs, hvs, h⟩ := bind_eq_ok h
    cases h
    exact List.forall_mem_cons.mpr ⟨materializeValue_unwritten hv, ih hvs⟩

theorem materializeRow_unwritten {rid : ℕ} (h : materializeRow p t disk rid = .ok row) :
    Unwritten p row := by
  obtain ⟨values, hvalues, h⟩ := bind_eq_ok h
  cases h
  exact materializeFrom_unwritten hvalues

theorem Scanned.unwritten (h : Scanned p e s t u rows) : ∀ row ∈ rows, Unwritten p row := by
  cases h with
  | table _ _ hrows => exact materializeRows_forall (fun _ _ => materializeRow_unwritten) hrows
  | join _ _ hrows =>
    refine join_forall (fun _ _ => materializeRow_unwritten) (fun _ _ => materializeRow_unwritten)
      (fun row row2 h h2 v hv => ?_) hrows
    rcases List.mem_append.mp hv with hv | hv
    · exact h v hv
    · exact h2 v hv

/-! ## One clause -/

/-- The result of a comparison of numbers. -/
theorem passes_congr {v v' : Value} (hop : w.op = str ">" ∨ w.op = str ">=") (h : v.bits = v'.bits) :
    passes w v = passes w v' := by
  have hne : w.op ≠ str "=" := by
    rcases hop with hop | hop <;> rw [hop] <;> decide
  simp only [passes, if_neg hne, h]

theorem passes_of_operator {v : Value} (h : w.op ≠ str "=" ∧ w.op ≠ str ">" ∧ w.op ≠ str ">=") :
    passes w v = .ok true := by
  simp only [passes, if_neg h.1, if_neg h.2.1, if_neg h.2.2]

theorem passesAll_untested (hrow : RowFull (resultSchema t u) row) (hbits : Unwritten p row)
    (hw : Untested (resultSchema t u) w) :
    passesAll t u [w] row = true ↔ LetsThrough p (resultSchema t u) w := by
  rw [passesAll_iff]
  cases hd : (resultSchema t u).find? fun d => d.name = w.columnName with
  | none => simp [matchesAll, resultIndex_eq_none hd, LetsThrough, OrdersTexts, hd]
  | some d =>
    obtain ⟨i, v, hi, hv, htype, -⟩ := exists_value hrow hd
    rw [← resultIndex_eq_columnIndex] at hi
    rw [matchesAll_singleton hi hv, LetsThrough, Except.ok.injEq]
    by_cases htexts : OrdersTexts (resultSchema t u) w
    · obtain ⟨hop, d', hd', hvarchar⟩ := id htexts
      obtain rfl : d = d' := Option.some.inj (hd.symm.trans hd')
      have hunwritten : v.bits = (⟨.varchar, p.uninitialised, []⟩ : Value).bits :=
        hbits v (List.mem_of_getElem? hv) (htype.trans hvarchar)
      rw [passes_congr hop hunwritten]
      simp [htexts]
    · have hoperator : w.op ≠ str "=" ∧ w.op ≠ str ">" ∧ w.op ≠ str ">=" := by
        rcases hw with hw | hw | hw
        · exact hw
        · have hname := List.find?_some hd
          exact absurd (of_decide_eq_true hname) (hw d (List.mem_of_find?_eq_some hd))
        · exact absurd hw htexts
      simp [passes_of_operator hoperator, htexts]

/-! ## Queries -/

/-- A row passes all clauses when it passes the others, and the clause lets rows through. -/
theorem passesAll_insert (hrow : RowFull (resultSchema t u) row) (hbits : Unwritten p row)
    (hw : Untested (resultSchema t u) w) :
    passesAll t u (ws ++ w :: ws') row = true ↔
      passesAll t u (ws ++ ws') row = true ∧ LetsThrough p (resultSchema t u) w := by
  rw [← passesAll_untested hrow hbits hw, ← List.singleton_append, passesAll_append, passesAll_append,
    passesAll_append]
  simp only [Bool.and_eq_true]
  tauto

/-- A query that asks for `ID` has this clause only. -/
theorem asksForId_eq_some {valueStr : Text} (h : asksForId s = some valueStr) (hw : w ∈ s.filters) :
    s.hasJoin = false ∧ w.columnName = idName ∧ w.op = str "=" := by
  unfold asksForId at h
  split at h
  · rename_i w' hjoin hfilters
    split at h
    · rename_i hid
      obtain rfl := List.mem_singleton.mp (hfilters ▸ hw)
      exact ⟨hjoin, hid⟩
    · cases h
  · cases h

/-- A table that is asked for `ID` in a clause that is not tested has no such column. -/
theorem not_hasIndex_of_untested (hw : Untested (resultSchema t u) w) (hmem : w ∈ s.filters)
    {valueStr : Text} (hasks : asksForId s = some valueStr) : ¬ t.HasIndex := by
  obtain ⟨hjoin, hname, hop⟩ := asksForId_eq_some hasks hmem
  rintro ⟨d, hd, hid⟩
  rcases hw with hw | hw | hw
  · exact hw.1 hop
  · exact hw d (List.mem_append_left _ (List.mem_of_getElem? hd)) (hid.trans hname.symm)
  · rcases hw.1 with hop' | hop' <;> exact absurd (hop.symm.trans hop') (by decide)

/-- The missing index is dereferenced. -/
theorem execSelect_of_asks (he : Reachable p e) (ht : Accepted e s t)
    (hw : Untested (resultSchema t u) w) (hmem : w ∈ s.filters) {valueStr : Text} {id : BitVec 64}
    (hasks : asksForId s = some valueStr) (hid : stoll valueStr = .ok id) :
    execSelect p e s = .error .nullPointer := by
  have htable := getTable_eq_ok.mp ht.table
  have hno := he.indexed _ t htable (not_hasIndex_of_untested hw hmem hasks)
  have hlookup : indexLookup p t e.disk s = .error .nullPointer := by
    simp only [indexLookup, hasks, hid, hno]
  have hjoin := (asksForId_eq_some hasks hmem).1
  simp only [execSelect, ht.table, hjoin, ht.known hjoin, hlookup, Bool.false_eq_true, if_false,
    Bind.bind, Except.bind]

/-- A query that the index does not answer emits the rows that the filter keeps. -/
theorem heedsClause_of_miss (ht : Accepted e s t) (hmiss : indexLookup p t e.disk s = .ok none)
    (hrows : Scanned p e s t u rows) :
    HeedsClause reading p e s t u w ↔ (∃ row ∈ rows, ¬ OperandsRead t u s.filters row) ∨
      ∀ row ∈ rows, passesAll t u s.filters row = true →
        means reading (resultSchema t u) row w = true := by
  have hfull : ∀ row ∈ rows, RowFull (resultSchema t u) row := fun r hr => (hrows.read r hr).full
  have hselect := execSelect_of_scanned ht hmiss hrows
  have hkeeps : ∀ kept, Keeps p e s t u kept → filterRows t u s.filters rows = .ok (.ok kept) := by
    intro kept hkept
    cases hkept with
    | index hhit =>
      rw [hmiss] at hhit
      cases hhit
    | filter _ hrows' hkept => rwa [hrows.unique hrows']
  rcases filterRows_cases s.filters hfull with ⟨⟨row, hrow, exn, hexn⟩, exn', hthrow⟩ | ⟨htests, hkept⟩
  · rw [hthrow] at hselect
    refine ⟨fun _ => Or.inl ⟨row, hrow, ?_⟩, fun _ => ⟨_, hselect, Or.inr ?_⟩⟩
    · rw [operandsRead_iff (hfull row hrow)]
      exact fun h => h exn hexn
    · intro kept hkept
      rw [hkeeps kept hkept] at hthrow
      cases hthrow
  · rw [hkept] at hselect
    constructor
    · rintro ⟨o, ho, ⟨err, rfl⟩ | hheeds⟩
      · rw [hselect] at ho
        cases ho
      · exact Or.inr fun row hrow hpass =>
          hheeds _ (.filter hmiss hrows hkept) row (List.mem_filter.mpr ⟨hrow, hpass⟩)
    · rintro (⟨row, hrow, hno⟩ | hall)
      · refine absurd ((operandsRead_iff (hfull row hrow) _).mpr ?_) hno
        intro exn hthrows
        rw [htests row hrow] at hthrows
        cases hthrows
      · refine ⟨_, hselect, Or.inr fun kept' hkept' row hrow => ?_⟩
        have heq := hkept.symm.trans (hkeeps kept' hkept')
        obtain rfl : rows.filter (passesAll t u s.filters) = kept' := by simpa using heq
        obtain ⟨hrow, hpass⟩ := List.mem_filter.mp hrow
        exact hall row hrow hpass

/-- `SELECT ID FROM T WHERE V < 5`. -/
def selectBelow : SelectStmt where
  columns := [str "ID"]
  tableName := str "T"
  filters := [⟨str "V", str "<", str "5"⟩]

end FlexQL.Executor
