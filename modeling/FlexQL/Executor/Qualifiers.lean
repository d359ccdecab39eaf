import FlexQL.Executor.JoinSpec
import FlexQL.Executor.ResultRows
import FlexQL.Parser.RoundTrip

/-!
# Qualified names

The parser cuts `T.` off the name `T.C`. In the result of a join the bare name is looked up in the
first table and then in the second one, and `ON` looks up its left side in the first table and its
right side in the second one, whatever the qualifiers said.
-/

namespace FlexQL.Executor

open Text Table Fallible FlexQL.Parser

variable {p : Platform} {t u : Table} {disk : Disk} {q : SelectTree} {j : JoinTree} {c : Column}
  {s : SelectStmt} {rows1 rows2 : List Row}

/-! ## References -/

def itemColumn : Item → Option Column
  | .star => none
  | .column c => some c

/-- The references to columns of the result: in the select list, in `WHERE` and in `ORDER BY`. -/
def resultReferences (q : SelectTree) : List Column :=
  q.items.filterMap itemColumn ++ q.conditions.map Condition.column ++
    (q.order.map OrderTree.column).toList

/-- Every reference is written `TABLE.COL`. -/
def Qualified (q : SelectTree) (j : JoinTree) : Prop :=
  ∀ c ∈ j.left :: j.right :: resultReferences q, c.qualifier.isSome

instance (q : SelectTree) (j : JoinTree) : Decidable (Qualified q j) :=
  inferInstanceAs (Decidable (∀ c ∈ _ :: _ :: _, _))

/-- The column is referred to as one of the table. -/
def Names (table : Ident) (c : Column) : Prop := c.qualifier.map Ident.caps = some table.caps

instance (table : Ident) (c : Column) : Decidable (Names table c) :=
  inferInstanceAs (Decidable (_ = _))

/-- The column that a reference means, by its place in the rows of the join: the columns of the
first table, then those of the second one. A bare name may be in both tables. -/
def meant (q : SelectTree) (j : JoinTree) (t u : Table) (c : Column) : Option ℕ :=
  if c.qualifier.isNone then resultIndex t (some u) c.name.caps
  else if Names q.table c then columnIndex t.schema c.name.caps
  else if Names j.table c then (columnIndex u.schema c.name.caps).map (t.schema.length + ·)
  else none

/-- Every reference is looked up as the column that it means. -/
structure HeedsQualifiers (q : SelectTree) (j : JoinTree) (t u : Table) (s : SelectStmt) : Prop where
  items : ∀ (i : ℕ) c, q.items[i]? = some (.column c) →
    ∃ name, s.columns[i]? = some name ∧ resultIndex t (some u) name = meant q j t u c
  conditions : ∀ (i : ℕ) cond, q.conditions[i]? = some cond →
    ∃ w, s.filters[i]? = some w ∧ resultIndex t (some u) w.columnName = meant q j t u cond.column
  order : ∀ o, q.order = some o → s.hasOrder = true ∧
    resultIndex t (some u) s.orderBy.column = meant q j t u o.column
  onLeft : columnIndex t.schema s.join.onLeft = meant q j t u j.left
  onRight : (columnIndex u.schema s.join.onRight).map (t.schema.length + ·) = meant q j t u j.right

/-! ## When they are heeded -/

def HasColumn (t : Table) (c : Column) : Prop := ∃ d ∈ t.schema, d.name = c.name.caps

/-- The first of the two tables with a column of this name is the one that the reference names. -/
def FirstNamed (q : SelectTree) (j : JoinTree) (t u : Table) (c : Column) : Prop :=
  (HasColumn t c → Names q.table c) ∧ (¬ HasColumn t c → HasColumn u c → Names j.table c)

/-- The left side of `ON` names the first table, or there is no such column. -/
def LeftNamed (q : SelectTree) (j : JoinTree) (t u : Table) (c : Column) : Prop :=
  Names q.table c ∨ (¬ HasColumn t c ∧ (Names j.table c → ¬ HasColumn u c))

/-- The right side of `ON` names the second table, or there is no such column. -/
def RightNamed (q : SelectTree) (j : JoinTree) (t u : Table) (c : Column) : Prop :=
  Names j.table c ∨ (¬ HasColumn u c ∧ (Names q.table c → ¬ HasColumn t c))

theorem columnIndex_cases (t : Table) (c : Column) :
    (∃ i < t.schema.length, columnIndex t.schema c.name.caps = some i ∧ HasColumn t c) ∨
      columnIndex t.schema c.name.caps = none ∧ ¬ HasColumn t c := by
  cases h : columnIndex t.schema c.name.caps with
  | none =>
    right
    simpa [columnIndex, List.findIdx?_eq_none_iff, HasColumn] using h
  | some i =>
    obtain ⟨hlt, hname, -⟩ := List.findIdx?_eq_some_iff_getElem.mp h
    exact Or.inl ⟨i, hlt, rfl, _, List.getElem_mem hlt, of_decide_eq_true hname⟩

/-- The tables have different names. -/
theorem Names.ne (hne : q.table.caps ≠ j.table.caps) (h : Names q.table c) : ¬ Names j.table c := by
  intro h'
  exact hne (Option.some.inj (h.symm.trans h'))

theorem meant_of_qualified (hc : c.qualifier.isSome) :
    meant q j t u c = if Names q.table c then columnIndex t.schema c.name.caps
      else if Names j.table c then (columnIndex u.schema c.name.caps).map (t.schema.length + ·)
      else none := by
  rw [meant, if_neg (by simpa using Option.isSome_iff_ne_none.mp hc)]

/-- A lookup in the result of the join. -/
theorem resultIndex_eq_meant_iff (hne : q.table.caps ≠ j.table.caps) (hc : c.qualifier.isSome) :
    resultIndex t (some u) c.name.caps = meant q j t u c ↔ FirstNamed q j t u c := by
  rw [meant_of_qualified hc]
  unfold resultIndex FirstNamed
  rcases columnIndex_cases t c with ⟨i, hi, ht, hhas⟩ | ⟨ht, hno⟩
  · simp only [ht, hhas, forall_true_left, not_true_eq_false, false_implies, and_true]
    by_cases hfirst : Names q.table c
    · simp [hfirst]
    · simp only [hfirst, if_false, iff_false]
      by_cases hsecond : Names j.table c
      · rw [if_pos hsecond]
        rintro heq
        obtain ⟨k, -, hk⟩ := Option.map_eq_some_iff.mp heq.symm
        omega
      · simp [hsecond]
  · simp only [ht, hno, false_implies, not_false_eq_true, forall_true_left, true_and]
    rcases columnIndex_cases u c with ⟨k, -, hu, hhas⟩ | ⟨hu, hno'⟩
    · simp only [hu, hhas, forall_true_left, Option.map_some]
      by_cases hfirst : Names q.table c
      · simp [hfirst, hfirst.ne hne]
      · by_cases hsecond : Names j.table c <;> simp [hfirst, hsecond]
    · simp [hu, hno']

/-- The lookup of the left side of `ON`. -/
theorem left_eq_meant_iff (hc : c.qualifier.isSome) :
    columnIndex t.schema c.name.caps = meant q j t u c ↔ LeftNamed q j t u c := by
  rw [meant_of_qualified hc]
  unfold LeftNamed
  by_cases hfirst : Names q.table c
  · simp [hfirst]
  · simp only [hfirst, if_false, false_or]
    rcases columnIndex_cases t c with ⟨i, hi, ht, hhas⟩ | ⟨ht, hno⟩
    · simp only [ht, hhas, not_true_eq_false, false_and, iff_false]
      by_cases hsecond : Names j.table c
      · rw [if_pos hsecond]
        rintro heq
        obtain ⟨k, -, hk⟩ := Option.map_eq_some_iff.mp heq.symm
        omega
      · simp [hsecond]
    · rcases columnIndex_cases u c with ⟨k, -, hu, hhas⟩ | ⟨hu, hno'⟩
      · by_cases hsecond : Names j.table c <;> simp [ht, hno, hu, hhas, hsecond]
      · simp [ht, hno, hu, hno']

/-- The lookup of the right side of `ON`. -/
theorem right_eq_meant_iff (hne : q.table.caps ≠ j.table.caps) (hc : c.qualifier.isSome) :
    (columnIndex u.schema c.name.caps).map (t.schema.length + ·) = meant q j t u c ↔
      RightNamed q j t u c := by
  rw [meant_of_qualified hc]
  unfold RightNamed
  by_cases hsecond : Names j.table c
  · have hfirst : ¬ Names q.table c := fun hfirst => hfirst.ne hne hsecond
    simp [hfirst, hsecond]
  · simp only [hsecond, if_false, false_or]
    rcases columnIndex_cases u c with ⟨k, -, hu, hhas⟩ | ⟨hu, hno⟩
    · simp only [hu, hhas, not_true_eq_false, false_and, iff_false, Option.map_some]
      by_cases hfirst : Names q.table c
      · rw [if_pos hfirst]
        rintro heq
        have hlt := (List.findIdx?_eq_some_iff_getElem.mp heq.symm).1
        omega
      · simp [hfirst]
    · rcases columnIndex_cases t c with ⟨i, -, ht, hhas⟩ | ⟨ht, hno'⟩
      · by_cases hfirst : Names q.table c <;> simp [ht, hno, hu, hhas, hfirst]
      · simp [ht, hno, hu, hno']

theorem mem_resultReferences : c ∈ resultReferences q ↔ .column c ∈ q.items ∨
    (∃ cond ∈ q.conditions, cond.column = c) ∨ ∃ o, q.order = some o ∧ o.column = c := by
  have hitems : c ∈ q.items.filterMap itemColumn ↔ .column c ∈ q.items := by
    rw [List.mem_filterMap]
    constructor
    · rintro ⟨item, hitem, heq⟩
      cases item with
      | star => cases heq
      | column c' =>
        cases heq
        exact hitem
    · exact fun h => ⟨_, h, rfl⟩
  simp only [resultReferences, List.mem_append, hitems, List.mem_map, Option.mem_toList,
    Option.map_eq_some_iff, or_assoc]

/-- The statement of the query looks every reference up as it is meant just when the first table with
the name is the one that is named, and `ON` names the two tables in their order. -/
theorem heedsQualifiers_statement_iff (hjoin : q.join = some j) (hqualified : Qualified q j)
    (hne : q.table.caps ≠ j.table.caps) :
    HeedsQualifiers q j t u q.statement ↔ (∀ c ∈ resultReferences q, FirstNamed q j t u c) ∧
      LeftNamed q j t u j.left ∧ RightNamed q j t u j.right := by
  have hsome : ∀ c ∈ resultReferences q, c.qualifier.isSome := fun c hc =>
    hqualified c (List.mem_cons_of_mem _ (List.mem_cons_of_mem _ hc))
  have hlookup : ∀ c ∈ resultReferences q,
      (resultIndex t (some u) c.name.caps = meant q j t u c ↔ FirstNamed q j t u c) := fun c hc =>
    resultIndex_eq_meant_iff hne (hsome c hc)
  have hleft := left_eq_meant_iff (q := q) (j := j) (t := t) (u := u)
    (hqualified j.left List.mem_cons_self)
  have hright := right_eq_meant_iff (t := t) (u := u) hne
    (hqualified j.right (List.mem_cons_of_mem _ List.mem_cons_self))
  have hon : q.statement.join = j.statement := by simp [SelectTree.statement, hjoin]
  constructor
  · intro h
    refine ⟨fun c hc => (hlookup c hc).mp ?_, ?_, ?_⟩
    · rcases mem_resultReferences.mp hc with hc | ⟨cond, hcond, rfl⟩ | ⟨o, ho, rfl⟩
      · obtain ⟨i, hi⟩ := List.getElem?_of_mem hc
        obtain ⟨name, hname, heq⟩ := h.items i c hi
        obtain rfl : c.name.caps = name := by simpa [SelectTree.statement, hi, Item.caps] using hname
        exact heq
      · obtain ⟨i, hi⟩ := List.getElem?_of_mem hcond
        obtain ⟨w, hw, heq⟩ := h.conditions i cond hi
        obtain rfl : cond.statement = w := by simpa [SelectTree.statement, hi] using hw
        exact heq
      · have heq := (h.order o ho).2
        simpa [SelectTree.statement, ho, OrderTree.statement] using heq
    · rw [← hleft, ← h.onLeft, hon]
      rfl
    · rw [← hright, ← h.onRight, hon]
      rfl
  · rintro ⟨hresult, hl, hr⟩
    have hmeant : ∀ c ∈ resultReferences q,
        resultIndex t (some u) c.name.caps = meant q j t u c := fun c hc =>
      (hlookup c hc).mpr (hresult c hc)
    refine ⟨fun i c hi => ?_, fun i cond hi => ?_, fun o ho => ?_, ?_, ?_⟩
    · refine ⟨c.name.caps, by simp [SelectTree.statement, hi, Item.caps], hmeant c ?_⟩
      exact mem_resultReferences.mpr (Or.inl (List.mem_of_getElem? hi))
    · refine ⟨cond.statement, by simp [SelectTree.statement, hi], hmeant _ ?_⟩
      exact mem_resultReferences.mpr (Or.inr (Or.inl ⟨cond, List.mem_of_getElem? hi, rfl⟩))
    · have heq := hmeant o.column (mem_resultReferences.mpr (Or.inr (Or.inr ⟨o, ho, rfl⟩)))
      refine ⟨by simp [SelectTree.statement, ho], ?_⟩
      simpa [SelectTree.statement, ho, OrderTree.statement] using heq
    · rw [← hleft.mpr hl, hon]
      rfl
    · rw [← hright.mpr hr, hon]
      rfl

/-! ## What the query gives -/

/-- The joined rows that agree in two columns, which may change their sides. -/
def pairs (i k : ℕ) (rows1 rows2 : List Row) : List Row :=
  (rows1.flatMap fun row1 => rows2.map fun row2 => ⟨row1.values ++ row2.values⟩).filter fun row =>
    key i row = key k row

theorem flatMap_matchRow {n i k : ℕ} (hrows : ∀ row ∈ rows1, row.values.length = n) (hi : i < n) :
    (rows1.flatMap fun row1 => matchRow i k row1 rows2) = pairs i (n + k) rows1 rows2 := by
  rw [pairs, List.filter_flatMap]
  refine List.flatMap_congr fun row1 hrow1 => ?_
  have hlen := hrows row1 hrow1
  rw [matchRow, List.filter_map, ← List.filterMap_eq_filter, List.map_filterMap]
  refine List.filterMap_congr fun row2 _ => ?_
  have hleft : key i ⟨row1.values ++ row2.values⟩ = key i row1 := by
    rw [key, key, List.getElem?_append_left (by omega)]
  have hright : key (n + k) ⟨row1.values ++ row2.values⟩ = key k row2 := by
    rw [key, key, List.getElem?_append_right (by omega), hlen, Nat.add_sub_cancel_left]
  simp only [Option.guard, Function.comp_apply, hleft, hright]
  by_cases heq : key i row1 = key k row2 <;> simp [heq]

/-- The text of the value in a place of a row. -/
def textAt (row : Row) (place : Option ℕ) : Text :=
  match place.bind fun i => row.values[i]? with
  | none => str "NULL"
  | some v => if v.type = .varchar then v.str else ofInt64 v.bits

/-- The result of a join of tables with complete rows, as its references mean it. -/
structure GivesMeant (p : Platform) (q : SelectTree) (j : JoinTree) (t u : Table) (s : SelectStmt) :
    Prop where
  /-- Two rows are joined when they agree in the two columns of `ON`. -/
  joined : ∀ disk rows1 rows2 i k d d', Full t disk rows1 → Full u disk rows2 →
    meant q j t u j.left = some i → meant q j t u j.right = some k →
    (resultSchema t (some u))[i]? = some d → d.type = .decimal →
    (resultSchema t (some u))[k]? = some d' → d'.type = .decimal →
    HashJoin.join p t u disk s.join.onLeft s.join.onRight =
      .ok (pairs i k (rows1.map (storedRow p)) (rows2.map (storedRow p)))
  /-- The arguments are the values of the columns in the select list. -/
  selected : ∀ (i : ℕ) c row, q.items[i]? = some (.column c) →
    (project t (some u) s.columns row)[i]? = some (cStr (textAt row (meant q j t u c)))

theorem HeedsQualifiers.givesMeant (h : HeedsQualifiers q j t u s) : GivesMeant p q j t u s := by
  refine ⟨?_, ?_⟩
  · intro disk rows1 rows2 i k d d' h1 h2 hi hk hd htype hd' htype'
    have hleft := h.onLeft.trans hi
    obtain ⟨c2, hc2, rfl⟩ := Option.map_eq_some_iff.mp (h.onRight.trans hk)
    have hlt := (List.findIdx?_eq_some_iff_getElem.mp hleft).1
    have hd1 : t.schema[i]? = some d := by
      rwa [resultSchema, List.getElem?_append_left hlt] at hd
    have hd2 : u.schema[c2]? = some d' := by
      rwa [resultSchema, List.getElem?_append_right (by omega), Nat.add_sub_cancel_left] at hd'
    obtain ⟨joined, hloop, hjoin⟩ := join_eq_nestedLoop (p := p) h1 h2 hd1 hd2 htype htype' hleft hc2
    rw [nestedLoop_eq h1 h2, flatMap_matchRow (n := t.schema.length) ?_ hlt] at hloop
    · rw [hjoin, hloop]
    · intro row hrow
      obtain ⟨row', hrow', rfl⟩ := List.mem_map.mp hrow
      exact (rowFull_storedRow (h1.full row' hrow')).length_eq
  · intro i c row hi
    obtain ⟨name, hname, heq⟩ := h.items i c hi
    rw [project, List.getElem?_map, hname, Option.map_some, cell, heq]
    rfl

/-- The references of a join mean the columns of the tables that they name just when the first table
with the name is the one that is named, and `ON` names the two tables in their order. Then the query
gives what they mean. -/
theorem qualifiers_heeded_iff (p : Platform) (q : SelectTree) (j : JoinTree) (sql : Text) (t u : Table)
    (hjoin : q.join = some j) (hqualified : Qualified q j) (hne : q.table.caps ≠ j.table.caps)
    (hsql : dropEnd isJunk sql ∈ (Tree.select q).texts .line) :
    (HeedsQualifiers q j t u (parse sql).selectStmt ↔
      (∀ c ∈ resultReferences q, FirstNamed q j t u c) ∧ LeftNamed q j t u j.left ∧
        RightNamed q j t u j.right) ∧
      (HeedsQualifiers q j t u (parse sql).selectStmt →
        GivesMeant p q j t u (parse sql).selectStmt) := by
  have hstatement : (parse sql).selectStmt = q.statement := by rw [parse_layout hsql]; rfl
  rw [hstatement]
  exact ⟨heedsQualifiers_statement_iff hjoin hqualified hne, HeedsQualifiers.givesMeant⟩

/-! ## Two tables with a column of the same name -/

def twoTables : List Text :=
  [str "CREATE TABLE T (A INT, C INT)", str "CREATE TABLE U (B INT, C INT)",
    str "INSERT INTO T VALUES (1,2)", str "INSERT INTO U VALUES (1,3)"]

def tableT : Ident := ⟨[ch 'T'], by decide, by decide +kernel, by decide⟩

def tableU : Ident := ⟨[ch 'U'], by decide, by decide +kernel, by decide⟩

def columnA : Column := ⟨some tableT, ⟨str "A", by decide, by decide +kernel, by decide⟩⟩

def columnB : Column := ⟨some tableU, ⟨str "B", by decide, by decide +kernel, by decide⟩⟩

/-- `T.C` and `U.C`. -/
def columnC (table : Ident) : Column :=
  ⟨some table, ⟨str "C", by decide, by decide +kernel, by decide⟩⟩

/-- `SELECT c, c' FROM T INNER JOIN U ON left = right`. -/
def joinTwo (c c' left right : Column) : SelectTree where
  items := [.column c, .column c']
  items_ne_nil := by simp
  table := tableT
  join := some ⟨tableU, left, right⟩
  conditions := []
  order := none

theorem exists_twoTables :
    ∃ e t u, runNew twoTables = .ok e ∧ e.tables (str "T") = some t ∧ e.tables (str "U") = some u ∧
      t.schema = [⟨str "A", .decimal⟩, ⟨str "C", .decimal⟩] ∧
      u.schema = [⟨str "B", .decimal⟩, ⟨str "C", .decimal⟩] := by
  have hend : (runNew twoTables).map (fun e => ((e.tables (str "T")).map Table.schema,
      (e.tables (str "U")).map Table.schema)) =
      .ok (some [⟨str "A", .decimal⟩, ⟨str "C", .decimal⟩],
        some [⟨str "B", .decimal⟩, ⟨str "C", .decimal⟩]) := by decide +kernel
  cases he : runNew twoTables with
  | error f =>
    rw [he] at hend
    cases hend
  | ok e =>
    rw [he] at hend
    simp only [Except.map, Except.ok.injEq, Prod.mk.injEq, Option.map_eq_some_iff] at hend
    obtain ⟨⟨t, ht, hschema⟩, u, hu, hschema'⟩ := hend
    exact ⟨e, t, u, rfl, ht, hu, hschema, hschema'⟩

theorem layout_joinTwo (c c' left right : Column)
    (hclean : dropEnd isJunk (joinTwo c c' left right).print = (joinTwo c c' left right).print) :
    dropEnd isJunk (joinTwo c c' left right).print ∈
      (Tree.select (joinTwo c c' left right)).texts .line := by
  rw [hclean]
  exact print_mem_texts (.select (joinTwo c c' left right))

theorem qualifiers_heeded_iff_twoTables :
    ∃ e t u, runNew twoTables = .ok e ∧ e.tables (str "T") = some t ∧ e.tables (str "U") = some u ∧
      HeedsQualifiers (joinTwo columnA columnB columnA columnB) ⟨tableU, columnA, columnB⟩ t u
        (parse (joinTwo columnA columnB columnA columnB).print).selectStmt := by
  obtain ⟨e, t, u, he, ht, hu, hschema, hschema'⟩ := exists_twoTables
  refine ⟨e, t, u, he, ht, hu, ?_⟩
  refine (qualifiers_heeded_iff .reference _ _ _ t u rfl (by decide) (by decide)
    (layout_joinTwo _ _ _ _ (by decide))).1.mpr ⟨?_, Or.inl (by decide), Or.inl (by decide)⟩
  simp only [FirstNamed, HasColumn, hschema, hschema']
  decide

def selectShared : Text := str "SELECT T.C, U.C FROM T INNER JOIN U ON T.A = U.B"

def selectNamed : Text := str "SELECT T.A, U.B FROM T INNER JOIN U ON T.A = U.B"

def selectSwapped : Text := str "SELECT T.A, U.B FROM T INNER JOIN U ON U.B = T.A"

/-- `T.C` and `U.C` are both read from `T`, and `ON U.B = T.A` joins nothing. -/
theorem not_heedsQualifiers_twoTables :
    ∃ e t u, runNew twoTables = .ok e ∧ e.tables (str "T") = some t ∧ e.tables (str "U") = some u ∧
      (joinTwo (columnC tableT) (columnC tableU) columnA columnB).print = selectShared ∧
      execSelect .reference e (parse selectShared).selectStmt =
        .ok ⟨.returned 0 none, [[str "2", str "2"]]⟩ ∧
      ¬ HeedsQualifiers (joinTwo (columnC tableT) (columnC tableU) columnA columnB)
        ⟨tableU, columnA, columnB⟩ t u (parse selectShared).selectStmt ∧
      (joinTwo columnA columnB columnB columnA).print = selectSwapped ∧
      execSelect .reference e (parse selectNamed).selectStmt =
        .ok ⟨.returned 0 none, [[str "1", str "1"]]⟩ ∧
      execSelect .reference e (parse selectSwapped).selectStmt = .ok ⟨.returned 0 none, []⟩ ∧
      ¬ HeedsQualifiers (joinTwo columnA columnB columnB columnA) ⟨tableU, columnB, columnA⟩ t u
        (parse selectSwapped).selectStmt := by
  have hselect : (runNew twoTables >>= fun e => do
      let shared ← execSelect .reference e (parse selectShared).selectStmt
      let named ← execSelect .reference e (parse selectNamed).selectStmt
      let swapped ← execSelect .reference e (parse selectSwapped).selectStmt
      return [shared, named, swapped]) =
      .ok [⟨.returned 0 none, [[str "2", str "2"]]⟩, ⟨.returned 0 none, [[str "1", str "1"]]⟩,
        ⟨.returned 0 none, []⟩] := by decide +kernel
  obtain ⟨e, t, u, he, ht, hu, hschema, hschema'⟩ := exists_twoTables
  obtain ⟨_, he', hselect⟩ := bind_eq_ok hselect
  obtain rfl := Except.ok.inj (he.symm.trans he')
  obtain ⟨shared, hshared, hselect⟩ := bind_eq_ok hselect
  obtain ⟨named, hnamed, hselect⟩ := bind_eq_ok hselect
  obtain ⟨swapped, hswapped, hselect⟩ := bind_eq_ok hselect
  simp only [Pure.pure, Except.pure, Except.ok.injEq, List.cons.injEq, and_true] at hselect
  obtain ⟨rfl, rfl, rfl⟩ := hselect
  refine ⟨e, t, u, he, ht, hu, by decide, hshared, fun h => ?_, by decide, hnamed, hswapped,
    fun h => ?_⟩
  · obtain ⟨name, hname, heq⟩ := h.items 1 (columnC tableU) rfl
    have hcolumn : (parse selectShared).selectStmt.columns[1]? = some (str "C") := by decide
    obtain rfl : str "C" = name := Option.some.inj (hcolumn.symm.trans hname)
    rw [meant_of_qualified rfl] at heq
    simp only [resultIndex, hschema, hschema'] at heq
    exact absurd heq (by decide)
  · have heq := h.onLeft
    rw [meant_of_qualified rfl] at heq
    simp only [hschema, hschema'] at heq
    exact absurd heq (by decide)

end FlexQL.Executor
