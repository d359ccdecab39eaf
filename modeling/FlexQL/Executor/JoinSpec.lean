import FlexQL.Executor.Alignment
import FlexQL.Executor.PointQuery
import FlexQL.Lib.NestedLoop

/-!
# The hash join and the nested loop

The hash join reads the two columns once each, groups the row numbers of the right table by their
numbers, and reads the rows again when they match. For tables that hold complete rows in files of
their own this is the plain double loop.
-/

namespace FlexQL.Executor

open ByteMemory Text Table Runs Fallible

/-- The number in a column of a row. -/
def key (c : ℕ) (row : Row) : Option (BitVec 64) := row.values[c]?.map Value.bits

/-- The inner loop: a row of the left table with each matching row of the right one. -/
def matchRow (c1 c2 : ℕ) (row1 : Row) (rows2 : List Row) : List Row :=
  rows2.filterMap fun row2 =>
    if key c1 row1 = key c2 row2 then some ⟨row1.values ++ row2.values⟩ else none

/-- The double loop over the rows of two tables. -/
def nestedLoop (p : Platform) (t1 t2 : Table) (disk : Disk) (c1 c2 : ℕ) :
    Except Fault (List Row) := do
  let rows1 ← materializeRows p t1 disk (List.range (← t1.totalRows 0))
  let rows2 ← materializeRows p t2 disk (List.range (← t2.totalRows 0))
  return rows1.flatMap fun row1 => matchRow c1 c2 row1 rows2

variable {p : Platform} {t t1 t2 : Table} {disk : Disk} {rows rows1 rows2 : List Row} {c : ℕ}
  {d : ColumnDef}

/-! ## The hash join over entries -/

/-- What the join reads of a table: for each row the number in a column, and the row itself. -/
structure JoinInput (p : Platform) (t : Table) (disk : Disk) (c : ℕ) (es : List (ℕ × Row)) : Prop where
  totalRows_eq : t.totalRows c = .ok es.length
  key : ∀ (rid : ℕ) e, es[rid]? = some e → ∃ buf, t.readAt disk c rid 8 = .ok (some buf) ∧ decode buf = e.1
  row : ∀ (rid : ℕ) e, es[rid]? = some e → materializeRow p t disk rid = .ok e.2

/-- A row of the left table with one of the right table. -/
def joinPair (e1 e2 : ℕ × Row) : Row := ⟨e1.2.values ++ e2.2.values⟩

variable {es es1 es2 : List (ℕ × Row)}

/-- The build phase. -/
theorem JoinInput.readKeys (h : JoinInput p t disk c es) :
    HashJoin.readKeys t disk c (List.range es.length) = .ok (es.map Prod.fst).zipIdx := by
  have hloop : ∀ past rest, past ++ rest = es →
      HashJoin.readKeys t disk c (List.range' past.length rest.length) =
        .ok ((rest.map Prod.fst).zipIdx past.length) := by
    intro past rest
    induction rest generalizing past with
    | nil => exact fun _ => rfl
    | cons e rest ih =>
      intro heq
      have hget : es[past.length]? = some e := by simp [← heq]
      obtain ⟨buf, hread, hkey⟩ := h.key _ e hget
      have hrest := ih (past ++ [e]) (by rw [← heq, List.append_assoc, List.singleton_append])
      rw [List.length_append, List.length_singleton] at hrest
      simp only [List.length_cons, List.range'_succ, HashJoin.readKeys, hread, hrest, hkey, Bind.bind,
        Except.bind, Pure.pure, Except.pure, List.map_cons, List.zipIdx_cons]
  have hall := hloop [] es rfl
  rwa [List.length_nil, ← List.range_eq_range'] at hall

/-- Reading rows by their numbers. -/
theorem JoinInput.materializeRows (h : JoinInput p t disk c es) {rids : List ℕ}
    (hrids : ∀ rid ∈ rids, rid < es.length) :
    Executor.materializeRows p t disk rids = .ok (rids.filterMap fun rid => (es.map Prod.snd)[rid]?) := by
  induction rids with
  | nil => rfl
  | cons rid rids ih =>
    obtain ⟨e, he⟩ : ∃ e, es[rid]? = some e := ⟨_, List.getElem?_eq_getElem (hrids rid List.mem_cons_self)⟩
    have hrest := ih fun r hr => hrids r (List.mem_cons_of_mem _ hr)
    have hmap : (es.map Prod.snd)[rid]? = some e.2 := by rw [List.getElem?_map, he, Option.map_some]
    simp only [Executor.materializeRows, h.row rid e he, hrest, Bind.bind, Except.bind, Pure.pure, Except.pure,
      List.filterMap_cons, hmap]

/-- The rows of `t2` in the bucket of a row of `t1`. -/
theorem JoinInput.joinRow (h1 : JoinInput p t1 disk c es1) {c2 : ℕ} (h2 : JoinInput p t2 disk c2 es2) {rid : ℕ}
    {e : ℕ × Row} (he : es1[rid]? = some e) :
    HashJoin.joinRow p t1 t2 disk (es2.map Prod.fst).zipIdx e.1 rid =
      .ok ((es2.filter fun e2 => e2.1 = e.1).map (joinPair e)) := by
  have hmem : ∀ r ∈ (((es2.map Prod.fst).zipIdx).filter fun q => q.1 = e.1).map Prod.snd, r < es2.length := by
    intro r hr
    obtain ⟨q, hq, rfl⟩ := List.mem_map.mp hr
    have hlt := (List.getElem?_eq_some_iff.mp (List.mem_zipIdx_iff_getElem?.mp (List.mem_of_mem_filter hq))).1
    rwa [List.length_map] at hlt
  have hrows := h2.materializeRows hmem
  have hbucket := NestedLoop.filterMap_bucket es2 e.1
  rw [hbucket] at hrows
  unfold HashJoin.joinRow
  split
  · rename_i hnil
    rw [hnil, List.filterMap_nil] at hbucket
    rw [List.map_eq_nil_iff.mp hbucket.symm]
    rfl
  · simp only [h1.row rid e he, hrows, Bind.bind, Except.bind, Pure.pure, Except.pure, List.map_map]
    rfl

/-- The probe phase. -/
theorem JoinInput.probe {c1 c2 : ℕ} (h1 : JoinInput p t1 disk c1 es1) (h2 : JoinInput p t2 disk c2 es2) :
    HashJoin.probe p t1 t2 disk c1 (es2.map Prod.fst).zipIdx (List.range es1.length) =
      .ok (NestedLoop.pairs (fun e1 e2 => e2.1 = e1.1) joinPair es1 es2) := by
  have hloop : ∀ past rest, past ++ rest = es1 →
      HashJoin.probe p t1 t2 disk c1 (es2.map Prod.fst).zipIdx (List.range' past.length rest.length) =
        .ok (NestedLoop.pairs (fun e1 e2 => e2.1 = e1.1) joinPair rest es2) := by
    intro past rest
    induction rest generalizing past with
    | nil => exact fun _ => rfl
    | cons e rest ih =>
      intro heq
      have hget : es1[past.length]? = some e := by simp [← heq]
      obtain ⟨buf, hread, hkey⟩ := h1.key _ e hget
      have hrest := ih (past ++ [e]) (by rw [← heq, List.append_assoc, List.singleton_append])
      rw [List.length_append, List.length_singleton] at hrest
      simp only [List.length_cons, List.range'_succ, HashJoin.probe, hread, hkey, h1.joinRow h2 hget, hrest,
        Bind.bind, Except.bind, Pure.pure, Except.pure, NestedLoop.pairs_cons]
  have hall := hloop [] es1 rfl
  rwa [List.length_nil, ← List.range_eq_range'] at hall

/-- The hash join pairs the rows with equal numbers. -/
theorem JoinInput.join {c1 c2 : ℕ} (h1 : JoinInput p t1 disk c1 es1) (h2 : JoinInput p t2 disk c2 es2)
    {col1 col2 : Text} (hcol1 : columnIndex t1.schema col1 = some c1)
    (hcol2 : columnIndex t2.schema col2 = some c2) :
    HashJoin.join p t1 t2 disk col1 col2 =
      .ok (NestedLoop.pairs (fun e1 e2 => e2.1 = e1.1) joinPair es1 es2) := by
  simp only [HashJoin.join, hcol1, hcol2, h1.totalRows_eq, h2.totalRows_eq, h2.readKeys, Bind.bind, Except.bind]
  exact h1.probe h2

/-! ## Tables of decimals and texts -/

/-- A table holds complete rows in files of its own. -/
structure Full (t : Table) (disk : Disk) (rows : List Row) : Prop where
  plain : Plain t.schema
  holds : ∃ es, HoldsRows t disk rows es
  full : ∀ row ∈ rows, RowFull t.schema row

theorem Full.totalRows (h : Full t disk rows) (hd : t.schema[c]? = some d) :
    t.totalRows c = .ok rows.length := by
  obtain ⟨es, hholds⟩ := h.holds
  rw [totalRows_eq hholds.columns hd, columnItems_length]
  intro row hrow
  rw [(h.full row hrow).length_eq]
  exact (List.getElem?_eq_some_iff.mp hd).1

theorem Full.materializeRow (h : Full t disk rows) {rid : ℕ} {row : Row}
    (hrow : rows[rid]? = some row) : materializeRow p t disk rid = .ok (storedRow p row) := by
  obtain ⟨es, hholds⟩ := h.holds
  exact materializeRow_eq hholds h.plain.readable h.full hrow

theorem Full.materialize_all (h : Full t disk rows) :
    Executor.materializeRows p t disk (List.range rows.length) = .ok (rows.map (storedRow p)) := by
  obtain ⟨es, hholds⟩ := h.holds
  exact materializeRows_eq hholds h.plain.readable h.full

/-- The number that is stored in a column of a row. -/
def keyNat (c : ℕ) (row : Row) : ℕ := (key c row).elim 0 BitVec.toNat

/-- Reading one number of a column of decimals. -/
theorem Full.readAt_decimal (h : Full t disk rows) (hd : t.schema[c]? = some d)
    (htype : d.type = .decimal) {rid : ℕ} {row : Row} (hrow : rows[rid]? = some row) :
    ∃ buf, t.readAt disk c rid 8 = .ok (some buf) ∧ decode buf = keyNat c row := by
  obtain ⟨es, hholds⟩ := h.holds
  obtain ⟨v, hv, hvtype⟩ := (h.full row (List.mem_of_getElem? hrow)).exists_value hd
  have hlen : ∀ r ∈ rows, c < r.values.length := by
    intro r hr
    rw [(h.full r hr).length_eq]
    exact (List.getElem?_eq_some_iff.mp hd).1
  have hread := readAt_eq hholds.columns hd rid
  rw [htype, columnItems_getElem? hlen, hrow, Option.bind_some, hv, Option.map_some] at hread
  refine ⟨v.bytes, hread, ?_⟩
  rw [htype] at hvtype
  simp only [Value.bytes, hvtype, keyNat, key, hv, Option.map_some, Option.elim_some]
  exact decode_encode v.bits.isLt

/-- Two rows match when their stored numbers are the same. -/
theorem Full.key_eq_iff (h1 : Full t1 disk rows1) (h2 : Full t2 disk rows2) {c1 c2 : ℕ}
    {d1 d2 : ColumnDef} (hd1 : t1.schema[c1]? = some d1) (hd2 : t2.schema[c2]? = some d2)
    (htype1 : d1.type = .decimal) (htype2 : d2.type = .decimal) {row1 row2 : Row}
    (hrow1 : row1 ∈ rows1) (hrow2 : row2 ∈ rows2) :
    key c1 (storedRow p row1) = key c2 (storedRow p row2) ↔ keyNat c2 row2 = keyNat c1 row1 := by
  obtain ⟨v1, hv1, hvtype1⟩ := (h1.full row1 hrow1).exists_value hd1
  obtain ⟨v2, hv2, hvtype2⟩ := (h2.full row2 hrow2).exists_value hd2
  rw [htype1] at hvtype1
  rw [htype2] at hvtype2
  simp only [key, keyNat, storedRow, List.getElem?_map, hv1, hv2, Option.map_some, Value.stored,
    hvtype1, hvtype2, Option.elim_some, Option.some.injEq]
  exact ⟨fun heq => by rw [heq], fun heq => BitVec.eq_of_toNat_eq heq.symm⟩

theorem Full.joinInput (h : Full t disk rows) (hd : t.schema[c]? = some d) (htype : d.type = .decimal) :
    JoinInput p t disk c (rows.map fun row => (keyNat c row, storedRow p row)) where
  totalRows_eq := by rw [h.totalRows hd, List.length_map]
  key := by
    intro rid e he
    rw [List.getElem?_map] at he
    obtain ⟨row, hrow, rfl⟩ := Option.map_eq_some_iff.mp he
    exact h.readAt_decimal hd htype hrow
  row := by
    intro rid e he
    rw [List.getElem?_map] at he
    obtain ⟨row, hrow, rfl⟩ := Option.map_eq_some_iff.mp he
    exact h.materializeRow hrow

/-- The double loop runs over the rows as they are read. -/
theorem nestedLoop_eq (h1 : Full t1 disk rows1) (h2 : Full t2 disk rows2) (c1 c2 : ℕ) :
    nestedLoop p t1 t2 disk c1 c2 =
      .ok ((rows1.map (storedRow p)).flatMap fun row1 =>
        matchRow c1 c2 row1 (rows2.map (storedRow p))) := by
  have htotal : ∀ {t rows}, Full t disk rows → t.totalRows 0 = .ok rows.length := by
    intro t rows h
    obtain ⟨es, hholds⟩ := h.holds
    exact totalRows_of_holdsRows hholds
  simp only [nestedLoop, htotal h1, htotal h2, h1.materialize_all (p := p),
    h2.materialize_all (p := p), Bind.bind, Except.bind, Pure.pure, Except.pure]

section Tables

variable (h1 : Full t1 disk rows1) (h2 : Full t2 disk rows2) {c1 c2 : ℕ} {d1 d2 : ColumnDef}
  (hd1 : t1.schema[c1]? = some d1) (hd2 : t2.schema[c2]? = some d2)
  (htype1 : d1.type = .decimal) (htype2 : d2.type = .decimal)

include h1 h2 hd1 hd2 htype1 htype2

theorem matchRow_stored {row1 : Row} (hrow1 : row1 ∈ rows1) :
    matchRow c1 c2 (storedRow p row1) (rows2.map (storedRow p)) =
      (rows2.filter fun row2 => keyNat c2 row2 = keyNat c1 row1).map fun row2 =>
        ⟨(storedRow p row1).values ++ (storedRow p row2).values⟩ := by
  rw [matchRow, List.filterMap_map, ← List.filterMap_eq_map, List.filterMap_filter]
  refine List.filterMap_congr fun row2 hrow2 => ?_
  have hiff := h1.key_eq_iff (p := p) h2 hd1 hd2 htype1 htype2 hrow1 hrow2
  simp only [Function.comp_apply, hiff, decide_eq_true_eq]

/-- The hash join is the double loop. -/
theorem join_eq_nestedLoop {col1 col2 : Text} (hcol1 : columnIndex t1.schema col1 = some c1)
    (hcol2 : columnIndex t2.schema col2 = some c2) :
    ∃ joined, nestedLoop p t1 t2 disk c1 c2 = .ok joined ∧
      HashJoin.join p t1 t2 disk col1 col2 = .ok joined := by
  refine ⟨_, nestedLoop_eq h1 h2 c1 c2, ?_⟩
  rw [(h1.joinInput hd1 htype1).join (h2.joinInput hd2 htype2) hcol1 hcol2, NestedLoop.pairs, List.flatMap_map,
    List.flatMap_map]
  refine congrArg Except.ok (List.flatMap_congr fun row1 hrow1 => ?_)
  rw [matchRow_stored h1 h2 hd1 hd2 htype1 htype2 hrow1, List.filter_map, List.map_map]
  rfl

end Tables

theorem Filed.full {sqls : List Text} {name : Text} (h : Filed p sqls disk name t) :
    ∃ rows, Full t disk rows := by
  obtain ⟨hplain, rows, es, hholds, hrows⟩ := h
  exact ⟨rows, hplain, ⟨es, hholds⟩, fun row hrow => (hrows row hrow).1⟩

/-- The joins of two tables on columns of decimals. -/
def JoinsNested (p : Platform) (t1 t2 : Table) (disk : Disk) : Prop :=
  ∀ col1 col2 c1 c2 d1 d2, columnIndex t1.schema col1 = some c1 → t1.schema[c1]? = some d1 →
    d1.type = .decimal → columnIndex t2.schema col2 = some c2 → t2.schema[c2]? = some d2 →
    d2.type = .decimal → ∃ joined, nestedLoop p t1 t2 disk c1 c2 = .ok joined ∧
      HashJoin.join p t1 t2 disk col1 col2 = .ok joined

/-- Two tables with one file between them: the first row of `T_A` clears the page on which `T` has
its rows. -/
def sharedFile : List Text :=
  [str "CREATE TABLE T (A_B INT)", str "CREATE TABLE T_A (B INT)",
    str "INSERT INTO T VALUES (1),(2)", str "INSERT INTO T_A VALUES (2)"]

end FlexQL.Executor
