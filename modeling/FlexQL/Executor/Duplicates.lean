import FlexQL.Executor.SelectSafe
import FlexQL.Executor.StoredRows

/-!
# Keys with several rows

Nothing keeps two rows from having one `ID`. The index holds an entry for each of them, and a lookup
returns a single one; the scan, which finds them all, is done only when the lookup finds none.
-/

namespace FlexQL.Executor

open Text Table Runs Fallible

variable {p : Platform} {e : Executor} {t : Table} {s : SelectStmt} {rows inserted : List Row}
  {schema : Schema} {disk disk₀ : Disk} {dataDir name w : Text} {v : BitVec 64}

/-- The query emits one row for each of the rows whose `ID` is the number. -/
def EmitsDuplicates (p : Platform) (e : Executor) (s : SelectStmt) (t : Table) (rows : List Row)
    (k : ℕ) : Prop :=
  ∃ emitted, execSelect p e s = .ok ⟨.returned 0 none, emitted⟩ ∧
    emitted.Perm ((rows.filter fun row => rowKey row = k).map (project t none s.columns))

/-! ## Queries for one key -/

theorem asksForId_of_asksFor (hasks : AsksFor t s w) : asksForId s = some w := by
  simp [asksForId, hasks.hasJoin_eq, hasks.filters_eq]

/-- The scan keeps the rows with the key. -/
theorem filterRows_key (hschema : t.schema = ⟨idName, .decimal⟩ :: schema)
    (hrows : ∀ row ∈ rows, RowFull t.schema row) (hw : stoll w = .ok v) :
    filterRows t none [⟨idName, str "=", w⟩] rows =
      .ok (.ok (rows.filter fun row => rowKey row = v.toNat)) := by
  have htests : ∀ row ∈ rows, matchesAll t none row [⟨idName, str "=", w⟩] =
      .ok (.ok (decide (rowKey row = v.toNat))) := fun row hrow =>
    matchesAll_key hschema (hrows row hrow) hw
  have hfull : ∀ row ∈ rows, RowFull (resultSchema t none) row := by
    simpa [resultSchema] using hrows
  rcases filterRows_cases [⟨idName, str "=", w⟩] hfull with ⟨⟨row, hrow, exn, hexn⟩, -⟩ | ⟨-, hkept⟩
  · rw [htests row hrow] at hexn
    cases hexn
  · rw [hkept]
    have heq : rows.filter (passesAll t none [⟨idName, str "=", w⟩]) =
        rows.filter fun row => rowKey row = v.toNat := by
      refine List.filter_congr fun row hrow => ?_
      rw [passesAll, htests row hrow]
    rw [heq]

/-- The lookup leads to one row, or the scan emits all of them. -/
theorem emitsDuplicates_iff (he : Reachable p e) (ht : e.getTable s.tableName = .ok t)
    (hschema : t.schema = ⟨idName, .decimal⟩ :: schema) (hasks : AsksFor t s w)
    (hw : stoll w = .ok v) (hrows : Scanned p e s t none rows)
    (hdup : 2 ≤ (rows.filter fun row => rowKey row = v.toNat).length)
    (hsort : Sortable s (rows.filter fun row => rowKey row = v.toNat)) :
    EmitsDuplicates p e s t rows v.toNat ↔ ¬ ∃ rid, LooksUp s t rid := by
  have htable := getTable_eq_ok.mp ht
  have hacc : Accepted e s t := ⟨ht, fun _ => hasks.known⟩
  have hindex : t.HasIndex := ⟨_, by rw [hschema]; rfl, rfl⟩
  have hmiss : indexLookup p t e.disk s = .ok none ↔ ¬ ∃ rid, LooksUp s t rid := by
    rw [indexLookup_eq_none (he.sound _ t htable) (he.indexed _ t htable)]
    exact and_iff_right fun _ _ _ _ => hindex
  rw [← hmiss]
  constructor
  · rintro ⟨emitted, hselect, hperm⟩
    have hlength := hperm.length_eq
    rw [List.length_map] at hlength
    cases hlookup : indexLookup p t e.disk s with
    | error f =>
      simp only [execSelect, ht, hasks.hasJoin_eq, hasks.known, hlookup, Bool.false_eq_true,
        if_false, Bind.bind, Except.bind] at hselect
      cases hselect
    | ok hit => cases hit with
      | none => rfl
      | some row =>
        rw [execSelect_of_index hacc hlookup] at hselect
        have hone : emitted.length = 1 := by
          obtain rfl : [row].map (project t none s.columns) = emitted := by
            simpa [emit, orderRows_short] using hselect
          rfl
        omega
  · intro hmiss
    have hfull : ∀ row ∈ rows, RowFull t.schema row := fun row hrow => by
      simpa [resultSchema] using (hrows.read row hrow).full
    have hkept := filterRows_key hschema hfull hw
    rw [← hasks.filters_eq] at hkept
    have hselect := (Keeps.filter hmiss hrows hkept).execSelect hacc
    refine ⟨_, hselect, (orderRows_perm (t := t) (u := none) (fun row hrow => ?_) hsort).map _⟩
    exact (hrows.read row (List.mem_of_mem_filter hrow)).full

/-! ## Rows that were inserted -/

/-- A table that was filled holds its rows, and its index was given their keys. -/
theorem Filled.holds (hnames : (schema.map ColumnDef.name).Nodup)
    (hfull : ∀ row ∈ inserted, RowFull schema row)
    (hfilled : Filled dataDir name schema disk₀ inserted t disk) :
    HoldsRows t disk inserted (keyEntries inserted) ∧ t.schema = schema ∧
      ∃ tree₀, BPTree.init (disk₀.indexes (pkPath dataDir name)) = .ok tree₀ ∧
        IndexFilled t tree₀ inserted := by
  obtain ⟨t₀, hinit, hrun⟩ := hfilled
  have hne := schema_ne_of_init hinit
  obtain ⟨t₁, hinit', hholds, -, hschema, -⟩ := init_holdsRows dataDir name disk₀ hne hnames
  obtain rfl : t₀ = t₁ := Except.ok.inj (hinit.symm.trans hinit')
  obtain ⟨tree₀, htree₀, hindex⟩ := init_indexFilled hinit
  have hfits : ∀ row ∈ inserted, RowFits t₀.schema row := fun row hrow =>
    hschema ▸ (hfull row hrow).rowFits hne
  rcases run_filled hholds hindex hfits with ⟨-, herr⟩ | ⟨t', disk', hrun', h, hschema', hindex'⟩
  · rw [hrun] at herr
    cases herr
  · obtain ⟨rfl, rfl⟩ : t = t' ∧ disk = disk' := by simpa using hrun.symm.trans hrun'
    rw [List.nil_append] at h hindex'
    exact ⟨h, hschema'.trans hschema, tree₀, htree₀, hindex'⟩

/-- The scan reads the rows that were inserted. -/
theorem Scanned.eq_storedRow (hrows : Scanned p e s t none rows) (hplain : Plain schema)
    (hnames : (schema.map ColumnDef.name).Nodup) (hfull : ∀ row ∈ inserted, RowFull schema row)
    (hfilled : Filled dataDir name schema disk₀ inserted t e.disk) :
    rows = inserted.map (storedRow p) := by
  obtain ⟨h, rfl, -⟩ := hfilled.holds hnames hfull
  cases hrows with
  | table hjoin hn hrows =>
    rw [totalRows_of_holdsRows h] at hn
    cases hn
    rw [materializeRows_eq h hplain.readable hfull] at hrows
    exact (Except.ok.inj hrows).symm

/-- As long as no leaf was split under a full root, the lookup leads to a row for every key. -/
theorem exists_looksUp_of_guarded (hnames : (schema.map ColumnDef.name).Nodup)
    (hfull : ∀ row ∈ inserted, RowFull schema row)
    (hfilled : Filled dataDir name schema disk₀ inserted t disk) (hid : t.HasIndex)
    (hasks : AsksFor t s w) (hw : stoll w = .ok v)
    (hguard : ∀ tree₀, BPTree.init (disk₀.indexes (pkPath dataDir name)) = .ok tree₀ →
      Guarded BPTree.insertStep (fun tree e => ¬ BPTree.SplitsUnderFullRoot tree e.1) tree₀
        (keyEntries inserted))
    (hkey : ∃ row ∈ inserted, rowKey row = v.toNat) : ∃ rid, LooksUp s t rid := by
  obtain ⟨-, -, tree₀, htree₀, hindex⟩ := hfilled.holds hnames hfull
  obtain ⟨tree, htree, hrun, -⟩ := hindex hid
  obtain ⟨tree₁, htree₁, hlinked⟩ := BPTree.init_holdsLinked (disk₀.indexes (pkPath dataDir name))
  obtain rfl : tree₀ = tree₁ := Except.ok.inj (htree₀.symm.trans htree₁)
  obtain ⟨tree', hrun', hlinked'⟩ := hlinked.run_insert (hguard tree₀ htree₀)
  obtain rfl : tree = tree' := Except.ok.inj (hrun.symm.trans hrun')
  obtain ⟨row, hrow, hkey⟩ := hkey
  obtain ⟨rid, hrid⟩ := List.getElem?_of_mem hrow
  have hentry : (v.toNat, rid) ∈ [] ++ keyEntries inserted := by
    rw [List.nil_append, ← hkey]
    exact List.mem_map.mpr ⟨(row, rid), List.mem_zipIdx_iff_getElem?.mpr hrid, rfl⟩
  obtain ⟨rid', tree', hsearch⟩ := (hlinked'.found_iff v.toNat).mpr ⟨rid, hentry⟩
  exact ⟨rid', w, v, tree, tree', asksForId_of_asksFor hasks, hw, htree, hsearch⟩

/-- A key with several rows is answered with all of them just when the index lookup misses it. The
rows of the table are those that were inserted, and the lookup misses none of their keys as long as
no leaf was split under a full root. -/
theorem duplicates_emitted_iff (p : Platform) (e : Executor) (s : SelectStmt) (t : Table)
    (schema : Schema) (rows : List Row) (w : Text) (v : BitVec 64) (he : Reachable p e)
    (ht : e.getTable s.tableName = .ok t) (hschema : t.schema = ⟨idName, .decimal⟩ :: schema)
    (hasks : AsksFor t s w) (hw : stoll w = .ok v) (hrows : Scanned p e s t none rows)
    (hdup : 2 ≤ (rows.filter fun row => rowKey row = v.toNat).length)
    (hsort : Sortable s (rows.filter fun row => rowKey row = v.toNat)) :
    (EmitsDuplicates p e s t rows v.toNat ↔ ¬ ∃ rid, LooksUp s t rid) ∧
    ∀ dataDir name disk₀ inserted, Plain t.schema → (t.schema.map ColumnDef.name).Nodup →
      (∀ row ∈ inserted, RowFull t.schema row) →
      Filled dataDir name t.schema disk₀ inserted t e.disk →
        rows = inserted.map (storedRow p) ∧
        ((∀ tree₀, BPTree.init (disk₀.indexes (pkPath dataDir name)) = .ok tree₀ →
          Guarded BPTree.insertStep (fun tree e => ¬ BPTree.SplitsUnderFullRoot tree e.1) tree₀
            (keyEntries inserted)) → ¬ EmitsDuplicates p e s t rows v.toNat) := by
  refine ⟨emitsDuplicates_iff he ht hschema hasks hw hrows hdup hsort, ?_⟩
  intro dataDir name disk₀ inserted hplain hnames hfull hfilled
  have heq := hrows.eq_storedRow hplain hnames hfull hfilled
  refine ⟨heq, fun hguard => ?_⟩
  rw [emitsDuplicates_iff he ht hschema hasks hw hrows hdup hsort, not_not]
  refine exists_looksUp_of_guarded hnames hfull hfilled ⟨_, by rw [hschema]; rfl, rfl⟩ hasks hw
    hguard ?_
  obtain ⟨read, hread⟩ := List.exists_mem_of_length_pos (by omega :
    0 < (rows.filter fun row => rowKey row = v.toNat).length)
  obtain ⟨hread, hkey⟩ := List.mem_filter.mp hread
  rw [heq] at hread
  obtain ⟨row, hrow, rfl⟩ := List.mem_map.mp hread
  refine ⟨row, hrow, ?_⟩
  rw [← rowKey_storedRow (p := p) (hschema ▸ hfull row hrow)]
  exact of_decide_eq_true hkey

/-- Two rows with the `ID` 1. -/
def insertTwice : List Text :=
  [str "CREATE TABLE T (ID INT, V INT)", str "INSERT INTO T VALUES (1,2)",
    str "INSERT INTO T VALUES (1,3)"]

def twiceRows : List Row :=
  [⟨[⟨.decimal, 1, []⟩, ⟨.decimal, 2, []⟩]⟩, ⟨[⟨.decimal, 1, []⟩, ⟨.decimal, 3, []⟩]⟩]

/-- `SELECT V FROM T WHERE ID = 1`. -/
def selectFirst : SelectStmt where
  columns := [str "V"]
  tableName := str "T"
  filters := [⟨idName, str "=", str "1"⟩]

/-- The state behind the insertions. -/
theorem exists_insertedTwice :
    ∃ e t, runNew insertTwice = .ok e ∧ e.getTable selectFirst.tableName = .ok t ∧
      t.schema = [⟨idName, .decimal⟩, ⟨str "V", .decimal⟩] ∧ AsksFor t selectFirst (str "1") ∧
      Scanned .reference e selectFirst t none twiceRows := by
  have hend : tableBehind insertTwice (str "T") =
      .ok (some ([⟨idName, .decimal⟩, ⟨str "V", .decimal⟩], .ok twiceRows)) := by
    decide +kernel
  obtain ⟨e, t, n, he, ht, hschema, hn, hrows⟩ := exists_of_tableBehind hend
  refine ⟨e, t, he, getTable_eq_ok.mpr ht, hschema, ⟨rfl, rfl, ?_⟩, .table rfl hn hrows⟩
  rw [unknownColumn, hschema]
  decide

theorem duplicates_emitted_insertTwice :
    ∃ e t, runNew insertTwice = .ok e ∧
      Scanned .reference e selectFirst t none twiceRows ∧
      (EmitsDuplicates .reference e selectFirst t twiceRows 1 ↔
        ¬ ∃ rid, LooksUp selectFirst t rid) := by
  obtain ⟨e, t, he, ht, hschema, hasks, hrows⟩ := exists_insertedTwice
  refine ⟨e, t, he, hrows, ?_⟩
  exact (duplicates_emitted_iff .reference e selectFirst t _ _ (str "1") 1 (reachable_of_runNew he)
    ht hschema hasks (by decide) hrows (by decide) nofun).1

/-- Only one of the two rows is emitted. -/
theorem not_emitsDuplicates_insertTwice :
    ∃ e t, runNew insertTwice = .ok e ∧ Reachable .reference e ∧
      (Parser.parse (str "SELECT V FROM T WHERE ID = 1")).selectStmt = selectFirst ∧
      execSelect .reference e selectFirst = .ok ⟨.returned 0 none, [[str "2"]]⟩ ∧
      Scanned .reference e selectFirst t none twiceRows ∧
      ¬ EmitsDuplicates .reference e selectFirst t twiceRows 1 := by
  have hemits : (runNew insertTwice >>= fun e => execSelect .reference e selectFirst) =
      .ok ⟨.returned 0 none, [[str "2"]]⟩ := by decide +kernel
  obtain ⟨e, t, he, ht, hschema, hasks, hrows⟩ := exists_insertedTwice
  rw [he] at hemits
  refine ⟨e, t, he, reachable_of_runNew he, by decide, hemits, hrows, ?_⟩
  rintro ⟨emitted, hselect, hperm⟩
  obtain rfl : [[str "2"]] = emitted := by simpa using hemits.symm.trans hselect
  have hlength := hperm.length_eq
  rw [List.length_map] at hlength
  exact absurd hlength (by decide)

end FlexQL.Executor
