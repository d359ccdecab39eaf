import FlexQL.Executor.Database
import FlexQL.Executor.ResultRows
import FlexQL.Executor.StoredRows

/-!
# The executor refines the database

A table on the disk stands for its rows, in files of its own; its index leads to these rows, or it
still has keys of deleted ones. Every statement keeps this and answers what the database permits.
-/

namespace FlexQL.Executor

open Text Table Fallible

/-- The index of a table, if it should have one, holds the entries in leaves that are half full. -/
def IndexDense (t : Table) (es : List (ℕ × ℕ)) : Prop :=
  t.HasIndex → ∃ tree, t.indexManager.getIndex pkName = some tree ∧ tree.HoldsDense es

/-- A table on the disk holds the rows of a relation. The index has an entry for each row, and the
entries that a `DELETE` has left. -/
structure HoldsRelation (p : Platform) (disk : Disk) (t : Table) (r : Relation) (rows : List Row)
    (es : List (ℕ × ℕ)) : Prop where
  holds : HoldsRows t disk rows es
  plain : Plain t.schema
  full : ∀ row ∈ rows, RowFull t.schema row
  schema_eq : r.schema = t.schema
  rows_eq : r.rows = rows.map (storedRow p)
  index : ∀ schema, t.schema = ⟨idName, .decimal⟩ :: schema →
    ∀ q ∈ es, q ∈ keyEntries rows ∨ q.1 ∈ r.deleted
  dense : IndexDense t es
  count : es.length = rows.length + r.deleted.length

/-- A table on the disk stands for a relation. -/
def StandsFor (p : Platform) (disk : Disk) (t : Table) (r : Relation) : Prop :=
  ∃ rows es, HoldsRelation p disk t r rows es

/-- The tables of the executor stand for those of the database. -/
structure Represents (p : Platform) (e : Executor) (db : Database) : Prop where
  apart : Apart e
  tables : ∀ name, Option.Rel (StandsFor p e.disk) (e.tables name) (db name)

variable {p : Platform} {e e' : Executor} {db : Database} {t t2 : Table} {disk : Disk} {r r2 : Relation}
  {rows rows2 : List Row} {es es2 : List (ℕ × ℕ)} {s : SelectStmt} {schema : Schema}

/-! ## Insertions -/

theorem Relation.append_append (rows rows' : List Row) :
    (r.append p rows).append p rows' = r.append p (rows ++ rows') := by
  simp [Relation.append]

/-- The index takes the key of a row. -/
theorem IndexDense.of_insertKey (h : IndexDense t es) {row : Row} {rid : ℕ} {t' : Table} (hne : t.schema ≠ [])
    (hrow : row.values ≠ []) (hok : t.insertKey row rid = .ok t') : IndexDense t' (es ++ [(rowKey row, rid)]) := by
  obtain ⟨d, schema, hschema⟩ := List.exists_cons_of_ne_nil hne
  obtain ⟨v, values, hvalues⟩ := List.exists_cons_of_ne_nil hrow
  have hkey : rowKey row = v.bits.toNat := by rw [rowKey, hvalues]
  by_cases hname : d.name = idName
  · obtain ⟨tree, htree, hdense⟩ := h ⟨d, by rw [hschema]; rfl, hname⟩
    rcases hdense.insert (rowKey row, rid) with ⟨-, herr⟩ | ⟨tree', hstep, hdense'⟩
    · rw [BPTree.insertStep, hkey] at herr
      simp only [Table.insertKey, hschema, if_pos hname, hvalues, htree, herr, Bind.bind, Except.bind] at hok
      cases hok
    · rw [BPTree.insertStep, hkey] at hstep
      simp only [Table.insertKey, hschema, if_pos hname, hvalues, htree, hstep, Bind.bind, Except.bind,
        Pure.pure, Except.pure] at hok
      cases hok
      exact fun _ => ⟨tree', IndexManager.getIndex_setIndex .., hdense'⟩
  · simp only [Table.insertKey, hschema, if_neg hname] at hok
    cases hok
    rintro ⟨d', hd', hname'⟩
    obtain rfl : d = d' := by simpa [hschema] using hd'
    exact absurd hname' hname

/-- It has room for it, or it has filled its mapping. -/
theorem IndexDense.exists_insertKey (h : IndexDense t es) {row : Row} (hne : t.schema ≠ []) (hrow : row.values ≠ [])
    (hroom : es.length < columnRoom) (rid : ℕ) : ∃ t', t.insertKey row rid = .ok t' := by
  obtain ⟨d, schema, hschema⟩ := List.exists_cons_of_ne_nil hne
  obtain ⟨v, values, hvalues⟩ := List.exists_cons_of_ne_nil hrow
  have hkey : rowKey row = v.bits.toNat := by rw [rowKey, hvalues]
  by_cases hname : d.name = idName
  · obtain ⟨tree, htree, hdense⟩ := h ⟨d, by rw [hschema]; rfl, hname⟩
    rcases hdense.insert (rowKey row, rid) with ⟨hfull, -⟩ | ⟨tree', hstep, -⟩
    · simp only [columnRoom, mappedPages, BPTree.half] at *
      omega
    · rw [BPTree.insertStep, hkey] at hstep
      exact ⟨{ t with indexManager := t.indexManager.setIndex pkName tree' }, by
        simp only [Table.insertKey, hschema, if_pos hname, hvalues, htree, hstep, Bind.bind, Except.bind,
          Pure.pure, Except.pure]⟩
  · exact ⟨t, by simp only [Table.insertKey, hschema, if_neg hname]⟩

/-- A row that is inserted is one more row of the relation. -/
theorem HoldsRelation.of_insertRow (h : HoldsRelation p disk t r rows es) {row : Row} {t' : Table} {disk' : Disk}
    (hfull : RowFull t.schema row) (hok : t.insertRow disk row = .ok (t', disk')) :
    HoldsRelation p disk' t' (r.append p [row]) (rows ++ [row]) (es ++ [(rowKey row, rows.length)]) ∧
      Frame t disk t' disk' := by
  have hfits := hfull.rowFits h.holds.schema_ne
  have hdense : IndexDense t' (es ++ [(rowKey row, rows.length)]) := by
    rcases h.holds.columns.insertColumns hfits.typed with ⟨-, herr⟩ | ⟨t₁, disk₁, hcolumns, -, hframe₁, hmanager⟩
    · simp only [Table.insertRow, h.holds.nextRid, herr, Bind.bind, Except.bind] at hok
      cases hok
    · have hdense₁ : IndexDense t₁ es := by
        simpa only [IndexDense, HasIndex, hframe₁.schema_eq, hmanager] using h.dense
      rw [Table.insertRow, h.holds.nextRid] at hok
      simp only [hcolumns, Bind.bind, Except.bind] at hok
      obtain ⟨t₂, hkey, hok⟩ := bind_eq_ok hok
      cases hok
      exact hdense₁.of_insertKey (hframe₁.schema_eq ▸ h.holds.schema_ne) hfits.nonempty hkey
  rcases h.holds.insertRow hfits with herr | ⟨t'', disk'', hok', hholds, hframe⟩
  · cases herr.symm.trans hok
  · obtain ⟨rfl, rfl⟩ := Prod.mk.inj (Except.ok.inj (hok'.symm.trans hok))
    have hschema := hframe.schema_eq
    refine ⟨⟨hholds, hschema ▸ h.plain, ?_, hschema ▸ h.schema_eq, ?_, ?_, hdense, ?_⟩, hframe⟩
    · rw [hschema]
      exact List.forall_mem_append.mpr ⟨h.full, List.forall_mem_singleton.mpr hfull⟩
    · simp [Relation.append, h.rows_eq]
    · intro schema hid q hq
      rw [keyEntries_append, List.mem_append]
      rcases List.mem_append.mp hq with hq | hq
      · exact (h.index schema (hschema ▸ hid) q hq).imp Or.inl id
      · exact Or.inl (Or.inr hq)
    · have := h.count
      simp only [List.length_append, List.length_singleton, Relation.append]
      omega

theorem HoldsRelation.insertRow (h : HoldsRelation p disk t r rows es) {row : Row} (hfull : RowFull t.schema row)
    (hroom : es.length < columnRoom) :
    ∃ t' disk', t.insertRow disk row = .ok (t', disk') ∧
      HoldsRelation p disk' t' (r.append p [row]) (rows ++ [row]) (es ++ [(rowKey row, rows.length)]) ∧
      Frame t disk t' disk' := by
  have hfits := hfull.rowFits h.holds.schema_ne
  rcases h.holds.columns.insertColumns hfits.typed with ⟨⟨c, -, -, hc⟩, -⟩ |
    ⟨t₁, disk₁, hcolumns, -, hframe₁, hmanager⟩
  · -- the column has no more items than the table has rows
    have := List.length_filterMap_le (fun row : Row => row.values[c]?.map Value.bytes) rows
    rw [columnItems] at hc
    have := h.count
    omega
  have hdense₁ : IndexDense t₁ es := by
    simpa only [IndexDense, HasIndex, hframe₁.schema_eq, hmanager] using h.dense
  obtain ⟨t₂, hkey⟩ :=
    hdense₁.exists_insertKey (hframe₁.schema_eq ▸ h.holds.schema_ne) hfits.nonempty hroom rows.length
  have hins : t.insertRow disk row = .ok (t₂, disk₁) := by
    simp only [Table.insertRow, h.holds.nextRid, hcolumns, hkey, Bind.bind, Except.bind, Pure.pure, Except.pure]
  exact ⟨t₂, disk₁, hins, h.of_insertRow hfull hins⟩

/-- The loop over the tuples appends the rows in front of the first tuple that cannot be read. -/
theorem StandsFor.insertTuples (h : StandsFor p disk t r) {ts : List Text}
    (hts : ∀ tuple ∈ ts, (getLines (ch ',') tuple).length = t.schema.length)
    (hroom : r.rows.length + r.deleted.length + ts.length ≤ columnRoom) :
    ∃ t' disk', insertTuples p ts t disk =
        .ok (t', disk', (readTuples p r.schema ts).2.elim (.returned 0 none) .thrown) ∧
      StandsFor p disk' t' (r.append p (readTuples p r.schema ts).1) ∧ Frame t disk t' disk' := by
  obtain ⟨rows, es, h⟩ := h
  induction ts generalizing t disk r rows es with
  | nil => exact ⟨t, disk, rfl, ⟨rows, es, by simpa [readTuples, Relation.append] using h⟩, .refl t disk⟩
  | cons tuple ts ih =>
    rw [insertTuples, readTuples, h.schema_eq]
    rcases parseTuple_complete (p := p) h.plain (hts tuple List.mem_cons_self) with
      ⟨exn, hparse⟩ | ⟨row, hparse, hfull⟩
    · simp only [hparse]
      exact ⟨t, disk, rfl, ⟨rows, es, by simpa [Relation.append] using h⟩, .refl t disk⟩
    · have hcount := h.count
      rw [h.rows_eq, List.length_map, List.length_cons] at hroom
      obtain ⟨t', disk', hok, h', hframe⟩ := h.insertRow hfull (by omega)
      have hschema : t'.schema = t.schema := hframe.schema_eq
      have hts' : ∀ tuple ∈ ts, (getLines (ch ',') tuple).length = t'.schema.length := by
        rw [hschema]
        exact fun tuple htuple => hts tuple (List.mem_cons_of_mem _ htuple)
      have hroom' : (r.append p [row]).rows.length + (r.append p [row]).deleted.length + ts.length ≤ columnRoom := by
        simp only [Relation.append, List.length_append, List.map_singleton, List.length_singleton, h.rows_eq,
          List.length_map]
        omega
      obtain ⟨t'', disk'', hok', hstands, hframe'⟩ := ih hts' hroom' _ _ h'
      rw [show (r.append p [row]).schema = t.schema from h.schema_eq] at hok' hstands
      rw [Relation.append_append] at hstands
      simp only [hparse, hok, Bind.bind, Except.bind]
      exact ⟨t'', disk'', hok', hstands, hframe.trans hframe'⟩

/-! ## Queries -/

theorem HoldsRelation.toFull (h : HoldsRelation p disk t r rows es) : Full t disk rows := ⟨h.plain, ⟨es, h.holds⟩, h.full⟩

/-- The scan of a table. -/
theorem HoldsRelation.scanned (h : HoldsRelation p e.disk t r rows es) (hjoin : s.hasJoin = false) :
    Scanned p e s t none r.rows := by
  rw [h.rows_eq]
  exact .table hjoin (totalRows_of_holdsRows h.holds) h.toFull.materialize_all

/-- The hash join of two tables. -/
theorem HoldsRelation.join (h : HoldsRelation p disk t r rows es) (h2 : HoldsRelation p disk t2 r2 rows2 es2)
    {left right : Text} (hnumbers : Database.JoinsNumbers r r2 left right) :
    HashJoin.join p t t2 disk left right = .ok (r.join r2 left right) := by
  unfold Relation.join
  rw [h.schema_eq, h2.schema_eq]
  cases hc : columnIndex t.schema left with
  | none => simp only [HashJoin.join, hc, Pure.pure, Except.pure]
  | some c =>
    cases hc2 : columnIndex t2.schema right with
    | none => simp only [HashJoin.join, hc, hc2, Pure.pure, Except.pure]
    | some c2 =>
      have hlt := (List.findIdx?_eq_some_iff_getElem.mp hc).1
      have hlt2 := (List.findIdx?_eq_some_iff_getElem.mp hc2).1
      have hd := List.getElem?_eq_getElem hlt
      have hd2 := List.getElem?_eq_getElem hlt2
      obtain ⟨htype, htype2⟩ := hnumbers c c2 _ _ (h.schema_eq ▸ hc) (h2.schema_eq ▸ hc2)
        (by rw [h.schema_eq, hd]) (by rw [h2.schema_eq, hd2])
      rw [(h.toFull.joinInput hd htype).join (h2.toFull.joinInput hd2 htype2) hc hc2, NestedLoop.pairs_map]
      dsimp only
      rw [h.rows_eq, h2.rows_eq, NestedLoop.pairs_map]
      refine congrArg Except.ok (NestedLoop.pairs_congr fun row hrow row2 hrow2 => ?_)
      exact (h.toFull.key_eq_iff h2.toFull hd hd2 htype htype2 hrow hrow2).symm

/-- A clause for a key is satisfied by the rows with that key. -/
theorem satisfies_key {w : Text} {id : BitVec 64} {row : Row} (hid : stoll w = .ok id)
    (hwf : WellFormed (⟨idName, .decimal⟩ :: schema) s) (hw : ⟨idName, str "=", w⟩ ∈ s.filters)
    (hrow : RowFull (⟨idName, .decimal⟩ :: schema) row) :
    satisfies (⟨idName, .decimal⟩ :: schema) row ⟨idName, str "=", w⟩ = decide (rowKey row = id.toNat) := by
  obtain ⟨d, hd, -, hdecimal⟩ := hwf.filters _ hw
  obtain rfl : (⟨idName, .decimal⟩ : ColumnDef) = d := by simpa using hd
  obtain ⟨n, hn⟩ := Option.isSome_iff_exists.mp (hdecimal rfl).2
  obtain ⟨id', hid', rfl⟩ := stoll_literal hn
  obtain rfl : id' = id := Except.ok.inj (hid'.symm.trans hid)
  obtain ⟨v, values, hvalues, htype⟩ := hrow.exists_head
  have hvalue : valueOf (⟨idName, .decimal⟩ :: schema) row idName = some v := by
    simp [valueOf, hvalues]
  simp only [satisfies, hvalue, htype, reduceCtorEq, if_false, hn, if_true, rowKey, hvalues,
    BitVec.toInt_inj, BitVec.toNat_inj]

theorem filters_of_asksForId {w : Text} (h : asksForId s = some w) :
    s.hasJoin = false ∧ s.filters = [⟨idName, str "=", w⟩] := by
  unfold asksForId at h
  split at h
  · rename_i w' hjoin hfilters
    split at h
    · rename_i hw
      obtain ⟨name, op, value⟩ := w'
      obtain ⟨rfl, rfl⟩ := hw
      cases h
      exact ⟨hjoin, hfilters⟩
    · cases h
  · cases h

/-- The index gives up, or it leads to the only row that the filter keeps. -/
theorem HoldsRelation.indexLookup (h : HoldsRelation p disk t r rows es) (hone : Database.LooksUpOne r s)
    (hwf : ∀ w, asksForId s = some w → WellFormed r.schema s) :
    Executor.indexLookup p t disk s = .ok none ∨ ∃ row, Executor.indexLookup p t disk s = .ok (some row) ∧
      r.rows.filter (fun row => s.filters.all (satisfies r.schema row)) = [row] := by
  unfold Executor.indexLookup
  cases hasks : asksForId s with
  | none => exact Or.inl rfl
  | some w =>
    cases hid : stoll w with
    | error exn => exact Or.inl (by simp only [hid])
    | ok id =>
      obtain ⟨⟨schema, hschema⟩, hdeleted, hlength⟩ := hone w id hasks hid
      have htschema : t.schema = ⟨idName, .decimal⟩ :: schema := h.schema_eq ▸ hschema
      obtain ⟨tree, htree, hholds⟩ := h.holds.index ⟨_, by rw [htschema]; rfl, rfl⟩
      obtain ⟨found, tree', hsearch, -, hsound⟩ := hholds.search_sound id.toNat
      cases found with
      | none => exact Or.inl (by simp only [hid, htree, hsearch, Bind.bind, Except.bind, Pure.pure, Except.pure])
      | some rid =>
        right
        -- an entry of a deleted row would have a deleted key
        obtain ⟨row, hrow, hkey⟩ := mem_keyEntries
          ((h.index schema htschema _ (hsound rid rfl)).resolve_right hdeleted)
        have hmat := h.toFull.materializeRow (p := p) hrow
        refine ⟨storedRow p row, by
          simp only [hid, htree, hsearch, hmat, Bind.bind, Except.bind, Pure.pure, Except.pure], ?_⟩
        have hfull := h.full row (List.mem_of_getElem? hrow)
        have hread : ∀ row ∈ r.rows, RowFull (⟨idName, .decimal⟩ :: schema) row := by
          rw [h.rows_eq, ← htschema]
          exact List.forall_mem_map.mpr fun row hrow => rowFull_storedRow (h.full row hrow)
        have hfilter : r.rows.filter (fun row => s.filters.all (satisfies r.schema row)) =
            r.rows.filter fun row => rowKey row = id.toNat := by
          have hw := hwf w hasks
          rw [hschema] at hw ⊢
          rw [(filters_of_asksForId hasks).2]
          refine List.filter_congr fun row hrow => ?_
          rw [List.all_cons, List.all_nil, Bool.and_true]
          exact satisfies_key hid hw (by simp [(filters_of_asksForId hasks).2]) (hread row hrow)
        rw [hfilter]
        have hmem : storedRow p row ∈ r.rows.filter fun row => rowKey row = id.toNat := by
          rw [List.mem_filter, h.rows_eq, decide_eq_true_eq, rowKey_storedRow (htschema ▸ hfull)]
          exact ⟨List.mem_map_of_mem (List.mem_of_getElem? hrow), hkey⟩
        have hpos := List.length_pos_of_mem hmem
        obtain ⟨row', hrow'⟩ := List.length_eq_one_iff.mp (le_antisymm hlength hpos)
        rw [hrow', List.mem_singleton] at hmem
        rw [hrow', hmem]

theorem unknownColumn_eq (hschema : r.schema = t.schema) (columns : List Text) :
    unknownColumn t columns = r.unknown columns := by
  have hnone : ∀ name, columnIndex t.schema name = none ↔ ∀ d ∈ t.schema, d.name ≠ name := by
    intro name
    rw [columnIndex, List.findIdx?_eq_none_iff]
    simp
  simp only [unknownColumn, Relation.unknown, hnone, hschema]

/-- The table with a name, on the disk and in the database. -/
theorem Represents.getTable (h : Represents p e db) (name : Text) :
    (∃ err, e.getTable name = .error err ∧ db.find name = .error err) ∨
    ∃ t r, e.getTable name = .ok t ∧ db.find name = .ok r ∧ StandsFor p e.disk t r := by
  have hrel := h.tables (upper name)
  simp only [Executor.getTable, Database.find]
  generalize e.tables (upper name) = x at hrel
  generalize db (upper name) = y at hrel
  cases hrel with
  | none => exact Or.inl ⟨_, rfl, rfl⟩
  | some hstands => exact Or.inr ⟨_, _, rfl, rfl, hstands⟩

/-- A query is refused with the message of the database, or it has the rows of the database. -/
theorem Represents.source (h : Represents p e db)
    (hnumbers : s.hasJoin = true → ∀ r r2, db.find s.tableName = .ok r → db.find s.join.table = .ok r2 →
      Database.JoinsNumbers r r2 s.join.onLeft s.join.onRight) :
    (∃ err, Refused e s err ∧ db.source s = .error err) ∨
    ∃ t u r rows es, Accepted e s t ∧ db.find s.tableName = .ok r ∧ HoldsRelation p e.disk t r rows es ∧
      ∃ source, Scanned p e s t u source ∧ db.source s = .ok (resultSchema t u, source) ∧
        (u = none → resultSchema t u = r.schema ∧ source = r.rows) := by
  rcases h.getTable s.tableName with ⟨err, ht, hr⟩ | ⟨t, r, ht, hr, rows, es, hstores⟩
  · exact Or.inl ⟨err, .table ht, by simp only [Database.source, hr, Bind.bind, Except.bind]⟩
  · cases hjoin : s.hasJoin with
    | true =>
      rcases h.getTable s.join.table with ⟨err, ht2, hr2⟩ | ⟨t2, r2, ht2, hr2, rows2, es2, hstores2⟩
      · exact Or.inl ⟨err, .join ht hjoin ht2,
          by simp only [Database.source, hr, hr2, hjoin, if_true, Bind.bind, Except.bind]⟩
      · right
        refine ⟨t, some t2, r, rows, es, ⟨ht, fun hno => by simp [hjoin] at hno⟩, hr, hstores, _,
          .join hjoin ht2 (hstores.join hstores2 (hnumbers hjoin r r2 hr hr2)), ?_, fun hu => by cases hu⟩
        simp only [Database.source, hr, hr2, hjoin, if_true, Bind.bind, Except.bind, Pure.pure, Except.pure,
          resultSchema, Option.elim_some, hstores.schema_eq, hstores2.schema_eq]
    | false =>
      have hunknown := unknownColumn_eq hstores.schema_eq s.columns
      cases hname : r.unknown s.columns with
      | some name =>
        refine Or.inl ⟨_, .column ht hjoin (hunknown.trans hname), ?_⟩
        simp only [Database.source, hr, hjoin, hname, Bool.false_eq_true, if_false, Bind.bind, Except.bind]
      | none =>
        right
        have hschema : resultSchema t none = r.schema := by simp [resultSchema, hstores.schema_eq]
        refine ⟨t, none, r, rows, es, ⟨ht, fun _ => hunknown.trans hname⟩, hr, hstores, _,
          hstores.scanned hjoin, ?_, fun _ => ⟨hschema, rfl⟩⟩
        simp only [Database.source, hr, hjoin, hname, Bool.false_eq_true, if_false, Bind.bind, Except.bind,
          Pure.pure, Except.pure, hschema]

/-- A query answers what the database permits. -/
theorem Represents.execSelect (h : Represents p e db) {stmt : Statement} (htype : stmt.type = .select)
    (hproper : db.Proper stmt) :
    ∃ o, Executor.execSelect p e stmt.selectStmt = .ok o ∧ db.Permits p stmt o := by
  rcases h.source (s := stmt.selectStmt) (hproper.join htype) with ⟨err, hrefused, hsource⟩ |
    ⟨t, u, r, rows, es, hacc, hr, hstores, source, hscanned, hsource, hnone⟩
  · exact ⟨_, hrefused.execSelect, .selectRefused htype hsource⟩
  · have hwf := hproper.select htype _ _ hsource
    obtain ⟨kept, hkept, hresult, hanswers⟩ :=
      filter_emit (p := p) (show resultSchema t u = _ from rfl) hwf hscanned.read
    have hpermits : db.Permits p stmt (emit p t u stmt.selectStmt kept) := .selected htype hsource hanswers
    refine ⟨_, ?_, hpermits⟩
    have hindex := hstores.indexLookup (s := stmt.selectStmt) (hproper.lookup htype r hr) fun w hw => by
      have hjoin := (filters_of_asksForId hw).1
      have hu : u = none := by
        cases hscanned with
        | table => rfl
        | join hjoin' => simp [hjoin] at hjoin'
      exact (hnone hu).1 ▸ hwf
    rcases hindex with hmiss | ⟨row, hhit, hfilter⟩
    · rw [execSelect_of_scanned hacc hmiss hscanned, hkept]
      rfl
    · have hjoin : stmt.selectStmt.hasJoin = false := by
        cases hjoin : stmt.selectStmt.hasJoin with
        | false => rfl
        | true =>
          rw [indexLookup_of_join hjoin] at hhit
          cases hhit
      have hfull : ∀ row ∈ source, RowFull (resultSchema t u) row :=
        fun row hrow => (hscanned.read row hrow).full
      cases hscanned with
      | join hjoin' => simp [hjoin] at hjoin'
      | table _ hn hrows =>
        obtain ⟨hschema, rfl⟩ := hnone rfl
        rw [filterRows_eq (show resultSchema t none = _ from rfl) hwf hfull, hschema, hfilter] at hkept
        cases hkept
        exact execSelect_of_index hacc hhit

/-! ## Changes -/

theorem StandsFor.congr_disk {disk' : Disk} (h : StandsFor p disk t r)
    (hdisk : ∀ column ∈ t.columns, disk'.columns column.filePath = disk.columns column.filePath) :
    StandsFor p disk' t r := by
  obtain ⟨rows, es, h⟩ := h
  exact ⟨rows, es, { h with holds := HoldsRows.congr_disk h.holds hdisk }⟩

/-- A change of one table that leaves the files of the others alone. -/
theorem Represents.setTable (h : Represents p e db) {name : Text} (hapart : Apart (e.setTable name t disk))
    (hstands : StandsFor p disk t r)
    (hothers : ∀ name' u, name' ≠ name → e.tables name' = some u →
      ∀ column ∈ u.columns, disk.columns column.filePath = e.disk.columns column.filePath) :
    Represents p (e.setTable name t disk) (Function.update db name (some r)) := by
  refine ⟨hapart, fun name' => ?_⟩
  by_cases hname : name' = name
  · subst hname
    rw [setTable_same, Function.update_self]
    exact .some hstands
  · rw [setTable_ne _ _ _ hname, Function.update_of_ne hname]
    have hrel := h.tables name'
    cases hu : e.tables name' with
    | none =>
      rw [hu] at hrel
      cases hdb : db name' with
      | none => exact .none
      | some r' =>
        rw [hdb] at hrel
        cases hrel
    | some u =>
      rw [hu] at hrel
      cases hdb : db name' with
      | none =>
        rw [hdb] at hrel
        cases hrel
      | some r' =>
        rw [hdb] at hrel
        cases hrel with
        | some hold => exact .some (hold.congr_disk (hothers name' u hname hu))

theorem Represents.tables_eq_none (h : Represents p e db) {name : Text} :
    e.tables name = none ↔ db name = none := by
  have hrel := h.tables name
  generalize e.tables name = x at hrel
  generalize db name = y at hrel
  cases hrel <;> simp

/-- A table of the executor is one of the database. -/
theorem Represents.exists_relation (h : Represents p e db) {name : Text} (ht : e.tables name = some t) :
    ∃ r, db name = some r ∧ StandsFor p e.disk t r := by
  have hrel := h.tables name
  rw [ht] at hrel
  generalize db name = y at hrel
  cases hrel with
  | some hstands => exact ⟨_, rfl, hstands⟩

theorem Represents.execCreate (h : Represents p e db) {stmt : Statement} (htype : stmt.type = .create)
    (hproper : db.Proper stmt) :
    ∃ q, e.execCreate stmt.createStmt = .ok q ∧ Represents p q.1 (db.create stmt.createStmt) ∧
      db.Permits p stmt q.2 := by
  by_cases hname : stmt.createStmt.tableName = []
  · refine ⟨_, by rw [Executor.execCreate, if_pos hname]; rfl, ?_, .unnamed htype hname⟩
    rwa [Database.create_of_some (Or.inl hname)]
  · cases hold : e.tables stmt.createStmt.tableName with
    | some t =>
      refine ⟨(e, ⟨.returned 0 none, []⟩), ?_, ?_, .created htype hname⟩
      · simp [Executor.execCreate, hname, hold, Pure.pure, Except.pure]
      · obtain ⟨r, hr, -⟩ := h.exists_relation hold
        rwa [Database.create_of_some (Or.inr (by simp [hr]))]
    | none =>
      have hnew := h.tables_eq_none.mp hold
      obtain ⟨schema, hschema, hne, hfloat, hnodup, hfiles⟩ := hproper.create htype hname hnew
      obtain ⟨t, ht, hholds, -, htschema, hpaths⟩ :=
        init_holdsRows e.dataDir stmt.createStmt.tableName e.disk hne hnodup
      obtain ⟨tree, -, hfilled⟩ := init_indexFilled ht
      have hdense : IndexDense t [] := by
        intro hindex
        obtain ⟨tree, htree, -, hdense⟩ := hfilled hindex
        exact ⟨tree, htree, hdense⟩
      have hplain : Plain t.schema := by
        rw [htschema]
        intro d hd
        rcases columnDefs_type hschema d hd with hd' | hd' | hd'
        · exact Or.inl hd'
        · exact absurd hd' (hfloat d hd)
        · exact Or.inr hd'
      refine ⟨_, execCreate_of_init hname hold hschema ht, ?_, .created htype hname⟩
      rw [Database.create_of_none hname hnew hschema]
      refine h.setTable (h.apart.create ht hnodup fun name u hu d hd d' hd' => ?_) ?_ fun _ _ _ _ _ _ => rfl
      · obtain ⟨r, hr, rows, es, hstores⟩ := h.exists_relation hu
        exact hfiles name r hr d hd d' (hstores.schema_eq ▸ hd')
      · exact ⟨[], [], hholds, hplain, by simp, htschema.symm, rfl, by simp, hdense, rfl⟩

theorem Represents.execInsert (h : Represents p e db) {stmt : Statement} (htype : stmt.type = .insert)
    (hproper : db.Proper stmt) :
    ∃ q, e.execInsert p stmt.insertStmt = .ok q ∧ Represents p q.1 (db.insert p stmt.insertStmt) ∧
      db.Permits p stmt q.2 := by
  unfold Executor.execInsert
  rcases h.getTable stmt.insertStmt.tableName with ⟨err, ht, hr⟩ | ⟨t, r, ht, hr, hstands⟩
  · simp only [ht]
    exact ⟨_, rfl, by simpa only [Database.insert, hr] using h, .insertRefused htype hr⟩
  · have htable := getTable_eq_ok.mp ht
    have harity := hproper.insert htype r hr
    obtain ⟨rows, es, hstores⟩ := id hstands
    rw [hstores.schema_eq] at harity
    obtain ⟨t', disk', hins, hstands', hframe⟩ := hstands.insertTuples (p := p) harity (hproper.room htype r hr)
    have hgrown := insertTuples_grown (h.apart.sound _ t htable) hins
    simp only [ht, hins, Bind.bind, Except.bind, Pure.pure, Except.pure]
    refine ⟨_, rfl, ?_, ?_⟩
    · rw [Database.insert_of_find hr]
      refine h.setTable (h.apart.setTable _ htable hgrown.sound hgrown.schema_eq hgrown.paths_eq) hstands' ?_
      intro name' u hname hu column hcolumn
      exact hframe.outside _ (h.apart.disjoint hname hu htable column hcolumn)
    · cases hexn : (readTuples p r.schema (tuples stmt.insertStmt.rawValues)).2 with
      | none => exact .inserted htype hr hexn
      | some exn => exact .insertThrown htype hr hexn

theorem StandsFor.clear (h : StandsFor p disk t r) : StandsFor p disk t.clear r.clear := by
  obtain ⟨rows, es, h⟩ := h
  refine ⟨[], es, ⟨h.holds.schema_ne, ?_, by simp, h.holds.index⟩, h.plain, by simp, h.schema_eq, rfl, ?_,
    h.dense, ?_⟩
  · exact clear_holds h.holds.columns.length_eq h.holds.columns.nodup _
  · intro schema hschema q hq
    right
    rw [Relation.clear, List.mem_append, h.rows_eq, List.map_map]
    rcases h.index schema hschema q hq with hkey | hdeleted
    · right
      obtain ⟨row, hrow, hkey⟩ := mem_keyEntries hkey
      have hmem := List.mem_of_getElem? hrow
      refine List.mem_map.mpr ⟨row, hmem, ?_⟩
      rw [Function.comp_apply, rowKey_storedRow ((show t.schema = _ from hschema) ▸ h.full row hmem), hkey]
    · exact Or.inl hdeleted
  · have := h.count
    simp only [Relation.clear, List.length_append, List.length_map, List.length_nil, h.rows_eq]
    omega

theorem Represents.execDelete (h : Represents p e db) {stmt : Statement} (htype : stmt.type = .delete) :
    Represents p (e.execDelete stmt.deleteStmt).1 (db.delete stmt.deleteStmt) ∧
      db.Permits p stmt (e.execDelete stmt.deleteStmt).2 := by
  unfold Executor.execDelete
  rcases h.getTable stmt.deleteStmt.tableName with ⟨err, ht, hr⟩ | ⟨t, r, ht, hr, hstands⟩
  · simp only [ht]
    exact ⟨by simpa only [Database.delete, hr] using h, .deleteRefused htype hr⟩
  · simp only [ht]
    have htable := getTable_eq_ok.mp ht
    refine ⟨?_, .deleted htype hr⟩
    rw [Database.delete_of_find hr]
    exact h.setTable (h.apart.setTable _ htable (h.apart.sound _ t htable).clear rfl (paths_clear t))
      hstands.clear fun _ _ _ _ _ _ => rfl

/-! ## Runs -/

/-- Every statement answers what the database permits, and leaves a database behind. -/
theorem exec_simulates (p : Platform) :
    Simulation.Simulates (exec p) (Database.spec p) Database.Proper (Represents p) := by
  intro e db stmt h hproper
  unfold exec Database.spec
  dsimp only [Database.next]
  cases htype : stmt.type with
  | create =>
    obtain ⟨q, hq, hrepresents, hpermits⟩ := h.execCreate htype hproper
    exact ⟨q.1, q.2, hq, hrepresents, hpermits⟩
  | insert =>
    obtain ⟨q, hq, hrepresents, hpermits⟩ := h.execInsert htype hproper
    exact ⟨q.1, q.2, hq, hrepresents, hpermits⟩
  | select =>
    obtain ⟨o, ho, hpermits⟩ := h.execSelect htype hproper
    simp only [ho, Bind.bind, Except.bind, Pure.pure, Except.pure]
    exact ⟨e, o, rfl, h, hpermits⟩
  | delete =>
    obtain ⟨hrepresents, hpermits⟩ := h.execDelete htype
    exact ⟨_, _, rfl, hrepresents, hpermits⟩
  | none => exact ⟨e, _, rfl, h, .none htype⟩

theorem represents_init (p : Platform) (dataDir : Text) (disk : Disk) :
    Represents p (init dataDir disk) .empty := ⟨apart_init dataDir disk, fun _ => .none⟩

/-- Any sequence of proper statements is answered, by what the database permits, and the executor
behind them stands for the database behind them. -/
theorem exec_refines_database (p : Platform) (dataDir : Text) (disk : Disk) (stmts : List Statement)
    (hproper : (Database.spec p).Meets Database.Proper .empty stmts) :
    ∃ e os, Simulation.answers (exec p) (init dataDir disk) stmts = .ok (e, os) ∧
      Represents p e ((Database.spec p).after .empty stmts) ∧ (Database.spec p).Allows .empty stmts os :=
  (exec_simulates p).run (represents_init p dataDir disk) hproper

/-- Two rows, and a query that the index answers. -/
def pointQuery : List Statement :=
  [Parser.parse (str "CREATE TABLE T (ID INT, N TEXT)"), Parser.parse (str "INSERT INTO T VALUES (1,'a'),(2,'b')"),
    Parser.parse (str "SELECT N FROM T WHERE ID = 2")]

/-- The table behind the first two of these. -/
def twoTexts : Relation where
  schema := [⟨str "ID", .decimal⟩, ⟨str "N", .varchar⟩]
  rows := [⟨[⟨.decimal, 1, []⟩, ⟨.varchar, 0, str "a"⟩]⟩, ⟨[⟨.decimal, 2, []⟩, ⟨.varchar, 0, str "b"⟩]⟩]

theorem wellFormed_pointQuery :
    WellFormed twoTexts.schema (Parser.parse (str "SELECT N FROM T WHERE ID = 2")).selectStmt where
  plain := by
    intro d hd
    rcases List.mem_pair.mp hd with rfl | rfl
    · exact Or.inl rfl
    · exact Or.inr rfl
  columns := by decide
  filters := by
    have hfilters : (Parser.parse (str "SELECT N FROM T WHERE ID = 2")).selectStmt.filters =
        [⟨str "ID", str "=", str "2"⟩] := by decide
    intro w hw
    rw [hfilters, List.mem_singleton] at hw
    subst hw
    exact ⟨⟨str "ID", .decimal⟩, by decide, by decide, by decide⟩
  order := by decide

theorem find_created : Database.find ((Database.spec .reference).after .empty (pointQuery.take 1)) (str "T") =
    .ok { twoTexts with rows := [] } := by decide

theorem find_inserted : Database.find ((Database.spec .reference).after .empty (pointQuery.take 2)) (str "T") =
    .ok twoTexts := by decide

theorem meets_pointQuery : (Database.spec .reference).Meets Database.Proper .empty pointQuery := by
  have hasks : asksForId (Parser.parse (str "SELECT N FROM T WHERE ID = 2")).selectStmt = some (str "2") := by
    decide
  have hcolumns : columnDefs (Parser.parse (str "CREATE TABLE T (ID INT, N TEXT)")).createStmt.columns =
      .ok twoTexts.schema := by decide
  refine ⟨.of_create ?_ hcolumns ?_ ?_ ?_ (by simp [Database.empty]), .of_insert ?_ find_created ?_ ?_,
    .of_select ?_ ?_ find_inserted wellFormed_pointQuery ?_, trivial⟩
  · decide
  · decide
  · decide
  · decide
  · decide
  · decide
  · decide
  · decide
  · decide
  · intro w id hw hid
    obtain rfl := Option.some.inj (hasks.symm.trans hw)
    obtain rfl := Except.ok.inj ((show stoll (str "2") = .ok 2 by decide).symm.trans hid)
    exact ⟨⟨_, rfl⟩, by decide, by decide⟩

theorem exec_refines_database_pointQuery :
    ∃ e, Simulation.answers (exec .reference) (init (str "data") .blank) pointQuery =
        .ok (e, [⟨.returned 0 none, []⟩, ⟨.returned 0 none, []⟩, ⟨.returned 0 none, [[str "b"]]⟩]) ∧
      Represents .reference e ((Database.spec .reference).after .empty pointQuery) ∧
      (Database.spec .reference).Allows .empty pointQuery
        [⟨.returned 0 none, []⟩, ⟨.returned 0 none, []⟩, ⟨.returned 0 none, [[str "b"]]⟩] := by
  have hend : (Simulation.answers (exec .reference) (init (str "data") .blank) pointQuery).map Prod.snd =
      .ok [⟨.returned 0 none, []⟩, ⟨.returned 0 none, []⟩, ⟨.returned 0 none, [[str "b"]]⟩] := by
    decide +kernel
  obtain ⟨e, os, hrun, hrepresents, hallows⟩ :=
    exec_refines_database .reference (str "data") .blank pointQuery meets_pointQuery
  rw [hrun] at hend
  obtain rfl := Except.ok.inj hend
  exact ⟨e, hrun, hrepresents, hallows⟩

end FlexQL.Executor
