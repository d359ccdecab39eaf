import FlexQL.Executor.PointQuery

/-!
# Columns with one name

Two columns of a table with the same name are two column stores on one file. The first value of the
later column clears the page on which the earlier column has put its value, so two rows that differ
in the earlier value only cannot be told apart by reading them back.
-/

namespace FlexQL

open ByteMemory Text

theorem AgreeTo.mono {n k : ℕ} {m m' : ByteMemory} (h : AgreeTo n m m') (hk : k ≤ n) :
    AgreeTo k m m' := fun a ha => h a (lt_of_lt_of_le ha (Nat.mul_le_mul_right 4096 hk))

/-- The first item of a file is written to the first page. -/
theorem putItem_clearPage_of_ge {m : ByteMemory} {f : SlotFormat} {block : List UInt8}
    (hf : f.Sound) (hblock : block.length ≤ f.slotSize) {a : ℕ} (ha : 4096 ≤ a) :
    putItem (clearPage m f 0) f 0 block a = m a := by
  have hzero : pageOffset 0 = 0 := by rw [pageOffset_of_lt (by decide), Nat.zero_mul]
  have hout : a < pageOffset 0 ∨ pageOffset 0 + pageSize ≤ a := by
    rw [hzero, pageSize]
    omega
  have hroom : numItems (clearPage m f 0) (pageOffset 0) < f.capacity := by
    rw [numItems_clearPage]
    exact hf.capacity_pos
  rw [putItem_of_outside hroom hblock hout, clearPage_of_outside hout]

namespace Table

variable {t t' : Table} {disk disk' : Disk}

/-- The first value of a column. -/
theorem insertColumn_first (disk : Disk) {i : ℕ} {column : ColumnStore}
    (hcolumn : t.columns[i]? = some column) (hinUse : column.InUse) (hnum : column.numPages = 0) (v : Value) :
    ∃ u, t.insertColumn disk i v = .ok ({ t with columns := t.columns.set i u },
        disk.setColumn column.filePath (putItem (clearPage (disk.columns column.filePath)
          (.fixed v.type.itemSize) 0) (.fixed v.type.itemSize) 0 v.bytes)) ∧
      ColumnStore.Inserted column u 0 := by
  have hsound := itemFormat_sound v.type
  have hroom : ¬ column.HasRoom (disk.columns column.filePath) (.fixed v.type.itemSize) :=
    fun hroom => absurd hroom.1 (by omega)
  obtain ⟨u, hu, hins⟩ := ColumnStore.insertItem_of_newPage hsound hinUse hroom
    (by rw [hnum]; decide) v.bytes_length.le
  rw [hnum] at hu hins
  refine ⟨u, ?_, hins⟩
  rw [← v.bytes_length] at hu ⊢
  simp only [Table.insertColumn, hcolumn, ColumnStore.insertFixed, hu, Bind.bind, Except.bind,
    Pure.pure, Except.pure, hins.filePath_eq]

/-- A value that is overwritten by a later one leaves no trace. -/
theorem ColumnsAlike.insertColumns_overwritten (h : ColumnsAlike t t') (disk disk' : Disk)
    (hlen : t.columns.length = t.schema.length) {i : ℕ} {column : ColumnStore}
    (hcolumn : t.columns[i]? = some column)
    (hfresh : ∀ (j : ℕ) c, i ≤ j → t.columns[j]? = some c → c.numPages = 0) {v w : Value}
    (htype : v.type = w.type) {values : List Value} {j : ℕ} (hij : i < j)
    (hj : j < i + (values.length + 1)) {c : ColumnStore} (hc : t.columns[j]? = some c)
    (hpath : c.filePath = column.filePath) :
    ∃ r r', t.insertColumns disk i (v :: values) = .ok r ∧
      t'.insertColumns disk' i (w :: values) = .ok r' ∧
      ColumnsMoved t t' i (i + (values.length + 1)) disk disk' r r' := by
  obtain ⟨column', hcolumn', halike⟩ := h.exists_column hcolumn
  have hnum := hfresh i column le_rfl hcolumn
  obtain ⟨u, hu, hins⟩ := insertColumn_first disk hcolumn halike.inUse hnum v
  obtain ⟨u', hu', hins'⟩ := insertColumn_first disk' hcolumn' halike.inUse'
    (halike.numPages_eq.trans hnum) w
  have hi := (List.getElem?_eq_some_iff.mp hcolumn).1
  have hi' : i < t.schema.length := hlen ▸ hi
  rw [halike.filePath_eq, ← htype] at hu'
  generalize hm : putItem _ _ 0 v.bytes = m at hu
  generalize hm' : putItem _ _ 0 w.bytes = m' at hu'
  have hsound := itemFormat_sound v.type
  have hm_ge : ∀ a, 4096 ≤ a → m a = disk.columns column.filePath a := fun a ha => by
    rw [← hm]
    exact putItem_clearPage_of_ge hsound v.bytes_length.le ha
  have hm_ge' : ∀ a, 4096 ≤ a → m' a = disk'.columns column.filePath a := fun a ha => by
    rw [← hm']
    exact putItem_clearPage_of_ge hsound (htype ▸ w.bytes_length.le) ha
  -- the rest of the loop sees new columns only
  have halike₁ : ColumnsAlike { t with columns := t.columns.set i u }
      { t' with columns := t'.columns.set i u' } :=
    ⟨h.schema_eq, forall₂_set h.columns (halike.inserted (by decide) hins hins') i⟩
  have hfresh₁ : ∀ (k : ℕ) c', i + 1 ≤ k → (t.columns.set i u)[k]? = some c' → c'.numPages = 0 := by
    intro k c' hk hc'
    rw [List.getElem?_set_ne (by omega)] at hc'
    exact hfresh k c' (by omega) hc'
  have hagree₁ : FilesAgree { t with columns := t.columns.set i u } (i + 1)
      (disk.setColumn column.filePath m) (disk'.setColumn column.filePath m') := by
    intro k c' hk hc' a ha
    rw [hfresh₁ k c' hk hc', Nat.zero_mul] at ha
    exact absurd ha (Nat.not_lt_zero a)
  have hrest := halike₁.insertColumns hagree₁ ((List.length_set ..).trans hlen) values
  have hleft : t.insertColumns disk i (v :: values) =
      Table.insertColumns { t with columns := t.columns.set i u }
        (disk.setColumn column.filePath m) (i + 1) values := by
    simp only [Table.insertColumns, if_pos hi', hu, Bind.bind, Except.bind]
  have hright : t'.insertColumns disk' i (w :: values) =
      Table.insertColumns { t' with columns := t'.columns.set i u' }
        (disk'.setColumn column.filePath m') (i + 1) values := by
    simp only [Table.insertColumns, h.schema_eq, if_pos hi', hu', Bind.bind, Except.bind]
  rw [hleft, hright]
  generalize Table.insertColumns { t with columns := t.columns.set i u } _ (i + 1) values = x at hrest
  generalize Table.insertColumns { t' with columns := t'.columns.set i u' } _ (i + 1) values = y at hrest
  cases hrest with
  | error hfull =>
    obtain ⟨-, k, c', hk, hc', hfull⟩ := hfull
    rw [hfresh₁ k c' hk hc'] at hfull
    exact absurd hfull (by decide)
  | @ok r r' hr =>
    have hcount : i + 1 + values.length = i + (values.length + 1) := by omega
    rw [hcount] at hr
    -- the later column agrees on the first page, and that is the page of the earlier one
    have hpaths := congrArg (fun l : List Text => l[j]?) hr.paths_eq
    simp only [List.getElem?_map, List.getElem?_set_ne (Nat.ne_of_lt hij), hc, Option.map_some,
      Option.map_eq_some_iff] at hpaths
    obtain ⟨c', hc', hpath'⟩ := hpaths
    have hpage : AgreeTo 1 (r.2.columns column.filePath) (r'.2.columns column.filePath) := by
      have hagree := (hr.agree j c' hij hc').mono (hr.pages j c' hij hj hc')
      rwa [hpath', hpath] at hagree
    have hself : r.1.columns[i]? = some u := by
      rw [hr.others i (Or.inl (Nat.lt_succ_self i))]
      exact List.getElem?_set_self hi
    have hpaths₁ := paths_set (u := u) hcolumn hins.filePath_eq
    refine ⟨r, r', rfl, rfl, ⟨⟨hr.alike, ?_, ?_, hr.schema_eq, hr.paths_eq.trans hpaths₁, ?_⟩, ?_, ?_,
      hr.index_eq, hr.index_eq'⟩⟩
    · intro k c'' hk hc''
      rcases Nat.eq_or_lt_of_le hk with rfl | hlt
      · obtain rfl : u = c'' := Option.some.inj (hself.symm.trans hc'')
        rw [hins.numPages_eq, hins.filePath_eq]
        exact hpage
      · exact hr.agree k c'' hlt hc''
    · intro path a ha
      by_cases hp : path = column.filePath
      · subst hp
        by_cases hlt : a < 4096
        · exact hpage a (by omega)
        · apply hr.keeps
          rw [Disk.setColumn_same, Disk.setColumn_same, hm_ge a (by omega), hm_ge' a (by omega), ha]
      · apply hr.keeps
        rwa [Disk.setColumn_ne _ hp, Disk.setColumn_ne _ hp]
    · intro path hpath
      refine (hr.outside path (hpaths₁ ▸ hpath)).trans (Disk.setColumn_ne _ fun heq => hpath ?_)
      rw [heq]
      exact List.mem_map_of_mem (List.mem_of_getElem? hcolumn)
    · intro k hk
      rw [hr.others k (by omega)]
      exact List.getElem?_set_ne (by omega)
    · intro k c'' hk hk' hc''
      rcases Nat.eq_or_lt_of_le hk with rfl | hlt
      · obtain rfl : u = c'' := Option.some.inj (hself.symm.trans hc'')
        rw [hins.numPages_eq]
        exact Nat.one_pos
      · exact hr.pages k c'' hlt hk' hc''

/-- The loop of `insert_row` in two parts. -/
theorem insertColumns_append (t : Table) (disk : Disk) (i : ℕ) (xs ys : List Value) :
    t.insertColumns disk i (xs ++ ys) = (do
      let r ← t.insertColumns disk i xs
      r.1.insertColumns r.2 (i + xs.length) ys) := by
  induction xs generalizing t disk i with
  | nil => rfl
  | cons x xs ih =>
    simp only [List.cons_append, Table.insertColumns]
    by_cases hi : i < t.schema.length
    · simp only [if_pos hi, Bind.bind, Except.bind]
      cases hx : t.insertColumn disk i x with
      | error f => rfl
      | ok r =>
        have hrest := ih r.1 r.2 (i + 1)
        simp only [Bind.bind, Except.bind] at hrest
        simp only [hrest, List.length_cons, Nat.add_assoc, Nat.add_comm 1]
    · simp only [if_neg hi, Bind.bind, Except.bind]
      cases ys with
      | nil => rfl
      | cons y ys => rw [Table.insertColumns, if_neg (by omega)]

/-- Two first rows that differ in a value that is overwritten. -/
theorem insertColumns_rows (disk : Disk) (hinUse : ∀ column ∈ t.columns, column.InUse)
    (hlen : t.columns.length = t.schema.length)
    (hfresh : ∀ column ∈ t.columns, column.numPages = 0) {i j : ℕ} (hij : i < j)
    {column c : ColumnStore} (hcolumn : t.columns[i]? = some column) (hc : t.columns[j]? = some c)
    (hpath : c.filePath = column.filePath) (xs ys : List Value) (hi : xs.length = i)
    (hj : j < i + (ys.length + 1)) {v w : Value} (htype : v.type = w.type) :
    ∃ r r', t.insertColumns disk 0 (xs ++ v :: ys) = .ok r ∧
      t.insertColumns disk 0 (xs ++ w :: ys) = .ok r' ∧
      ColumnsMoved t t 0 (i + (ys.length + 1)) disk disk r r' := by
  have halike := ColumnsAlike.refl hinUse
  have hfirst := (halike.insertColumns (FilesAgree.refl t 0 disk) hlen xs).ends
  rw [insertColumns_append, insertColumns_append]
  generalize t.insertColumns disk 0 xs = x at hfirst
  cases hfirst with
  | error hfull =>
    obtain ⟨-, k, c', -, hc', hfull⟩ := hfull
    rw [hfresh c' (List.mem_of_getElem? hc')] at hfull
    exact absurd hfull (by decide)
  | @ok q hq =>
    simp only [Nat.zero_add, hi] at hq ⊢
    have hsame : ∀ k, i ≤ k → q.1.columns[k]? = t.columns[k]? := fun k hk => hq.others k (Or.inr hk)
    have hlen' : q.1.columns.length = q.1.schema.length := by
      rw [hq.length_eq, hlen, hq.schema_eq]
    obtain ⟨r, r', hr, hr', hmoved⟩ := hq.alike.insertColumns_overwritten q.2 q.2
      hlen' ((hsame i le_rfl).trans hcolumn)
      (fun k c' hk hc' => hfresh c' (List.mem_of_getElem? ((hsame k hk).symm.trans hc')))
      htype hij hj ((hsame j hij.le).trans hc) hpath
    exact ⟨r, r', hr, hr', hq.trans (Nat.zero_le i) (by omega) hmoved⟩

end Table

namespace Executor

open Table Runs

variable {p : Platform} {dataDir name : Text} {disk₀ : Disk} {schema : Schema} {row : Row}

/-- The first row of a table with an index, once its values are in the columns. -/
theorem insertRow_first {d : ColumnDef} {t₀ : Table} (hname : d.name = idName)
    (hinit : Table.init dataDir name (d :: schema) disk₀ = .ok t₀) (hne : row.values ≠ [])
    {r : Table × Disk} (hr : t₀.insertColumns disk₀ 0 row.values = .ok r)
    (hschema : r.1.schema = t₀.schema) (hindex : r.1.indexManager = t₀.indexManager) :
    ∃ t tree, t₀.insertRow disk₀ row = .ok (t, r.2) ∧ t.columns = r.1.columns ∧
      t.schema = d :: schema ∧ t.indexManager.getIndex pkName = some tree ∧
      BPTree.HoldsLinked [(rowKey row, 0)] tree := by
  obtain ⟨tree, tree', htree, htree', hholds⟩ :=
    BPTree.init_insert (disk₀.indexes (pkPath dataDir name)) (rowKey row, 0)
  rw [init_of_id dataDir name _ disk₀ hname htree] at hinit
  cases hinit
  obtain ⟨v, values, hvalues⟩ := List.exists_cons_of_ne_nil hne
  have hkey : rowKey row = v.bits.toNat := by rw [rowKey, hvalues]
  rw [BPTree.insertStep, hkey] at htree'
  dsimp only at hschema hindex
  have hinsert : r.1.insertKey row 0 =
      .ok { r.1 with indexManager := r.1.indexManager.setIndex pkName tree' } := by
    simp only [insertKey, hschema, hindex, if_pos hname, hvalues, IndexManager.getIndex_setIndex,
      htree', Bind.bind, Except.bind, Pure.pure, Except.pure]
  refine ⟨{ r.1 with indexManager := r.1.indexManager.setIndex pkName tree' }, tree', ?_, rfl,
    hschema, IndexManager.getIndex_setIndex .., hholds⟩
  rw [Table.insertRow, show Table.nextRid _ = .ok 0 from rfl]
  simp only [hr, hinsert, Bind.bind, Except.bind, Pure.pure, Except.pure]

/-- A correct lookup reads the first row back. -/
theorem LookupCorrect.reads_first (h : LookupCorrect p dataDir name disk₀ schema) {t₀ t : Table}
    {disk : Disk} (hinit : Table.init dataDir name schema disk₀ = .ok t₀)
    (hrow : t₀.insertRow disk₀ row = .ok (t, disk)) (hfull : RowFull schema row)
    (hschema : t.schema = schema) {tree : BPTree}
    (htree : t.indexManager.getIndex pkName = some tree)
    (hholds : BPTree.HoldsLinked [(rowKey row, 0)] tree) {column : Text} {i : ℕ}
    (hcolumn : columnIndex schema column = some i) {w : Text} {v : BitVec 64}
    (hw : stoll w = .ok v) (hkey : rowKey row = v.toNat) :
    ∃ read, materializeRow p t disk 0 = .ok read ∧
      project t none [column] read = project t none [column] (storedRow p row) := by
  let s : SelectStmt := { tableName := [], columns := [column], filters := [⟨idName, str "=", w⟩] }
  have hasks : AsksFor t s w := by
    refine ⟨rfl, rfl, ?_⟩
    simp [unknownColumn, s, hschema, hcolumn]
  have hfilled : Filled dataDir name schema disk₀ [row] t disk :=
    ⟨t₀, hinit, by rw [run_singleton]; exact hrow⟩
  obtain ⟨-, hselect⟩ := h [row] (by simpa using hfull) (by simp) t disk hfilled
    ⟨dataDir, fun _ => some t, disk⟩ s w v rfl rfl hasks hw
  -- the index leads to row 0
  obtain ⟨rid, tree', hsearch⟩ := (hholds.found_iff v.toNat).mpr ⟨0, by simp [hkey]⟩
  obtain ⟨hit, _, hsearch', -, hsound⟩ := hholds.holds.search_sound v.toNat
  obtain rfl : hit = some rid := by
    rw [hsearch] at hsearch'
    exact (congrArg Prod.fst (Except.ok.inj hsearch')).symm
  obtain rfl : rid = 0 := by simpa [hkey] using hsound rid rfl
  have hid : asksForId s = some w := by simp [asksForId, s]
  cases hread : materializeRow p t disk 0 with
  | error f =>
    simp [execSelect, getTable, hasks.known, indexLookup, hid, hw, htree, hsearch, hread, s,
      Bind.bind, Except.bind] at hselect
  | ok read =>
    refine ⟨read, rfl, ?_⟩
    have hshort : orderRows p t none s [read] = [read] := orderRows_short (by simp)
    have hfilter : ([row].filter fun r => rowKey r = v.toNat) = [row] := by simp [hkey]
    rw [hfilter] at hselect
    have hemit : execSelect p ⟨dataDir, fun _ => some t, disk⟩ s = .ok (emit p t none s [read]) := by
      simp only [execSelect, getTable, s, Bool.false_eq_true, if_false]
      rw [show unknownColumn t [column] = none from hasks.known]
      simp only [indexLookup, hid, hw, htree, hsearch, hread, Bind.bind, Except.bind, Pure.pure,
        Except.pure, s]
    rw [hemit, emit, hshort] at hselect
    simpa [s] using hselect

/-! ## Two rows that read alike -/

theorem exists_shared (h : ¬ (schema.map ColumnDef.name).Nodup) :
    ∃ pre a post, schema = pre ++ a :: post ∧ (∀ d ∈ pre, d.name ≠ a.name) ∧
      ∃ b ∈ post, b.name = a.name := by
  induction schema with
  | nil => exact absurd List.nodup_nil h
  | cons d schema ih =>
    by_cases hmem : d.name ∈ schema.map ColumnDef.name
    · exact ⟨[], d, schema, rfl, by simp, List.mem_map.mp hmem⟩
    · obtain ⟨pre, a, post, rfl, hpre, hpost⟩ := ih fun hnodup =>
        h (List.nodup_cons.mpr ⟨hmem, hnodup⟩)
      refine ⟨d :: pre, a, post, rfl, ?_, hpost⟩
      intro d' hd'
      rcases List.mem_cons.mp hd' with rfl | hd'
      · intro heq
        exact hmem (heq ▸ List.mem_map_of_mem (by simp))
      · exact hpre d' hd'

theorem columnIndex_append {pre post : Schema} {a : ColumnDef}
    (h : ∀ d ∈ pre, d.name ≠ a.name) :
    columnIndex (pre ++ a :: post) a.name = some pre.length := by
  induction pre with
  | nil => simp [columnIndex, List.findIdx?_cons]
  | cons d pre ih =>
    have hrest := ih fun d' hd' => h d' (List.mem_cons_of_mem _ hd')
    have hd : d.name ≠ a.name := h d List.mem_cons_self
    unfold columnIndex at hrest ⊢
    rw [List.cons_append, List.findIdx?_cons, hrest]
    simp [hd]

/-- A value that reads as zero or as nothing. -/
def blankValue (d : ColumnDef) : Value := ⟨d.type, 0, []⟩

/-- A value that reads differently. -/
def markedValue (d : ColumnDef) : Value :=
  if d.type = .varchar then ⟨d.type, 0, str "x"⟩ else ⟨d.type, 1, []⟩

/-- A row of blank values but for one. -/
def rowWith (pre : Schema) (v : Value) (post : Schema) : Row :=
  ⟨pre.map blankValue ++ v :: post.map blankValue⟩

theorem rowWith_full {pre post : Schema} {a : ColumnDef} {v : Value} (hv : v.type = a.type) :
    RowFull (pre ++ a :: post) (rowWith pre v post) := by
  simp [RowFull, rowWith, hv, blankValue, Function.comp_def]

/-- The key of the row has a text. -/
theorem rowWith_key (pre post : Schema) {v : Value} (hv : v.bits = 0 ∨ v.bits = 1) :
    ∃ w x, stoll w = .ok x ∧ rowKey (rowWith pre v post) = x.toNat := by
  have hzero : stoll (str "0") = .ok 0 := by decide
  have hone : stoll (str "1") = .ok 1 := by decide
  cases pre with
  | nil =>
    rcases hv with hv | hv
    · exact ⟨_, _, hzero, by simp [rowWith, rowKey, hv]⟩
    · exact ⟨_, _, hone, by simp [rowWith, rowKey, hv]⟩
  | cons d pre => exact ⟨_, _, hzero, by simp [rowWith, rowKey, blankValue]⟩

/-- What a query for the column should emit. -/
theorem project_rowWith {pre post : Schema} {a : ColumnDef} {v : Value} {t : Table}
    (hschema : t.schema = pre ++ a :: post) (h : ∀ d ∈ pre, d.name ≠ a.name) :
    project t none [a.name] (storedRow p (rowWith pre v post)) =
      [cStr (if (v.stored p).type = .varchar then (v.stored p).str
        else ofInt64 (v.stored p).bits)] := by
  have hindex : resultIndex t none a.name = some pre.length := by
    rw [resultIndex, hschema, columnIndex_append h]
  have hvalue : (storedRow p (rowWith pre v post)).values[pre.length]? = some (v.stored p) := by
    simp [storedRow, rowWith]
  simp only [project, List.map_cons, List.map_nil, cell, hindex, Option.bind_some, hvalue]

theorem readsWithin_zero (t : Table) (disk : Disk) : ReadsWithin t disk 0 := by
  intro j d column _ _ q _
  have hsize : ColumnReader.slotSize d.type.readSize ≤ 4088 := by cases d.type <;> decide
  calc min (0 + 1) _ * ColumnReader.slotSize d.type.readSize
      ≤ 1 * ColumnReader.slotSize d.type.readSize := Nat.mul_le_mul_right _ (Nat.min_le_left _ _)
    _ ≤ 4088 := by rwa [Nat.one_mul]

/-- The marked and the blank value would be emitted differently. -/
theorem emitted_ne {a : ColumnDef} (htype : a.type = .decimal ∨ a.type = .varchar) :
    cStr (if ((blankValue a).stored p).type = .varchar then ((blankValue a).stored p).str
        else ofInt64 ((blankValue a).stored p).bits) ≠
      cStr (if ((markedValue a).stored p).type = .varchar then ((markedValue a).stored p).str
        else ofInt64 ((markedValue a).stored p).bits) := by
  rcases htype with htype | htype
  · simp only [blankValue, markedValue, Value.stored, htype, reduceCtorEq, if_false]
    decide
  · simp only [blankValue, markedValue, Value.stored, htype, if_true]
    decide

/-- A table with two columns of one name loses the value of the first of them. -/
theorem not_lookupCorrect_of_shared {d : ColumnDef} (hname : d.name = idName)
    (htypes : ∀ d' ∈ d :: schema, d'.type = .decimal ∨ d'.type = .varchar)
    (hnodup : ¬ ((d :: schema).map ColumnDef.name).Nodup) :
    ¬ LookupCorrect p dataDir name disk₀ (d :: schema) := by
  intro h
  obtain ⟨tree, -, htree, -⟩ := BPTree.init_insert (disk₀.indexes (pkPath dataDir name)) (0, 0)
  have hinit := init_of_id dataDir name schema disk₀ hname htree
  have hsound := init_sound dataDir name hinit
  generalize ht₀ : Table.mk name (d :: schema) _ _ = t₀ at hinit hsound
  have hcolumns : t₀.columns = (d :: schema).map (newColumn dataDir name) := by rw [← ht₀]
  have hfresh : ∀ column ∈ t₀.columns, column.numPages = 0 := by
    intro column hcolumn
    rw [hcolumns] at hcolumn
    obtain ⟨d', -, rfl⟩ := List.mem_map.mp hcolumn
    rfl
  obtain ⟨pre, a, post, hschema, hpre, b, hb, hbname⟩ := exists_shared hnodup
  obtain ⟨k, hk⟩ := List.getElem?_of_mem hb
  have hk' := (List.getElem?_eq_some_iff.mp hk).1
  have ha : t₀.columns[pre.length]? = some (newColumn dataDir name a) := by
    rw [hcolumns, hschema]
    simp
  have hb : t₀.columns[pre.length + 1 + k]? = some (newColumn dataDir name b) := by
    rw [hcolumns, hschema, List.getElem?_map, List.getElem?_append_right (by omega),
      show pre.length + 1 + k - pre.length = k + 1 by omega, List.getElem?_cons_succ, hk]
    rfl
  have hpath : (newColumn dataDir name b).filePath = (newColumn dataDir name a).filePath := by
    simp only [newColumn, hbname]
  have htype : (blankValue a).type = (markedValue a).type := by
    unfold markedValue
    split <;> rfl
  obtain ⟨r, r', hr, hr', hmoved⟩ := insertColumns_rows disk₀ hsound.inUse
    hsound.length_eq hfresh (i := pre.length) (j := pre.length + 1 + k) (by omega) ha hb hpath
    (pre.map blankValue) (post.map blankValue) (by simp) (by simp; omega) htype
  -- both rows are found by their keys
  have hread : ∀ {v : Value} {q : Table × Disk}, v.type = a.type → v.bits = 0 ∨ v.bits = 1 →
      t₀.insertColumns disk₀ 0 (rowWith pre v post).values = .ok q → q.1.schema = t₀.schema →
      q.1.indexManager = t₀.indexManager → ∃ t read, t.columns = q.1.columns ∧
        t.schema = d :: schema ∧ materializeRow p t q.2 0 = .ok read ∧
        project t none [a.name] read = project t none [a.name] (storedRow p (rowWith pre v post)) := by
    intro v q hv hbits hq hqschema hqindex
    obtain ⟨t, tree, ht, htcolumns, htschema, htree, hholds⟩ :=
      insertRow_first hname hinit (by simp [rowWith]) hq hqschema hqindex
    obtain ⟨w, x, hw, hkey⟩ := rowWith_key pre post hbits
    have hfull : RowFull (d :: schema) (rowWith pre v post) := hschema ▸ rowWith_full hv
    obtain ⟨read, hread, hproject⟩ := h.reads_first hinit ht hfull htschema htree hholds
      (hschema ▸ columnIndex_append hpre) hw hkey
    exact ⟨t, read, htcolumns, htschema, hread, hproject⟩
  obtain ⟨t, read, htcolumns, htschema, hread₁, hproject⟩ := hread rfl (Or.inl rfl) hr
    hmoved.schema_eq hmoved.index_eq
  have hbits : (markedValue a).bits = 0 ∨ (markedValue a).bits = 1 := by
    unfold markedValue
    split
    · exact Or.inl rfl
    · exact Or.inr rfl
  obtain ⟨t', read', htcolumns', htschema', hread₂, hproject'⟩ := hread htype.symm hbits hr'
    (hmoved.alike.schema_eq.trans hmoved.schema_eq) hmoved.index_eq'
  -- but they are read alike
  have hagree : TablesAgree t t' r.2 r'.2 := by
    refine ⟨⟨htschema'.trans htschema.symm, ?_⟩, ?_, ?_⟩
    · rw [htcolumns, htcolumns']
      exact hmoved.alike.columns
    · intro j column hj hcolumn
      rw [htcolumns] at hcolumn
      exact hmoved.agree j column hj hcolumn
    · rw [htcolumns, htschema, hmoved.length_eq, hsound.length_eq, ← ht₀]
  have hsame := hagree.materializeRow_eq (p := p) (readsWithin_zero t r.2)
  rw [hread₁, hread₂] at hsame
  obtain rfl := Except.ok.inj hsame
  have hproj : project t none [a.name] read = project t' none [a.name] read := by
    simp only [project, cell, resultIndex, htschema, htschema']
  rw [hproject, hproject', project_rowWith (htschema.trans hschema) hpre,
    project_rowWith (htschema'.trans hschema) hpre] at hproj
  have htypea : a.type = .decimal ∨ a.type = .varchar := htypes a (hschema ▸ by simp)
  exact emitted_ne htypea (List.cons.inj hproj).1

theorem readable_of_type {type : ColumnType} (h : type = .decimal ∨ type = .varchar) :
    type.Readable := by
  rcases h with rfl | rfl <;> rfl

/-- For a table with `ID` as first column, and decimals and texts behind it, every lookup finds what
the scan finds, which is what was inserted, if and only if the columns have names of their own. -/
theorem lookupCorrect_iff (p : Platform) (dataDir name : Text) (disk₀ : Disk) (schema : Schema)
    (htypes : ∀ d ∈ schema, d.type = .decimal ∨ d.type = .varchar) :
    LookupCorrect p dataDir name disk₀ (⟨idName, .decimal⟩ :: schema) ↔
      ((⟨idName, .decimal⟩ :: schema).map ColumnDef.name).Nodup := by
  have htypes' : ∀ d ∈ (⟨idName, .decimal⟩ :: schema : Schema),
      d.type = .decimal ∨ d.type = .varchar := by
    intro d hd
    rcases List.mem_cons.mp hd with rfl | hd
    · exact Or.inl rfl
    · exact htypes d hd
  constructor
  · intro h
    by_contra hnodup
    exact not_lookupCorrect_of_shared rfl htypes' hnodup h
  · intro hnodup rows hfull hkeys t disk hfilled e s w v htable hdisk hasks hw
    obtain ⟨t₀, hinit, hrun⟩ := hfilled
    obtain ⟨t₁, hinit₁, hholds, -, hschema, -⟩ :=
      init_holdsRows dataDir name disk₀ (List.cons_ne_nil _ _) hnodup
    obtain rfl : t₁ = t₀ := Except.ok.inj (hinit₁.symm.trans hinit)
    obtain ⟨hrows, hschema'⟩ := run_holdsRows hholds
      (fun row hrow => hschema ▸ (hfull row hrow).rowFits (List.cons_ne_nil _ _)) hrun
    rw [List.nil_append] at hrows
    rw [hschema] at hschema'
    have hread : ∀ d ∈ t.schema, d.type.Readable := fun d hd =>
      readable_of_type (htypes' d (hschema' ▸ hd))
    have hfull' : ∀ row ∈ rows, RowFull t.schema row := fun row hrow => hschema' ▸ hfull row hrow
    have hselect := execSelect_key (p := p) hrows hschema' hread hfull' hkeys htable hdisk hasks hw
    refine ⟨?_, ?_⟩
    · rw [hselect, scan_key hrows hschema' hread hfull' hasks.filters_eq hw]
    · rw [hselect, emit_key hkeys]

theorem lookupCorrect_id_name :
    LookupCorrect .reference (str "data") (str "T") .blank
      [⟨idName, .decimal⟩, ⟨str "NAME", .varchar⟩] :=
  (lookupCorrect_iff .reference (str "data") (str "T") .blank [⟨str "NAME", .varchar⟩]
    (by decide)).mpr (by decide)

/-- The first row of a new table, and the answer to a query. -/
def firstAnswer (schema : Schema) (row : Row) (s : SelectStmt) : Except Fault Outcome := do
  let t ← Table.init (str "data") (str "T") schema .blank
  let (t, disk) ← t.insertRow .blank row
  execSelect .reference ⟨str "data", fun _ => some t, disk⟩ s

/-- With columns `ID`, `V` and `V`, the row `7, 1, 2` has the first `V` read as `2`. -/
theorem not_lookupCorrect_id_v_v :
    ¬ LookupCorrect .reference (str "data") (str "T") .blank
      [⟨idName, .decimal⟩, ⟨str "V", .decimal⟩, ⟨str "V", .decimal⟩] := by
  intro h
  let row : Row := ⟨[⟨.decimal, 7, []⟩, ⟨.decimal, 1, []⟩, ⟨.decimal, 2, []⟩]⟩
  let s : SelectStmt :=
    { tableName := str "T", columns := [str "V"], filters := [⟨idName, str "=", str "7"⟩] }
  have hanswer : firstAnswer [⟨idName, .decimal⟩, ⟨str "V", .decimal⟩, ⟨str "V", .decimal⟩] row s =
      .ok ⟨.returned 0 none, [[str "2"]]⟩ := by decide +kernel
  unfold firstAnswer at hanswer
  cases hinit : Table.init (str "data") (str "T")
      [⟨idName, .decimal⟩, ⟨str "V", .decimal⟩, ⟨str "V", .decimal⟩] .blank with
  | error f => simp [hinit, Bind.bind, Except.bind] at hanswer
  | ok t₀ =>
    cases hrow : t₀.insertRow .blank row with
    | error f => simp [hinit, hrow, Bind.bind, Except.bind] at hanswer
    | ok r =>
      have hschema : r.1.schema =
          [⟨idName, .decimal⟩, ⟨str "V", .decimal⟩, ⟨str "V", .decimal⟩] := by
        have hsound := (init_sound _ _ hinit).insertRow .blank row
        rw [hrow] at hsound
        obtain ⟨m, hok, -, -⟩ := init_spec (str "data") (str "T") .blank
          (List.cons_ne_nil (⟨idName, .decimal⟩ : ColumnDef) _)
        rw [hsound.of_ok.schema_eq]
        rw [hok] at hinit
        cases hinit
        rfl
      have hcorrect := (h [row] (by simp [RowFull, row]) (by simp) r.1 r.2
        ⟨t₀, hinit, by rw [run_singleton]; exact hrow⟩ ⟨str "data", fun _ => some r.1, r.2⟩ s
        (str "7") 7 rfl rfl ⟨rfl, rfl, by rw [unknownColumn, hschema]; decide⟩ (by decide)).2
      simp only [hinit, hrow, Bind.bind, Except.bind] at hanswer
      rw [hanswer] at hcorrect
      simp only [project, cell, resultIndex, hschema] at hcorrect
      revert hcorrect
      decide

end Executor

end FlexQL
