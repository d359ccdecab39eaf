import FlexQL.Lib.Traces
import FlexQL.Storage.TableAlike

/-!
# The steps of an insertion

`insert_row` reads the number of the next row, appends to one column after the other, and then
inserts into the index. Appending to two columns with files of their own can be exchanged, and so
can appending to a column and inserting into the index.
-/

namespace FlexQL.Table

open Runs Traces

/-- One step of `insert_row` behind the one that reads the row number. -/
inductive Event
  | column (i : ℕ) (v : Value)
  | key (row : Row) (rid : ℕ)
  deriving DecidableEq, Repr

/-- What a step touches: a column, or the index. -/
def Event.target : Event → Option ℕ
  | .column i _ => some i
  | .key _ _ => none

def eventStep (st : Table × Disk) : Event → Except Fault (Table × Disk)
  | .column i v => st.1.insertColumn st.2 i v
  | .key row rid => do
    let t ← st.1.insertKey row rid
    return (t, st.2)

/-- The rounds of the loop of `insert_row` over `n` columns, from column `i` on. -/
def columnEvents (n : ℕ) : ℕ → List Value → List Event
  | _, [] => []
  | i, v :: values => if i < n then .column i v :: columnEvents n (i + 1) values else []

/-- The steps of `insert_row` for a row and its number. -/
def rowEvents (schema : Schema) (row : Row) (rid : ℕ) : List Event :=
  columnEvents schema.length 0 row.values ++ [.key row rid]

variable {t : Table} {disk : Disk}

theorem insertColumn_schema {i : ℕ} {v : Value} {r : Table × Disk}
    (h : t.insertColumn disk i v = .ok r) : r.1.schema = t.schema := by
  unfold Table.insertColumn at h
  split at h
  · cases h
  · rename_i column _
    cases hins : column.insertFixed (disk.columns column.filePath) v.bytes with
    | error f => simp [hins, Bind.bind, Except.bind] at h
    | ok out =>
      simp only [hins, Bind.bind, Except.bind, Pure.pure, Except.pure] at h
      cases h
      rfl

theorem insertColumns_eq_run (t : Table) (disk : Disk) (i : ℕ) (values : List Value) :
    t.insertColumns disk i values =
      run eventStep (t, disk) (columnEvents t.schema.length i values) := by
  induction values generalizing t disk i with
  | nil => rfl
  | cons v values ih =>
    simp only [Table.insertColumns, columnEvents]
    by_cases hi : i < t.schema.length
    · rw [if_pos hi, if_pos hi]
      cases hr : t.insertColumn disk i v with
      | error f => simp only [run, eventStep, hr, Bind.bind, Except.bind]
      | ok r =>
        rw [run_cons_of_ok (t := r) _ hr, ← insertColumn_schema hr]
        exact ih r.1 r.2 (i + 1)
    · rw [if_neg hi, if_neg hi]
      rfl

/-- `insert_row` is its steps, one after the other. -/
theorem insertRow_eq_run (t : Table) (disk : Disk) (row : Row) :
    t.insertRow disk row = (do
      let rid ← t.nextRid
      run eventStep (t, disk) (rowEvents t.schema row rid)) := by
  simp only [Table.insertRow, rowEvents, insertColumns_eq_run]
  cases t.nextRid with
  | error f => rfl
  | ok rid =>
    simp only [Bind.bind, Except.bind]
    cases hr : run eventStep (t, disk) (columnEvents t.schema.length 0 row.values) with
    | error f => rw [run_append_of_error _ hr]
    | ok r =>
      rw [run_append_of_ok _ hr, run_singleton]
      rfl

/-! ## Independent steps -/

/-- The columns are in use as they should be, each with a file of its own. -/
structure Separate (t : Table) : Prop where
  inUse : ∀ column ∈ t.columns, column.InUse
  nodup : (t.columns.map ColumnStore.filePath).Nodup

/-- One column has taken a value, and the rest of the table is as it was. -/
theorem insertColumn_of_ok {i : ℕ} {v : Value} {column column' : ColumnStore} {m : ByteMemory}
    (hcolumn : t.columns[i]? = some column)
    (hok : column.insertFixed (disk.columns column.filePath) v.bytes = .ok (column', m))
    (hpath : column'.filePath = column.filePath) :
    t.insertColumn disk i v =
      .ok ({ t with columns := t.columns.set i column' }, disk.setColumn column.filePath m) := by
  simp only [Table.insertColumn, hcolumn, hok, Bind.bind, Except.bind, Pure.pure, Except.pure, hpath]

/-- What appending to a column does. -/
theorem insertColumn_cases (h : ∀ column ∈ t.columns, column.InUse) {i : ℕ} {v : Value} {r : Table × Disk}
    (hr : t.insertColumn disk i v = .ok r) :
    ∃ column column' m, t.columns[i]? = some column ∧
      column.insertFixed (disk.columns column.filePath) v.bytes = .ok (column', m) ∧
      column'.filePath = column.filePath ∧ column'.InUse ∧
      column'.totalRows = (column.totalRows + 1) % 2 ^ 64 ∧
      r = ({ t with columns := t.columns.set i column' }, disk.setColumn column.filePath m) := by
  cases hcolumn : t.columns[i]? with
  | none => simp [Table.insertColumn, hcolumn] at hr
  | some column =>
    have hinUse := h column (List.mem_of_getElem? hcolumn)
    have hsound : (SlotFormat.fixed v.bytes.length).Sound := v.bytes_length ▸ itemFormat_sound v.type
    rcases hinUse.alike.insertItem (m := disk.columns column.filePath) hsound (fun _ _ => rfl)
      le_rfl with ⟨-, herr, -⟩ | ⟨⟨column', m⟩, r', hok, -, hboth⟩
    · simp [Table.insertColumn, hcolumn, ColumnStore.insertFixed, herr, Bind.bind, Except.bind] at hr
    · rw [insertColumn_of_ok hcolumn hok hboth.filePath_eq] at hr
      cases hr
      exact ⟨column, column', m, rfl, hok, hboth.filePath_eq, hboth.alike.inUse,
        hboth.totalRows_eq, rfl⟩

theorem Separate.insertColumn (h : t.Separate) {i : ℕ} {v : Value} {r : Table × Disk}
    (hr : t.insertColumn disk i v = .ok r) : r.1.Separate := by
  obtain ⟨column, column', m, hcolumn, -, hpath, hinUse, -, rfl⟩ := insertColumn_cases h.inUse hr
  constructor
  · intro c hc
    rcases List.mem_or_eq_of_mem_set hc with hc | rfl
    · exact h.inUse c hc
    · exact hinUse
  · change ((t.columns.set i column').map ColumnStore.filePath).Nodup
    rw [paths_set hcolumn hpath]
    exact h.nodup

/-- Columns at different places have different files. -/
theorem Separate.filePath_ne (h : t.Separate) {i j : ℕ} {c c' : ColumnStore} (hij : i ≠ j)
    (hi : t.columns[i]? = some c) (hj : t.columns[j]? = some c') : c.filePath ≠ c'.filePath := by
  intro heq
  have hlt : i < (t.columns.map ColumnStore.filePath).length := by
    rw [List.length_map]
    exact (List.getElem?_eq_some_iff.mp hi).1
  apply hij
  apply (List.getElem?_inj hlt h.nodup).mp
  rw [List.getElem?_map, List.getElem?_map, hi, hj, Option.map_some, Option.map_some, heq]

theorem setColumn_comm (disk : Disk) {path path' : Text} (h : path ≠ path') (m m' : ByteMemory) :
    (disk.setColumn path m).setColumn path' m' = (disk.setColumn path' m').setColumn path m := by
  simp only [Disk.setColumn, Function.update_comm h]

/-- Two columns can be appended to in either order. -/
theorem Separate.insertColumn_comm (h : t.Separate) {i j : ℕ} {v w : Value} {r u : Table × Disk}
    (hij : i ≠ j) (hr : t.insertColumn disk i v = .ok r) (hu : r.1.insertColumn r.2 j w = .ok u) :
    ∃ r', t.insertColumn disk j w = .ok r' ∧ r'.1.insertColumn r'.2 i v = .ok u := by
  have hsep := h.insertColumn hr
  obtain ⟨c, c', m, hc, hok, hpath, -, -, rfl⟩ := insertColumn_cases h.inUse hr
  obtain ⟨d, d', n, hd, hok', hpath', -, -, rfl⟩ := insertColumn_cases hsep.inUse hu
  rw [List.getElem?_set_ne hij] at hd
  have hne := h.filePath_ne hij hc hd
  rw [Disk.setColumn_ne _ hne.symm] at hok'
  refine ⟨_, insertColumn_of_ok hd hok' hpath', ?_⟩
  have hc' : (t.columns.set j d')[i]? = some c := by rw [List.getElem?_set_ne hij.symm, hc]
  rw [← Disk.setColumn_ne n hne] at hok
  rw [insertColumn_of_ok hc' hok hpath, List.set_comm _ _ hij.symm, setColumn_comm _ hne.symm]

/-- What inserting into the index does. -/
theorem insertKey_cases {row : Row} {rid : ℕ} {u : Table} (h : t.insertKey row rid = .ok u) :
    ∃ m, indexAfter t.schema t.indexManager row rid = .ok m ∧ u = { t with indexManager := m } := by
  rw [insertKey_eq] at h
  cases hm : indexAfter t.schema t.indexManager row rid with
  | error f => simp [hm, Except.map] at h
  | ok m =>
    simp only [hm, Except.map, Except.ok.injEq] at h
    exact ⟨m, rfl, h.symm⟩

theorem insertKey_of_ok {row : Row} {rid : ℕ} {m : IndexManager}
    (h : indexAfter t.schema t.indexManager row rid = .ok m) :
    t.insertKey row rid = .ok { t with indexManager := m } := by
  simp only [insertKey_eq, h, Except.map]

/-- What one step does: a column takes a value, or the index takes a key. -/
theorem eventStep_cases {st r : Table × Disk} {e : Event} (h : eventStep st e = .ok r) :
    (∃ i v, e = .column i v ∧ st.1.insertColumn st.2 i v = .ok r) ∨
      ∃ row rid m, e = .key row rid ∧ indexAfter st.1.schema st.1.indexManager row rid = .ok m ∧
        r = ({ st.1 with indexManager := m }, st.2) := by
  cases e with
  | column i v => exact Or.inl ⟨i, v, rfl, h⟩
  | key row rid =>
    cases hu : st.1.insertKey row rid with
    | error f => simp [eventStep, hu, Bind.bind, Except.bind] at h
    | ok u =>
      simp only [eventStep, hu, Bind.bind, Except.bind, Pure.pure, Except.pure,
        Except.ok.injEq] at h
      obtain ⟨m, hm, rfl⟩ := insertKey_cases hu
      exact Or.inr ⟨row, rid, m, rfl, hm, h.symm⟩

theorem eventStep_key {st : Table × Disk} {row : Row} {rid : ℕ} {m : IndexManager}
    (h : indexAfter st.1.schema st.1.indexManager row rid = .ok m) :
    eventStep st (.key row rid) = .ok ({ st.1 with indexManager := m }, st.2) := by
  simp only [eventStep, insertKey_of_ok h, Bind.bind, Except.bind, Pure.pure, Except.pure]

theorem eventStep_schema {st r : Table × Disk} {e : Event} (h : eventStep st e = .ok r) :
    r.1.schema = st.1.schema := by
  rcases eventStep_cases h with ⟨i, v, rfl, hr⟩ | ⟨row, rid, m, rfl, -, rfl⟩
  · exact insertColumn_schema hr
  · rfl

theorem run_eventStep_schema {st r : Table × Disk} {l : List Event}
    (h : run eventStep st l = .ok r) : r.1.schema = st.1.schema := by
  induction l generalizing st with
  | nil =>
    cases h
    rfl
  | cons e l ih =>
    cases he : eventStep st e with
    | error f => simp [run_cons_of_error _ he] at h
    | ok u =>
      rw [run_cons_of_ok _ he] at h
      rw [ih h, eventStep_schema he]

theorem insertRow_schema {row : Row} {r : Table × Disk} (h : t.insertRow disk row = .ok r) :
    r.1.schema = t.schema := by
  rw [insertRow_eq_run] at h
  obtain ⟨rid, -, h⟩ := Fallible.bind_eq_ok h
  exact run_eventStep_schema h

theorem run_insertStep_schema {rows : List Row} {r : Table × Disk}
    (h : run insertStep (t, disk) rows = .ok r) : r.1.schema = t.schema :=
  run_induction (fun st : Table × Disk => st.1.schema = t.schema)
    (fun _ _ _ hst hstep => (insertRow_schema hstep).trans hst) rfl h

theorem Separate.setIndex (h : t.Separate) (m : IndexManager) :
    Separate { t with indexManager := m } := ⟨h.inUse, h.nodup⟩

/-- Appending to a column leaves the index alone, and the other way round. -/
theorem Separate.insertColumn_index (h : t.Separate) {i : ℕ} {v : Value} {r : Table × Disk}
    (hr : t.insertColumn disk i v = .ok r) (m : IndexManager) :
    r.1.schema = t.schema ∧ r.1.indexManager = t.indexManager ∧
      ({ t with indexManager := m } : Table).insertColumn disk i v =
        .ok ({ r.1 with indexManager := m }, r.2) := by
  obtain ⟨c, c', n, hc, hok, hpath, -, -, rfl⟩ := insertColumn_cases h.inUse hr
  exact ⟨rfl, rfl, insertColumn_of_ok (t := { t with indexManager := m }) hc hok hpath⟩

/-- Steps on different columns can be exchanged, and so can steps on a column and on the index. -/
theorem independent_eventStep :
    Independent eventStep Event.target fun st : Table × Disk => st.1.Separate where
  keeps := by
    intro st e r h hr
    rcases eventStep_cases hr with ⟨i, v, rfl, hr⟩ | ⟨row, rid, m, rfl, -, rfl⟩
    · exact h.insertColumn hr
    · exact h.setIndex m
  swap := by
    intro st e e' r u h hne hr hu
    rcases eventStep_cases hr with ⟨i, v, rfl, hr⟩ | ⟨row, rid, m, rfl, hm, rfl⟩
    · rcases eventStep_cases hu with ⟨j, w, rfl, hu⟩ | ⟨row, rid, m, rfl, hm, rfl⟩
      · exact h.insertColumn_comm (fun hij => hne (congrArg some hij)) hr hu
      · obtain ⟨hschema, hindex, hcolumn⟩ := h.insertColumn_index hr m
        rw [hschema, hindex] at hm
        exact ⟨_, eventStep_key hm, hcolumn⟩
    · rcases eventStep_cases hu with ⟨j, w, rfl, hu⟩ | ⟨row', rid', m', rfl, -, rfl⟩
      · obtain ⟨hschema, hindex, hcolumn⟩ := (h.setIndex m).insertColumn_index hu st.1.indexManager
        obtain rfl : u.1.indexManager = m := hindex
        rw [← hschema] at hm
        exact ⟨_, hcolumn, eventStep_key hm⟩
      · exact absurd rfl hne

/-- Appending to a column of a table leaves its other columns alone. -/
theorem Separate.readAt_insertColumn (h : t.Separate) {i j : ℕ} (hij : j ≠ i) {v : Value}
    {r : Table × Disk} (hr : t.insertColumn disk i v = .ok r) :
    r.1.columns[j]? = t.columns[j]? ∧
      ∀ rid size, r.1.readAt r.2 j rid size = t.readAt disk j rid size := by
  obtain ⟨column, column', m, hcolumn, -, -, -, -, rfl⟩ := insertColumn_cases h.inUse hr
  have hsame : (t.columns.set i column')[j]? = t.columns[j]? := List.getElem?_set_ne hij.symm
  refine ⟨hsame, ?_⟩
  intro rid size
  simp only [Table.readAt, getColumn, hsame]
  cases hj : t.columns[j]? with
  | none => rfl
  | some c => simp only [Disk.setColumn_ne m (h.filePath_ne hij hj hcolumn)]

theorem Separate.run {st st' : Table × Disk} (h : st.1.Separate) {events : List Event}
    (hrun : Runs.run eventStep st events = .ok st') : st'.1.Separate :=
  run_induction (fun st : Table × Disk => st.1.Separate)
    (fun st e st' hst => independent_eventStep.keeps st e st' hst) h hrun

/-! ## Row numbers -/

/-- A column counts its rows in 64 bits. -/
def nextCount (n : ℕ) : ℕ := (n + 1) % 2 ^ 64

/-- The row number behind some steps, from the row number before them. -/
def ridAfter (n : ℕ) (l : List Event) : ℕ := nextCount^[(proj Event.target (some 0) l).length] n

theorem nextRid_eventStep {st r : Table × Disk} (h : st.1.Separate) {e : Event} {n : ℕ}
    (hr : eventStep st e = .ok r) (hn : st.1.nextRid = .ok n) :
    r.1.nextRid = .ok (ridAfter n [e]) := by
  rcases eventStep_cases hr with ⟨i, v, rfl, hr⟩ | ⟨row, rid, m, rfl, -, rfl⟩
  · obtain ⟨c, c', m, hc, -, -, -, htotal, rfl⟩ := insertColumn_cases h.inUse hr
    by_cases hi : i = 0
    · subst hi
      have hlt := (List.getElem?_eq_some_iff.mp hc).1
      simp only [nextRid, hc, Except.ok.injEq, ColumnStore.getTotalRows] at hn
      simp only [nextRid, List.getElem?_set_self hlt, ColumnStore.getTotalRows, htotal, hn]
      rfl
    · simp only [nextRid, List.getElem?_set_ne hi]
      have hne : (Event.column i v).target ≠ some 0 := fun heq => hi (Option.some.inj heq)
      rw [ridAfter, proj_cons_of_ne hne]
      exact hn
  · exact hn

theorem ridAfter_append (n : ℕ) (l l' : List Event) :
    ridAfter n (l ++ l') = ridAfter (ridAfter n l) l' := by
  rw [ridAfter, proj_append, List.length_append, Nat.add_comm, Function.iterate_add_apply]
  rfl

theorem nextRid_run {st r : Table × Disk} (h : st.1.Separate) {l : List Event} {n : ℕ}
    (hr : run eventStep st l = .ok r) (hn : st.1.nextRid = .ok n) :
    r.1.nextRid = .ok (ridAfter n l) := by
  induction l generalizing st n with
  | nil =>
    cases hr
    exact hn
  | cons e l ih =>
    cases he : eventStep st e with
    | error f => simp [run_cons_of_error _ he] at hr
    | ok u =>
      rw [run_cons_of_ok _ he] at hr
      rw [← List.singleton_append, ridAfter_append]
      exact ih (independent_eventStep.keeps _ _ _ h he) hr (nextRid_eventStep h he hn)

end FlexQL.Table
